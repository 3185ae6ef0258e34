-- The candles that one symbol and timeframe give out, tick by tick: the rows for
-- the database and the events for the chart, and what a reader of either stream
-- can rebuild from it.
import TickPipeline.BackEnd
import TickPipeline.Lib.EventLog

namespace tick_pipeline.pipeline

open models candles emitted event_log

/-! ## What one tick can do -/

/-- The four things that a tick can do to the store of its symbol. -/
inductive TickCase (tf : Int) (n : Nat) (xs : List Tick) (t : Tick) : Prop
  /-- It opens the first candle. -/
  | first (hnil : xs = []) (hclosed : closedBy tf xs t = none) (hpatched : patchedBy tf n xs t = none)
  /-- It closes the newest candle and opens the next one. -/
  | newer (m : Int) (hm : (openedBuckets tf xs).getLast? = some m) (hlt : m < bucketOf tf t)
      (hclosed : closedBy tf xs t = some (closeCandle (candleOf tf m xs)))
      (hpatched : patchedBy tf n xs t = none)
  /-- It merges into the open candle, or comes too late for any candle. -/
  | kept (m : Int) (hm : (openedBuckets tf xs).getLast? = some m) (hle : bucketOf tf t ≤ m)
      (hnot : bucketOf tf t ∉ retainedBuckets tf n xs)
      (hclosed : closedBy tf xs t = none) (hpatched : patchedBy tf n xs t = none)
  /-- It revises a closed candle. -/
  | patched (m : Int) (hm : (openedBuckets tf xs).getLast? = some m) (hlt : bucketOf tf t < m)
      (hmem : bucketOf tf t ∈ retainedBuckets tf n xs)
      (hclosed : closedBy tf xs t = none)
      (hpatched : patchedBy tf n xs t = some (closeCandle (candleOf tf (bucketOf tf t) (xs ++ [t]))))

theorem tick_cases (tf : Int) (n : Nat) (xs : List Tick) (t : Tick) : TickCase tf n xs t := by
  rcases hm : (openedBuckets tf xs).getLast? with _ | m
  · have hnil : xs = [] := openedBuckets_eq_nil_iff.mp (List.getLast?_eq_none_iff.mp hm)
    subst hnil
    apply TickCase.first rfl rfl
    simp [patchedBy, retainedBuckets, closedBuckets, openedBuckets, List.rtake_nil]
  · by_cases hlt : m < bucketOf tf t
    · apply TickCase.newer m hm hlt
      · simp [closedBy, hm, hlt]
      · rw [patchedBy, if_neg]
        intro hmem
        have := lt_of_mem_retainedBuckets hm hmem
        omega
    · have hclosed : closedBy tf xs t = none := by simp [closedBy, hm, hlt]
      by_cases hmem : bucketOf tf t ∈ retainedBuckets tf n xs
      · apply TickCase.patched m hm (lt_of_mem_retainedBuckets hm hmem) hmem hclosed
        rw [patchedBy, if_pos hmem]
      · apply TickCase.kept m hm (not_lt.mp hlt) hmem hclosed
        rw [patchedBy, if_neg hmem]

theorem getLast?_snoc_of_lt {tf m : Int} {xs : List Tick} {t : Tick}
    (hm : (openedBuckets tf xs).getLast? = some m) (h : m < bucketOf tf t) :
    (openedBuckets tf (xs ++ [t])).getLast? = some (bucketOf tf t) := by
  rw [openedBuckets_snoc, strict_maxima.pushMax_of_lt hm h, List.getLast?_concat]

theorem getLast?_snoc_of_le {tf m : Int} {xs : List Tick} {t : Tick}
    (hm : (openedBuckets tf xs).getLast? = some m) (h : bucketOf tf t ≤ m) :
    (openedBuckets tf (xs ++ [t])).getLast? = some m := by
  rw [openedBuckets_snoc_of_le hm h, hm]

theorem retained_ne_newest {tf m b : Int} {n : Nat} {xs : List Tick} {t : Tick}
    (hm : (openedBuckets tf xs).getLast? = some m) (hlt : m < bucketOf tf t)
    (hb : b ∈ retainedBuckets tf n xs) : b ≠ bucketOf tf t := by
  have := lt_of_mem_retainedBuckets hm hb
  omega

/-! ## The rows -/

@[simp] theorem to_dict_bucket (c : Candle) : c.to_dict.bucket_start_ms = c.bucket_start_ms := rfl

/-- The last row of each retained bucket is its candle, as it is now. -/
theorem last_row (tf : Int) (n : Nat) (xs : List Tick) {b : Int} (hb : b ∈ retainedBuckets tf n xs) :
    lastOf CandleDict.bucket_start_ms b (outputs (candleRows tf n) [] xs) =
      some (closeCandle (candleOf tf b xs)).to_dict := by
  induction xs using List.reverseRecOn generalizing b with
  | nil => simp [retainedBuckets, closedBuckets, openedBuckets, List.rtake_nil] at hb
  | append_singleton xs t ih =>
    rw [outputs_snoc, List.nil_append, lastOf_append]
    cases tick_cases tf n xs t with
    | first hnil =>
      subst hnil
      simp [retainedBuckets, closedBuckets, openedBuckets_singleton, List.rtake_nil] at hb
    | newer m hm hlt hclosed hpatched =>
      have hrows : candleRows tf n xs t = [] ++ [(closeCandle (candleOf tf m xs)).to_dict] := by
        simp [candleRows, hclosed, hpatched]
      rw [retainedBuckets_snoc_of_lt hm hlt] at hb
      rw [hrows]
      rcases List.mem_append.mp ((last_n.rtake_sublist n _).subset hb) with hb | hb
      · have hne : (closeCandle (candleOf tf m xs)).to_dict.bucket_start_ms ≠ b := by
          have := lt_of_mem_retainedBuckets hm hb
          simp only [Candle.to_dict, closeCandle_bucket, candleOf_bucket]
          omega
        rw [lastOf_snoc_ne _ _ _ hne, lastOf_nil, Option.none_or, ih hb,
          candleOf_snoc_ne (retained_ne_newest hm hlt hb).symm]
      · rw [List.mem_singleton] at hb
        subst hb
        have hself : (closeCandle (candleOf tf b xs)).to_dict.bucket_start_ms = b := by simp
        rw [lastOf_snoc_self _ _ _ hself, Option.some_or, candleOf_snoc_ne hlt.ne']
    | kept m hm hle hnot hclosed hpatched =>
      rw [retainedBuckets_snoc_of_le hm hle] at hb
      have hne : bucketOf tf t ≠ b := fun h => hnot (h ▸ hb)
      have hrows : candleRows tf n xs t = [] := by simp [candleRows, hclosed, hpatched]
      rw [hrows, lastOf_nil, Option.none_or, ih hb, candleOf_snoc_ne hne]
    | patched m hm hlt hmem hclosed hpatched =>
      rw [retainedBuckets_snoc_of_le hm hlt.le] at hb
      have hrows : candleRows tf n xs t =
          [] ++ [(closeCandle (candleOf tf (bucketOf tf t) (xs ++ [t]))).to_dict] := by
        simp [candleRows, hclosed, hpatched]
      rw [hrows]
      by_cases hbt : bucketOf tf t = b
      · have hself : (closeCandle (candleOf tf b (xs ++ [t]))).to_dict.bucket_start_ms = b := by simp
        rw [hbt, lastOf_snoc_self _ _ _ hself, Option.some_or]
      · have hne : (closeCandle (candleOf tf (bucketOf tf t) (xs ++ [t]))).to_dict.bucket_start_ms ≠ b := by
          simpa [Candle.to_dict] using hbt
        rw [lastOf_snoc_ne _ _ _ hne, lastOf_nil, Option.none_or, ih hb, candleOf_snoc_ne hbt]

/-- A row is only written for a bucket that has closed. -/
theorem row_closed {tf : Int} {n : Nat} {xs : List Tick} {t : Tick} {row : CandleDict}
    (h : row ∈ candleRows tf n xs t) :
    row.timeframe_sec = tf ∧ row.closed = true ∧ row.bucket_start_ms ∈ closedBuckets tf (xs ++ [t]) := by
  cases tick_cases tf n xs t with
  | first hnil hclosed hpatched => simp [candleRows, hclosed, hpatched] at h
  | newer m hm hlt hclosed hpatched =>
    obtain rfl : row = (closeCandle (candleOf tf m xs)).to_dict := by
      simpa [candleRows, hclosed, hpatched] using h
    rw [closedBuckets_snoc_of_lt hm hlt]
    simp [Candle.to_dict, closeCandle]
  | kept m hm hle hnot hclosed hpatched => simp [candleRows, hclosed, hpatched] at h
  | patched m hm hlt hmem hclosed hpatched =>
    obtain rfl : row = (closeCandle (candleOf tf (bucketOf tf t) (xs ++ [t]))).to_dict := by
      simpa [candleRows, hclosed, hpatched] using h
    have hmem' := (retainedBuckets_sublist tf n xs).subset hmem
    rw [closedBuckets, openedBuckets_snoc_of_le hm hlt.le]
    exact ⟨by simp [Candle.to_dict, closeCandle], rfl, by simpa [Candle.to_dict, closedBuckets] using hmem'⟩

/-! ## The chart events -/

/-- The dict of a candle event. -/
def Event.data : Event → Option CandleDict
  | .candle_closed d => some d
  | .candle_patched d => some d
  | .candle_update d => some d
  | .tick _ => none

/-- The dict of a `candle_closed` event. -/
def Event.closes : Event → Option CandleDict
  | .candle_closed d => some d
  | _ => none

/-- The dict of a `candle_update` event. -/
def Event.updates : Event → Option CandleDict
  | .candle_update d => some d
  | _ => none

/-- The dict of an event that moves the chart on: `candle_closed` or `candle_update`. -/
def Event.flows : Event → Option CandleDict
  | .candle_closed d => some d
  | .candle_update d => some d
  | _ => none

/-- What an event of a chart may rely on in the log before it. -/
def InChart (before : List Event) : Event → Prop
  | .candle_closed d =>
    (∀ c ∈ before.filterMap Event.closes, c.bucket_start_ms ≠ d.bucket_start_ms) ∧
      ∃ u, lastOf CandleDict.bucket_start_ms d.bucket_start_ms (before.filterMap Event.updates) = some u ∧
        u.closed = false ∧ d = { u with closed := true }
  | .candle_patched d =>
    ∃ c ∈ before.filterMap Event.closes, c.bucket_start_ms = d.bucket_start_ms
  | .candle_update d =>
    ∀ c ∈ before.filterMap Event.closes, c.bucket_start_ms ≠ d.bucket_start_ms
  | .tick _ => True

/-- What the log of a chart says once the ticks `xs` have come. -/
structure Chart (tf : Int) (n : Nat) (xs : List Tick) (log : List Event) : Prop where
  causal : Causal InChart log
  closes_eq : (log.filterMap Event.closes).map (·.bucket_start_ms) = closedBuckets tf xs
  flows_sorted : (log.filterMap Event.flows).Pairwise
    (fun d e => d.bucket_start_ms ≤ e.bucket_start_ms)
  flows_le : ∀ d ∈ log.filterMap Event.flows, ∀ m, (openedBuckets tf xs).getLast? = some m →
    d.bucket_start_ms ≤ m
  last_update : ∀ m, (openedBuckets tf xs).getLast? = some m →
    lastOf CandleDict.bucket_start_ms m (log.filterMap Event.updates) =
      some (candleOf tf m xs).to_dict
  open_data : ∀ m, (openedBuckets tf xs).getLast? = some m →
    lastOf CandleDict.bucket_start_ms m (log.filterMap Event.data) = some (candleOf tf m xs).to_dict
  closed_data : ∀ b ∈ retainedBuckets tf n xs,
    lastOf CandleDict.bucket_start_ms b (log.filterMap Event.data) =
      some (closeCandle (candleOf tf b xs)).to_dict

/-- An event is the last one of its own bucket. -/
theorem last_snoc_self (view : Event → Option CandleDict) {b : Int} {c : Candle} {log : List Event}
    {e : Event} (he : view e = some c.to_dict) (hb : c.bucket_start_ms = b) :
    lastOf CandleDict.bucket_start_ms b ((log ++ [e]).filterMap view) = some c.to_dict := by
  rw [List.filterMap_append, List.filterMap_cons_some he, List.filterMap_nil]
  exact lastOf_snoc_self _ _ _ hb

/-- A log that ends in an update of the newest candle. -/
theorem last_of_newest (view : Event → Option CandleDict)
    (hview : ∀ d, view (.candle_update d) = some d) {tf m : Int} {xs : List Tick} (log : List Event)
    (hnewest : (openedBuckets tf xs).getLast? = some m) :
    ∀ m', (openedBuckets tf xs).getLast? = some m' →
      lastOf CandleDict.bucket_start_ms m'
          ((log ++ [Event.candle_update (candleOf tf m xs).to_dict]).filterMap view) =
        some (candleOf tf m' xs).to_dict := by
  intro m' hm'
  obtain rfl : m = m' := by simpa [hnewest] using hm'
  exact last_snoc_self view (hview _) (candleOf_bucket tf m xs)

/-- An event leaves the data of the other buckets alone. -/
theorem data_snoc_ne {b : Int} {log : List Event} {e : Event}
    (h : ∀ d ∈ e.data, d.bucket_start_ms ≠ b) :
    lastOf CandleDict.bucket_start_ms b ((log ++ [e]).filterMap Event.data) =
      lastOf CandleDict.bucket_start_ms b (log.filterMap Event.data) := by
  rw [List.filterMap_append]
  rcases hd : e.data with _ | d
  · simp [hd]
  · rw [List.filterMap_cons_some hd, List.filterMap_nil, lastOf_snoc_ne _ _ _ (h d hd)]

section chart_step

variable {tf : Int} {n : Nat} {xs : List Tick} {t : Tick} {log : List Event}

theorem Chart.closes_bucket (h : Chart tf n xs log) {d : CandleDict}
    (hd : d ∈ log.filterMap Event.closes) : d.bucket_start_ms ∈ closedBuckets tf xs := by
  rw [← h.closes_eq]
  exact List.mem_map_of_mem hd

theorem Chart.closes_lt (h : Chart tf n xs log) {m : Int}
    (hm : (openedBuckets tf xs).getLast? = some m) {d : CandleDict}
    (hd : d ∈ log.filterMap Event.closes) : d.bucket_start_ms < m :=
  lt_of_mem_closedBuckets hm (h.closes_bucket hd)

theorem Chart.first :
    Chart tf n [t] [.candle_update (candleOf tf (bucketOf tf t) [t]).to_dict] := by
  have hopened := openedBuckets_singleton tf t
  refine ⟨?_, ?_, ?_, ?_, ?_, ?_, ?_⟩
  · rw [← List.nil_append [Event.candle_update _]]
    exact causal_snoc (causal_nil _) (by simp [InChart])
  · simp [Event.closes, closedBuckets, hopened]
  · simp [Event.flows]
  · intro d hd m hm
    rw [hopened] at hm
    obtain rfl : bucketOf tf t = m := by simpa using hm
    obtain rfl : d = (candleOf tf (bucketOf tf t) [t]).to_dict := by simpa [Event.flows, eq_comm] using hd
    simp
  · exact last_of_newest Event.updates (fun _ => rfl) [] (congrArg List.getLast? hopened)
  · exact last_of_newest Event.data (fun _ => rfl) [] (congrArg List.getLast? hopened)
  · intro b hb
    simp [retainedBuckets, closedBuckets, hopened, List.rtake_nil] at hb

/-- The newest candle closes, and the next one opens. -/
theorem Chart.newer (h : Chart tf n xs log) {m : Int} (hm : (openedBuckets tf xs).getLast? = some m)
    (hlt : m < bucketOf tf t) :
    Chart tf n (xs ++ [t]) (log ++ [.candle_closed (closeCandle (candleOf tf m xs)).to_dict] ++
      [.candle_update (candleOf tf (bucketOf tf t) (xs ++ [t])).to_dict]) := by
  have hnewest := getLast?_snoc_of_lt hm hlt
  refine ⟨?_, ?_, ?_, ?_, ?_, ?_, ?_⟩
  · apply causal_snoc
    · apply causal_snoc h.causal
      refine ⟨fun c hc => ?_, (candleOf tf m xs).to_dict, ?_, ?_, rfl⟩
      · rw [to_dict_bucket, closeCandle_bucket, candleOf_bucket]
        exact (h.closes_lt hm hc).ne
      · rw [to_dict_bucket, closeCandle_bucket, candleOf_bucket]
        exact h.last_update m hm
      · exact candleOf_closed tf m xs
    · intro c hc
      rw [to_dict_bucket, candleOf_bucket]
      rw [List.filterMap_append, List.mem_append] at hc
      rcases hc with hc | hc
      · exact ((h.closes_lt hm hc).trans hlt).ne
      · obtain rfl : c = (closeCandle (candleOf tf m xs)).to_dict := by
          simpa [Event.closes, eq_comm] using hc
        simpa using hlt.ne
  · rw [closedBuckets_snoc_of_lt hm hlt, ← h.closes_eq]
    simp [Event.closes]
  · simp only [List.filterMap_append, List.filterMap_cons, List.filterMap_nil, Event.flows,
      List.append_assoc, List.cons_append, List.nil_append]
    rw [List.pairwise_append]
    refine ⟨h.flows_sorted, ?_, ?_⟩
    · simpa using hlt.le
    · intro d hd e he
      have := h.flows_le d hd m hm
      rcases List.mem_cons.mp he with rfl | he
      · simpa using this
      · rw [List.mem_singleton.mp he]
        simpa using this.trans hlt.le
  · intro d hd m' hm'
    obtain rfl : bucketOf tf t = m' := by simpa [hnewest] using hm'
    simp only [List.filterMap_append, List.filterMap_cons, List.filterMap_nil, Event.flows,
      List.mem_append, List.mem_singleton] at hd
    rcases hd with (hd | rfl) | rfl
    · exact (h.flows_le d hd m hm).trans hlt.le
    · simpa using hlt.le
    · simp
  · exact last_of_newest Event.updates (fun _ => rfl) _ hnewest
  · exact last_of_newest Event.data (fun _ => rfl) _ hnewest
  · intro b hb
    rw [retainedBuckets_snoc_of_lt hm hlt] at hb
    have hne : b ≠ bucketOf tf t := by
      rcases List.mem_append.mp ((last_n.rtake_sublist n _).subset hb) with hb | hb
      · exact retained_ne_newest hm hlt hb
      · rw [List.mem_singleton.mp hb]
        exact hlt.ne
    rw [data_snoc_ne (by simpa [Event.data] using hne.symm), candleOf_snoc_ne hne.symm]
    rcases List.mem_append.mp ((last_n.rtake_sublist n _).subset hb) with hb | hb
    · have := lt_of_mem_retainedBuckets hm hb
      rw [data_snoc_ne (by simpa [Event.data] using this.ne'), h.closed_data b hb]
    · obtain rfl := List.mem_singleton.mp hb
      exact last_snoc_self Event.data rfl (by simp)

/-- The end of a tick that leaves the newest bucket: the update of its candle. -/
theorem Chart.update (h : Chart tf n xs log) {m : Int} (hm : (openedBuckets tf xs).getLast? = some m)
    (hle : bucketOf tf t ≤ m) (hnot : bucketOf tf t ∉ retainedBuckets tf n xs) :
    Chart tf n (xs ++ [t]) (log ++ [.candle_update (candleOf tf m (xs ++ [t])).to_dict]) := by
  have hnewest := getLast?_snoc_of_le hm hle
  refine ⟨?_, ?_, ?_, ?_, ?_, ?_, ?_⟩
  · apply causal_snoc h.causal
    intro c hc
    rw [to_dict_bucket, candleOf_bucket]
    exact (h.closes_lt hm hc).ne
  · rw [closedBuckets, openedBuckets_snoc_of_le hm hle, ← closedBuckets, ← h.closes_eq]
    simp [Event.closes]
  · rw [List.filterMap_append, List.pairwise_append]
    refine ⟨h.flows_sorted, by simp [Event.flows], ?_⟩
    intro d hd e he
    obtain rfl : e = (candleOf tf m (xs ++ [t])).to_dict := by simpa [Event.flows, eq_comm] using he
    simpa using h.flows_le d hd m hm
  · intro d hd m' hm'
    obtain rfl : m = m' := by simpa [hnewest] using hm'
    rw [List.filterMap_append, List.mem_append] at hd
    rcases hd with hd | hd
    · exact h.flows_le d hd m hm
    · obtain rfl : d = (candleOf tf m (xs ++ [t])).to_dict := by simpa [Event.flows, eq_comm] using hd
      simp
  · exact last_of_newest Event.updates (fun _ => rfl) _ hnewest
  · exact last_of_newest Event.data (fun _ => rfl) _ hnewest
  · intro b hb
    rw [retainedBuckets_snoc_of_le hm hle] at hb
    have := lt_of_mem_retainedBuckets hm hb
    rw [data_snoc_ne (by simpa [Event.data] using this.ne'), h.closed_data b hb,
      candleOf_snoc_ne (fun he => hnot (he ▸ hb))]

/-- A closed candle is revised, and the update of the newest candle follows. -/
theorem Chart.patched (h : Chart tf n xs log) {m : Int}
    (hm : (openedBuckets tf xs).getLast? = some m) (hlt : bucketOf tf t < m)
    (hmem : bucketOf tf t ∈ retainedBuckets tf n xs) :
    Chart tf n (xs ++ [t])
      (log ++ [.candle_patched (closeCandle (candleOf tf (bucketOf tf t) (xs ++ [t]))).to_dict] ++
        [.candle_update (candleOf tf m (xs ++ [t])).to_dict]) := by
  have hnewest := getLast?_snoc_of_le hm hlt.le
  refine ⟨?_, ?_, ?_, ?_, ?_, ?_, ?_⟩
  · apply causal_snoc
    · apply causal_snoc h.causal
      have hclosed := (retainedBuckets_sublist tf n xs).subset hmem
      rw [← h.closes_eq] at hclosed
      obtain ⟨c, hc, hcb⟩ := List.mem_map.mp hclosed
      exact ⟨c, hc, by simpa using hcb⟩
    · intro c hc
      rw [to_dict_bucket, candleOf_bucket]
      have hc : c ∈ log.filterMap Event.closes := by simpa [Event.closes] using hc
      exact (h.closes_lt hm hc).ne
  · rw [closedBuckets, openedBuckets_snoc_of_le hm hlt.le, ← closedBuckets, ← h.closes_eq]
    simp [Event.closes]
  · simp only [List.filterMap_append, List.filterMap_cons, List.filterMap_nil, Event.flows,
      List.append_nil]
    rw [List.pairwise_append]
    refine ⟨h.flows_sorted, by simp, ?_⟩
    intro d hd e he
    rw [List.mem_singleton.mp he]
    simpa using h.flows_le d hd m hm
  · intro d hd m' hm'
    obtain rfl : m = m' := by simpa [hnewest] using hm'
    simp only [List.filterMap_append, List.filterMap_cons, List.filterMap_nil, Event.flows,
      List.append_nil, List.mem_append, List.mem_singleton] at hd
    rcases hd with hd | rfl
    · exact h.flows_le d hd m hm
    · simp
  · exact last_of_newest Event.updates (fun _ => rfl) _ hnewest
  · exact last_of_newest Event.data (fun _ => rfl) _ hnewest
  · intro b hb
    rw [retainedBuckets_snoc_of_le hm hlt.le] at hb
    have := lt_of_mem_retainedBuckets hm hb
    rw [data_snoc_ne (by simpa [Event.data] using this.ne')]
    by_cases hbt : bucketOf tf t = b
    · rw [hbt]
      exact last_snoc_self Event.data rfl (by simp)
    · rw [data_snoc_ne (by simpa [Event.data] using hbt), h.closed_data b hb, candleOf_snoc_ne hbt]

end chart_step

/-- The events of a symbol and timeframe make a chart. -/
theorem chart_of_events (tf : Int) (n : Nat) (xs : List Tick) :
    Chart tf n xs (outputs (candleEvents tf n) [] xs) := by
  induction xs using List.reverseRecOn with
  | nil =>
    refine ⟨causal_nil _, rfl, by simp, by simp, ?_, ?_, ?_⟩
    · simp [openedBuckets]
    · simp [openedBuckets]
    · simp [retainedBuckets, closedBuckets, openedBuckets, List.rtake_nil]
  | append_singleton xs t ih =>
    rw [outputs_snoc, List.nil_append]
    cases tick_cases tf n xs t with
    | first hnil hclosed hpatched =>
      subst hnil
      have hevents : candleEvents tf n [] t =
          [.candle_update (candleOf tf (bucketOf tf t) [t]).to_dict] := by
        simp [candleEvents, hclosed, hpatched, openCandle, openedBuckets_singleton]
      rw [hevents]
      exact Chart.first
    | newer m hm hlt hclosed hpatched =>
      have hevents : candleEvents tf n xs t =
          [.candle_closed (closeCandle (candleOf tf m xs)).to_dict] ++
            [.candle_update (candleOf tf (bucketOf tf t) (xs ++ [t])).to_dict] := by
        simp [candleEvents, hclosed, hpatched, openCandle, getLast?_snoc_of_lt hm hlt]
      rw [hevents, ← List.append_assoc]
      exact ih.newer hm hlt
    | kept m hm hle hnot hclosed hpatched =>
      have hevents : candleEvents tf n xs t =
          [.candle_update (candleOf tf m (xs ++ [t])).to_dict] := by
        simp [candleEvents, hclosed, hpatched, openCandle, getLast?_snoc_of_le hm hle]
      rw [hevents]
      exact ih.update hm hle hnot
    | patched m hm hlt hmem hclosed hpatched =>
      have hevents : candleEvents tf n xs t =
          [.candle_patched (closeCandle (candleOf tf (bucketOf tf t) (xs ++ [t]))).to_dict] ++
            [.candle_update (candleOf tf m (xs ++ [t])).to_dict] := by
        simp [candleEvents, hclosed, hpatched, openCandle, getLast?_snoc_of_le hm hlt.le]
      rw [hevents, ← List.append_assoc]
      exact ih.patched hm hlt hmem

end tick_pipeline.pipeline
