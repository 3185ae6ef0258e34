-- The aggregator refines its closed form: after any ticks, the store of each
-- symbol is the function of the symbol's ticks that `Candles.lean` gives.
import TickPipeline.Candles

namespace tick_pipeline.candles

open models strict_maxima last_n

/-! ## The candle of a bucket -/

theorem bucketTicks_snoc (tf b : Int) (ticks : List Tick) (t : Tick) :
    bucketTicks tf b (ticks ++ [t]) =
      bucketTicks tf b ticks ++ (if bucketOf tf t = b then [t] else []) := by
  unfold bucketTicks
  rw [List.filter_append]
  by_cases h : bucketOf tf t = b <;> simp [h]

theorem candleOf_snoc_ne {tf b : Int} {ticks : List Tick} {t : Tick} (h : bucketOf tf t ≠ b) :
    candleOf tf b (ticks ++ [t]) = candleOf tf b ticks := by
  unfold candleOf
  rw [bucketTicks_snoc, if_neg h, List.append_nil]

theorem candleOf_snoc_new {tf b : Int} {ticks : List Tick} {t : Tick} (h : bucketOf tf t = b)
    (hnone : bucketTicks tf b ticks = []) :
    candleOf tf b (ticks ++ [t]) = new_candle tf t b := by
  unfold candleOf
  rw [bucketTicks_snoc, if_pos h, hnone]
  rfl

theorem candleOf_snoc_merge {tf b : Int} {ticks : List Tick} {t : Tick} (h : bucketOf tf t = b)
    (hsome : bucketTicks tf b ticks ≠ []) :
    candleOf tf b (ticks ++ [t]) = merge (candleOf tf b ticks) t := by
  unfold candleOf
  rw [bucketTicks_snoc, if_pos h]
  rcases hb : bucketTicks tf b ticks with _ | ⟨u, rest⟩
  · exact absurd hb hsome
  · simp

/-- A merge leaves the symbol, the timeframe, the bucket, the open and the flag. -/
theorem foldl_merge_fixed (ticks : List Tick) (c : Candle) :
    (ticks.foldl merge c).symbol = c.symbol ∧ (ticks.foldl merge c).timeframe_sec = c.timeframe_sec ∧
      (ticks.foldl merge c).bucket_start_ms = c.bucket_start_ms ∧
      (ticks.foldl merge c).open_ = c.open_ ∧ (ticks.foldl merge c).closed = c.closed := by
  induction ticks generalizing c with
  | nil => exact ⟨rfl, rfl, rfl, rfl, rfl⟩
  | cons t ticks ih => exact ih (merge c t)

@[simp] theorem candleOf_bucket (tf b : Int) (ticks : List Tick) :
    (candleOf tf b ticks).bucket_start_ms = b := by
  unfold candleOf
  split
  · rfl
  · exact (foldl_merge_fixed _ _).2.2.1

@[simp] theorem candleOf_timeframe (tf b : Int) (ticks : List Tick) :
    (candleOf tf b ticks).timeframe_sec = tf := by
  unfold candleOf
  split
  · rfl
  · exact (foldl_merge_fixed _ _).2.1

@[simp] theorem candleOf_closed (tf b : Int) (ticks : List Tick) :
    (candleOf tf b ticks).closed = false := by
  unfold candleOf
  split
  · rfl
  · exact (foldl_merge_fixed _ _).2.2.2.2

@[simp] theorem closeCandle_bucket (c : Candle) :
    (closeCandle c).bucket_start_ms = c.bucket_start_ms := rfl

theorem merge_closeCandle (c : Candle) (t : Tick) :
    merge (closeCandle c) t = closeCandle (merge c t) := rfl

/-! ## The buckets -/

theorem openedBuckets_sorted (tf : Int) (ticks : List Tick) :
    (openedBuckets tf ticks).Pairwise (· < ·) := strictMaxima_sorted _

theorem closedBuckets_sublist (tf : Int) (ticks : List Tick) :
    (closedBuckets tf ticks).Sublist (openedBuckets tf ticks) := List.dropLast_sublist _

theorem retainedBuckets_sublist (tf : Int) (n : Nat) (ticks : List Tick) :
    (retainedBuckets tf n ticks).Sublist (closedBuckets tf ticks) := rtake_sublist _ _

theorem retainedBuckets_sorted (tf : Int) (n : Nat) (ticks : List Tick) :
    (retainedBuckets tf n ticks).Pairwise (· < ·) :=
  (openedBuckets_sorted tf ticks).sublist
    ((retainedBuckets_sublist tf n ticks).trans (closedBuckets_sublist tf ticks))

/-- An opened bucket has a tick. -/
theorem bucketTicks_ne_nil {tf b : Int} {ticks : List Tick} (h : b ∈ openedBuckets tf ticks) :
    bucketTicks tf b ticks ≠ [] := by
  have hb := mem_of_mem_strictMaxima _ b h
  obtain ⟨t, ht, rfl⟩ := List.mem_map.mp hb
  exact List.ne_nil_of_mem (List.mem_filter.mpr ⟨ht, by simp⟩)

theorem openedBuckets_snoc (tf : Int) (ticks : List Tick) (t : Tick) :
    openedBuckets tf (ticks ++ [t]) = pushMax (openedBuckets tf ticks) (bucketOf tf t) := by
  unfold openedBuckets
  rw [List.map_append, List.map_singleton, strictMaxima_snoc]

theorem openedBuckets_eq_nil_iff {tf : Int} {ticks : List Tick} :
    openedBuckets tf ticks = [] ↔ ticks = [] := by
  rw [openedBuckets, strictMaxima_eq_nil_iff, List.map_eq_nil_iff]

/-- A bucket above the newest has no tick yet. -/
theorem bucketTicks_eq_nil_of_lt {tf m b : Int} {ticks : List Tick}
    (hm : (openedBuckets tf ticks).getLast? = some m) (h : m < b) : bucketTicks tf b ticks = [] := by
  rw [bucketTicks, List.filter_eq_nil_iff]
  intro t ht htb
  have := le_getLast?_strictMaxima hm (bucketOf tf t) (List.mem_map_of_mem ht)
  simp only [decide_eq_true_eq] at htb
  omega

theorem lt_of_mem_closedBuckets {tf m b : Int} {ticks : List Tick}
    (hm : (openedBuckets tf ticks).getLast? = some m) (hb : b ∈ closedBuckets tf ticks) : b < m :=
  lt_of_mem_dropLast (openedBuckets_sorted tf ticks) hm hb

/-- The step of the closed buckets: a newer bucket closes the newest one. -/
theorem closedBuckets_snoc_of_lt {tf m : Int} {ticks : List Tick} {t : Tick}
    (hm : (openedBuckets tf ticks).getLast? = some m) (h : m < bucketOf tf t) :
    closedBuckets tf (ticks ++ [t]) = closedBuckets tf ticks ++ [m] := by
  unfold closedBuckets
  rw [openedBuckets_snoc, pushMax_of_lt hm h, List.dropLast_concat, List.dropLast_append_getLast? m hm]

theorem openedBuckets_snoc_of_le {tf m : Int} {ticks : List Tick} {t : Tick}
    (hm : (openedBuckets tf ticks).getLast? = some m) (h : bucketOf tf t ≤ m) :
    openedBuckets tf (ticks ++ [t]) = openedBuckets tf ticks := by
  rw [openedBuckets_snoc, pushMax_of_le hm h]

theorem retainedBuckets_snoc_of_lt {tf m : Int} {n : Nat} {ticks : List Tick} {t : Tick}
    (hm : (openedBuckets tf ticks).getLast? = some m) (h : m < bucketOf tf t) :
    retainedBuckets tf n (ticks ++ [t]) = (retainedBuckets tf n ticks ++ [m]).rtake n := by
  unfold retainedBuckets
  rw [closedBuckets_snoc_of_lt hm h, rtake_rtake_concat]

theorem retainedBuckets_snoc_of_le {tf m : Int} {n : Nat} {ticks : List Tick} {t : Tick}
    (hm : (openedBuckets tf ticks).getLast? = some m) (h : bucketOf tf t ≤ m) :
    retainedBuckets tf n (ticks ++ [t]) = retainedBuckets tf n ticks := by
  unfold retainedBuckets closedBuckets
  rw [openedBuckets_snoc_of_le hm h]

theorem lt_of_mem_retainedBuckets {tf m b : Int} {n : Nat} {ticks : List Tick}
    (hm : (openedBuckets tf ticks).getLast? = some m) (hb : b ∈ retainedBuckets tf n ticks) :
    b < m :=
  lt_of_mem_closedBuckets hm ((retainedBuckets_sublist tf n ticks).subset hb)

/-! ## The scan -/

/-- On candles of distinct buckets, the scan merges the tick into the one candle of its
bucket. -/
theorem patch_scan.spec (b : Int) (t : Tick) (f : Int → Candle) (bs : List Int)
    (hf : ∀ x, (f x).bucket_start_ms = x) (hnodup : bs.Nodup) :
    patch_scan b t (bs.map f) =
      if b ∈ bs then some (merge (f b) t, bs.map (fun x => if x = b then merge (f x) t else f x))
      else none := by
  induction bs with
  | nil => rfl
  | cons x bs ih =>
    obtain ⟨hx, hbs⟩ := List.nodup_cons.mp hnodup
    simp only [List.map_cons, patch_scan, hf]
    by_cases hxb : x = b
    · subst hxb
      have hsame : bs.map (fun y => if y = x then merge (f y) t else f y) = bs.map f := by
        apply List.map_congr_left
        intro y hy
        rw [if_neg (fun h : y = x => hx (h ▸ hy))]
      simp [hsame]
    · rw [if_neg hxb, ih hbs]
      have hmem : b ∈ x :: bs ↔ b ∈ bs := by
        rw [List.mem_cons]
        exact ⟨fun h => h.resolve_left (Ne.symm hxb), Or.inr⟩
      by_cases hb : b ∈ bs
      · rw [if_pos hb, if_pos (hmem.mpr hb)]
        simp [hxb]
      · rw [if_neg hb, if_neg (fun h => hb (hmem.mp h))]
        rfl

/-! ## The refinement -/

/-- The aggregator holds, for a symbol, the store of the given ticks. -/
structure Stores (agg : CandleAggregator) (symbol : Symbol) (ticks : List Tick) : Prop where
  open_eq : agg.current symbol = openCandle agg.timeframe_sec ticks
  history_eq : agg.history symbol = closedCandles agg.timeframe_sec agg.history_len ticks

theorem stores_new (tf : Int) (n : Nat) (symbol : Symbol) :
    Stores (CandleAggregator.new tf n) symbol [] :=
  ⟨rfl, by simp [CandleAggregator.new, CandleAggregator.history, closedCandles, retainedBuckets,
    closedBuckets, openedBuckets, List.rtake_nil]⟩

theorem apply_settings (agg : CandleAggregator) (t : Tick) :
    (agg.apply t).2.timeframe_sec = agg.timeframe_sec ∧
      (agg.apply t).2.history_len = agg.history_len := by
  unfold CandleAggregator.apply
  dsimp only
  split
  · exact ⟨rfl, rfl⟩
  · split_ifs
    · exact ⟨rfl, rfl⟩
    · exact ⟨rfl, rfl⟩
    · split <;> exact ⟨rfl, rfl⟩

/-- A tick changes the store of its own symbol only. -/
theorem apply_other (agg : CandleAggregator) (t : Tick) (symbol : Symbol) (h : symbol ≠ t.symbol) :
    (agg.apply t).2.current symbol = agg.current symbol ∧
      (agg.apply t).2.history symbol = agg.history symbol := by
  unfold CandleAggregator.apply CandleAggregator.current CandleAggregator.history
  dsimp only
  split
  · simp [h]
  · split_ifs
    · simp [h]
    · simp [h]
    · split <;> simp [h]

/-! One tick on the closed form: the first tick, a tick of the open bucket, a tick of a newer
bucket, and a late tick. -/

theorem openedBuckets_singleton (tf : Int) (t : Tick) : openedBuckets tf [t] = [bucketOf tf t] := rfl

theorem openCandle_first (tf : Int) (t : Tick) :
    openCandle tf [t] = some (new_candle tf t (bucketOf tf t)) := by
  have : candleOf tf (bucketOf tf t) ([] ++ [t]) = new_candle tf t (bucketOf tf t) :=
    candleOf_snoc_new rfl rfl
  rw [List.nil_append] at this
  simp [openCandle, openedBuckets_singleton, this]

theorem openCandle_merge {tf m : Int} {ticks : List Tick} {t : Tick}
    (hm : (openedBuckets tf ticks).getLast? = some m) (h : bucketOf tf t = m) :
    openCandle tf (ticks ++ [t]) = some (merge (candleOf tf m ticks) t) := by
  have hne := bucketTicks_ne_nil (List.mem_of_getLast? hm)
  unfold openCandle
  rw [openedBuckets_snoc_of_le hm h.le, hm, Option.map_some, candleOf_snoc_merge h hne]

theorem openCandle_newer {tf m : Int} {ticks : List Tick} {t : Tick}
    (hm : (openedBuckets tf ticks).getLast? = some m) (h : m < bucketOf tf t) :
    openCandle tf (ticks ++ [t]) = some (new_candle tf t (bucketOf tf t)) := by
  unfold openCandle
  rw [openedBuckets_snoc, pushMax_of_lt hm h, List.getLast?_concat, Option.map_some,
    candleOf_snoc_new rfl (bucketTicks_eq_nil_of_lt hm h)]

theorem openCandle_late {tf m : Int} {ticks : List Tick} {t : Tick}
    (hm : (openedBuckets tf ticks).getLast? = some m) (h : bucketOf tf t < m) :
    openCandle tf (ticks ++ [t]) = openCandle tf ticks := by
  unfold openCandle
  rw [openedBuckets_snoc_of_le hm h.le, hm, Option.map_some, Option.map_some,
    candleOf_snoc_ne h.ne]

/-- Every retained candle but that of the tick's own bucket stays as it is. -/
theorem closeCandle_candleOf_snoc {tf : Int} {ticks : List Tick} {t : Tick} {bs : List Int}
    (h : bucketOf tf t ∉ bs) :
    bs.map (fun b => closeCandle (candleOf tf b (ticks ++ [t]))) =
      bs.map (fun b => closeCandle (candleOf tf b ticks)) := by
  apply List.map_congr_left
  intro b hb
  rw [candleOf_snoc_ne (fun he => h (he ▸ hb))]

theorem closedCandles_newer {tf m : Int} {n : Nat} {ticks : List Tick} {t : Tick}
    (hm : (openedBuckets tf ticks).getLast? = some m) (h : m < bucketOf tf t) :
    closedCandles tf n (ticks ++ [t]) =
      (closedCandles tf n ticks ++ [closeCandle (candleOf tf m ticks)]).rtake n := by
  have hnot : bucketOf tf t ∉ (retainedBuckets tf n ticks ++ [m]).rtake n := by
    intro hb
    rcases List.mem_append.mp ((rtake_sublist n _).subset hb) with hb | hb
    · exact absurd (lt_of_mem_retainedBuckets hm hb) (by omega)
    · exact h.ne' (List.mem_singleton.mp hb)
  unfold closedCandles
  rw [retainedBuckets_snoc_of_lt hm h, closeCandle_candleOf_snoc hnot, ← rtake_map]
  simp

theorem closedCandles_kept {tf m : Int} {n : Nat} {ticks : List Tick} {t : Tick}
    (hm : (openedBuckets tf ticks).getLast? = some m) (h : bucketOf tf t ≤ m)
    (hnot : bucketOf tf t ∉ retainedBuckets tf n ticks) :
    closedCandles tf n (ticks ++ [t]) = closedCandles tf n ticks := by
  unfold closedCandles
  rw [retainedBuckets_snoc_of_le hm h, closeCandle_candleOf_snoc hnot]

theorem closedCandles_patched {tf m : Int} {n : Nat} {ticks : List Tick} {t : Tick}
    (hm : (openedBuckets tf ticks).getLast? = some m)
    (hmem : bucketOf tf t ∈ retainedBuckets tf n ticks) :
    closedCandles tf n (ticks ++ [t]) =
      (retainedBuckets tf n ticks).map (fun b =>
        if b = bucketOf tf t then merge (closeCandle (candleOf tf b ticks)) t
        else closeCandle (candleOf tf b ticks)) := by
  unfold closedCandles
  rw [retainedBuckets_snoc_of_le hm (lt_of_mem_retainedBuckets hm hmem).le]
  apply List.map_congr_left
  intro b hb
  have hopened := ((retainedBuckets_sublist tf n ticks).trans
    (closedBuckets_sublist tf ticks)).subset hb
  by_cases hbt : b = bucketOf tf t
  · rw [if_pos hbt, candleOf_snoc_merge hbt.symm (bucketTicks_ne_nil hopened), merge_closeCandle]
  · rw [if_neg hbt, candleOf_snoc_ne (Ne.symm hbt)]

/-- One tick on the aggregator is one tick on the closed form, for the tick's symbol. -/
structure Applies (agg : CandleAggregator) (ticks : List Tick) (t : Tick) : Prop where
  closed_eq : (agg.apply t).1 = closedBy agg.timeframe_sec ticks t
  patched_eq : (agg.apply t).2.last_patch = patchedBy agg.timeframe_sec agg.history_len ticks t
  open_eq : (agg.apply t).2.current t.symbol = openCandle agg.timeframe_sec (ticks ++ [t])
  history_eq : (agg.apply t).2.history t.symbol =
    closedCandles agg.timeframe_sec agg.history_len (ticks ++ [t])

theorem closedCandles_few {tf : Int} {n : Nat} {ticks : List Tick}
    (h : (openedBuckets tf ticks).length ≤ 1) : closedCandles tf n ticks = [] := by
  have hclosed : closedBuckets tf ticks = [] := by
    rw [← List.length_eq_zero_iff, closedBuckets, List.length_dropLast]
    omega
  simp [closedCandles, retainedBuckets, hclosed, List.rtake_nil]

section apply

variable {agg : CandleAggregator} {ticks : List Tick} {t : Tick} {m : Int}

theorem open_candle_eq (h : Stores agg t.symbol ticks)
    (hm : (openedBuckets agg.timeframe_sec ticks).getLast? = some m) :
    agg.open_ t.symbol = some (candleOf agg.timeframe_sec m ticks) := by
  have hopen := h.open_eq
  rwa [CandleAggregator.current, openCandle, hm, Option.map_some] at hopen

/-- A bucket that is no longer open, or not yet, is not in the history. -/
theorem not_mem_retainedBuckets_of_le {tf : Int} {n : Nat}
    (hm : (openedBuckets tf ticks).getLast? = some m) (h : m ≤ bucketOf tf t) :
    bucketOf tf t ∉ retainedBuckets tf n ticks := by
  intro hmem
  have := lt_of_mem_retainedBuckets hm hmem
  omega

/-- The first tick of the symbol. -/
theorem apply_first (h : Stores agg t.symbol []) : Applies agg [] t := by
  have hnone : agg.open_ t.symbol = none := h.open_eq
  have hhist : agg.history t.symbol = [] := h.history_eq.trans (closedCandles_few (by simp [openedBuckets]))
  have happly : agg.apply t = (none,
      { agg with
        last_patch := none
        open_ := Function.update agg.open_ t.symbol
          (some (new_candle agg.timeframe_sec t (bucketOf agg.timeframe_sec t))) }) := by
    unfold CandleAggregator.apply
    simp only [hnone]
    rfl
  refine ⟨?_, ?_, ?_, ?_⟩
  · rw [happly]
    rfl
  · rw [happly]
    simp [patchedBy, retainedBuckets, closedBuckets, openedBuckets, List.rtake_nil]
  · rw [happly]
    simp [CandleAggregator.current, openCandle_first]
  · rw [happly, List.nil_append, closedCandles_few (by simp [openedBuckets_singleton])]
    exact hhist

/-- A tick of the open bucket. -/
theorem apply_merge (h : Stores agg t.symbol ticks)
    (hm : (openedBuckets agg.timeframe_sec ticks).getLast? = some m)
    (heq : bucketOf agg.timeframe_sec t = m) : Applies agg ticks t := by
  have hnot := not_mem_retainedBuckets_of_le (n := agg.history_len) hm heq.ge
  have happly : agg.apply t = (none,
      { agg with
        last_patch := none
        open_ := Function.update agg.open_ t.symbol
          (some (merge (candleOf agg.timeframe_sec m ticks) t)) }) := by
    unfold CandleAggregator.apply
    simp only [open_candle_eq h hm, candleOf_bucket]
    exact if_pos heq
  refine ⟨?_, ?_, ?_, ?_⟩
  · rw [happly]
    simp [closedBy, hm, heq]
  · rw [happly, patchedBy, if_neg hnot]
  · rw [happly]
    simp [CandleAggregator.current, openCandle_merge hm heq]
  · rw [happly, closedCandles_kept hm heq.le hnot, ← h.history_eq]
    rfl

/-- A tick of a newer bucket, which closes the open candle. -/
theorem apply_newer (h : Stores agg t.symbol ticks)
    (hm : (openedBuckets agg.timeframe_sec ticks).getLast? = some m)
    (hgt : m < bucketOf agg.timeframe_sec t) : Applies agg ticks t := by
  have hnot := not_mem_retainedBuckets_of_le (n := agg.history_len) hm hgt.le
  have happly : agg.apply t = (some (closeCandle (candleOf agg.timeframe_sec m ticks)),
      { agg with
        last_patch := none
        history_ := Function.update agg.history_ t.symbol
          (some (push_history agg.history_len (agg.history t.symbol)
            (closeCandle (candleOf agg.timeframe_sec m ticks))))
        open_ := Function.update agg.open_ t.symbol
          (some (new_candle agg.timeframe_sec t (bucketOf agg.timeframe_sec t))) }) := by
    have hbucket := candleOf_bucket agg.timeframe_sec m ticks
    unfold CandleAggregator.apply
    simp only [open_candle_eq h hm]
    exact (if_neg (hbucket.symm ▸ hgt.ne')).trans (if_pos (hbucket.symm ▸ hgt))
  refine ⟨?_, ?_, ?_, ?_⟩
  · rw [happly]
    simp [closedBy, hm, hgt]
  · rw [happly, patchedBy, if_neg hnot]
  · rw [happly]
    simp [CandleAggregator.current, openCandle_newer hm hgt]
  · rw [happly, closedCandles_newer hm hgt, ← h.history_eq]
    simp [CandleAggregator.history, push_history]

/-- The scan of the history for the bucket of a late tick. -/
theorem patch_scan_history (h : Stores agg t.symbol ticks) :
    patch_scan (bucketOf agg.timeframe_sec t) t (agg.history t.symbol) =
      if bucketOf agg.timeframe_sec t ∈ retainedBuckets agg.timeframe_sec agg.history_len ticks then
        some (merge (closeCandle (candleOf agg.timeframe_sec (bucketOf agg.timeframe_sec t) ticks)) t,
          (retainedBuckets agg.timeframe_sec agg.history_len ticks).map (fun b =>
            if b = bucketOf agg.timeframe_sec t then
              merge (closeCandle (candleOf agg.timeframe_sec b ticks)) t
            else closeCandle (candleOf agg.timeframe_sec b ticks)))
      else none := by
  have hnodup := (retainedBuckets_sorted agg.timeframe_sec agg.history_len ticks).imp
    (fun {a b} (hab : a < b) => hab.ne)
  rw [h.history_eq]
  exact patch_scan.spec (bucketOf agg.timeframe_sec t) t
    (fun b => closeCandle (candleOf agg.timeframe_sec b ticks)) _ (fun _ => by simp) hnodup

theorem apply_late_eq (h : Stores agg t.symbol ticks)
    (hm : (openedBuckets agg.timeframe_sec ticks).getLast? = some m)
    (hlt : bucketOf agg.timeframe_sec t < m) :
    agg.apply t =
      match patch_scan (bucketOf agg.timeframe_sec t) t (agg.history t.symbol) with
      | none => (none, { agg with last_patch := none, late_patches := agg.late_patches + 1 })
      | some (candle, history) =>
        (none,
          { agg with
            late_patches := agg.late_patches + 1
            history_ := Function.update agg.history_ t.symbol (some history)
            last_patch := some candle }) := by
  unfold CandleAggregator.apply
  simp only [open_candle_eq h hm, candleOf_bucket]
  exact (if_neg hlt.ne).trans (if_neg hlt.not_gt)

/-- A late tick. -/
theorem apply_late (h : Stores agg t.symbol ticks)
    (hm : (openedBuckets agg.timeframe_sec ticks).getLast? = some m)
    (hlt : bucketOf agg.timeframe_sec t < m) : Applies agg ticks t := by
  have hlate := (openCandle_late hm hlt).trans h.open_eq.symm
  have hclosed : closedBy agg.timeframe_sec ticks t = none := by
    simp [closedBy, hm, hlt.le]
  have happly := apply_late_eq h hm hlt
  rw [patch_scan_history h] at happly
  by_cases hmem : bucketOf agg.timeframe_sec t ∈
      retainedBuckets agg.timeframe_sec agg.history_len ticks
  · rw [if_pos hmem] at happly
    have hticks := bucketTicks_ne_nil (((retainedBuckets_sublist _ _ ticks).trans
      (closedBuckets_sublist _ ticks)).subset hmem)
    refine ⟨?_, ?_, ?_, ?_⟩
    · rw [happly, hclosed]
    · rw [happly, patchedBy, if_pos hmem, candleOf_snoc_merge rfl hticks]
      rfl
    · rw [happly, hlate]
      rfl
    · rw [happly]
      simp [CandleAggregator.history, closedCandles_patched hm hmem]
  · rw [if_neg hmem] at happly
    refine ⟨?_, ?_, ?_, ?_⟩
    · rw [happly, hclosed]
    · rw [happly, patchedBy, if_neg hmem]
    · rw [happly, hlate]
      rfl
    · rw [happly, closedCandles_kept hm hlt.le hmem, ← h.history_eq]
      rfl

theorem apply_applies (h : Stores agg t.symbol ticks) : Applies agg ticks t := by
  rcases hm : (openedBuckets agg.timeframe_sec ticks).getLast? with _ | m
  · have hnil : ticks = [] := openedBuckets_eq_nil_iff.mp (List.getLast?_eq_none_iff.mp hm)
    subst hnil
    exact apply_first h
  · rcases lt_trichotomy (bucketOf agg.timeframe_sec t) m with hlt | heq | hgt
    · exact apply_late h hm hlt
    · exact apply_merge h hm heq
    · exact apply_newer h hm hgt

end apply

theorem apply.spec (agg : CandleAggregator) (t : Tick) (ticks : List Tick)
    (h : Stores agg t.symbol ticks) :
    (agg.apply t).1 = closedBy agg.timeframe_sec ticks t ∧
      (agg.apply t).2.last_patch = patchedBy agg.timeframe_sec agg.history_len ticks t ∧
      Stores (agg.apply t).2 t.symbol (ticks ++ [t]) := by
  obtain ⟨hclosed, hpatched, hopen, hhist⟩ := apply_applies h
  obtain ⟨htf, hn⟩ := apply_settings agg t
  exact ⟨hclosed, hpatched, by rw [hopen, htf], by rw [hhist, htf, hn]⟩

/-- The ticks of a symbol. -/
def own (symbol : Symbol) (ticks : List Tick) : List Tick :=
  ticks.filter (fun t => t.symbol = symbol)

theorem own_snoc (symbol : Symbol) (ticks : List Tick) (t : Tick) :
    own symbol (ticks ++ [t]) = own symbol ticks ++ (if t.symbol = symbol then [t] else []) := by
  unfold own
  rw [List.filter_append]
  by_cases h : t.symbol = symbol <;> simp [h]

theorem own_append (symbol : Symbol) (xs ys : List Tick) :
    own symbol (xs ++ ys) = own symbol xs ++ own symbol ys := List.filter_append ..

theorem own_symbol (symbol : Symbol) (ticks : List Tick) :
    ∀ t ∈ own symbol ticks, t.symbol = symbol := by
  intro t ht
  simpa using (List.mem_filter.mp ht).2

theorem own_eq_self {symbol : Symbol} {ticks : List Tick} (h : ∀ t ∈ ticks, t.symbol = symbol) :
    own symbol ticks = ticks := by
  unfold own
  rw [List.filter_eq_self]
  intro t ht
  exact decide_eq_true (h t ht)

/-- A tick keeps the refinement, for every symbol. -/
theorem Stores.apply {agg : CandleAggregator} {symbol : Symbol} {ticks : List Tick} (t : Tick)
    (h : Stores agg symbol (own symbol ticks)) :
    Stores (agg.apply t).2 symbol (own symbol (ticks ++ [t])) := by
  rw [own_snoc]
  by_cases hs : t.symbol = symbol
  · subst hs
    rw [if_pos rfl]
    exact (apply.spec agg t _ h).2.2
  · obtain ⟨h1, h2⟩ := apply_other agg t symbol (Ne.symm hs)
    obtain ⟨h3, h4⟩ := apply_settings agg t
    rw [if_neg hs, List.append_nil]
    exact ⟨by rw [h1, h3, h.open_eq], by rw [h2, h3, h4, h.history_eq]⟩

end tick_pipeline.candles
