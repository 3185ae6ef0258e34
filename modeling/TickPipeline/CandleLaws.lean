-- The laws of the candle store, for any order of arrival: which buckets it
-- holds, and that each candle it holds sums up every tick of its bucket.
import TickPipeline.CandleStore
import TickPipeline.Lib.Runs
import Mathlib.Data.List.ReduceOption

namespace tick_pipeline.candles

open models runs strict_maxima last_n

/-! ## Buckets as intervals of event time -/

theorem bucket_start_eq (tf time : Int) (htf : 1 ≤ tf) :
    bucket_start tf time = time / (tf * 1000) * (tf * 1000) := by
  unfold bucket_start
  dsimp only
  rw [Int.fdiv_eq_ediv_of_nonneg _ (by omega)]

theorem bucketOf_le (tf : Int) (t : Tick) (htf : 1 ≤ tf) : bucketOf tf t ≤ t.event_time_ms := by
  rw [bucketOf, bucket_start_eq tf _ htf]
  exact Int.ediv_mul_le _ (by omega)

theorem lt_bucketOf_add (tf : Int) (t : Tick) (htf : 1 ≤ tf) :
    t.event_time_ms < bucketOf tf t + tf * 1000 := by
  rw [bucketOf, bucket_start_eq tf _ htf]
  have := Int.lt_ediv_add_one_mul_self t.event_time_ms (show 0 < tf * 1000 by omega)
  rwa [Int.add_mul, Int.one_mul] at this

/-- The event time falls in the bucket: the bucket is an interval of `tf` seconds. -/
def InBucket (tf bucket : Int) (t : Tick) : Prop :=
  bucket ≤ t.event_time_ms ∧ t.event_time_ms < bucket + tf * 1000

instance (tf bucket : Int) (t : Tick) : Decidable (InBucket tf bucket t) := by
  unfold InBucket; infer_instance

/-- A tick is of the bucket of another tick exactly when its time falls in it. -/
theorem bucketOf_eq_iff (tf : Int) (t u : Tick) (htf : 1 ≤ tf) :
    bucketOf tf t = bucketOf tf u ↔ InBucket tf (bucketOf tf u) t := by
  constructor
  · intro h
    exact ⟨h ▸ bucketOf_le tf t htf, h ▸ lt_bucketOf_add tf t htf⟩
  · rintro ⟨h1, h2⟩
    have hpos : 0 < tf * 1000 := by omega
    rw [bucketOf, bucketOf, bucket_start_eq tf _ htf, bucket_start_eq tf _ htf] at *
    congr 1
    apply le_antisymm
    · have : t.event_time_ms / (tf * 1000) < u.event_time_ms / (tf * 1000) + 1 := by
        rw [Int.ediv_lt_iff_lt_mul hpos, Int.add_mul, Int.one_mul]
        exact h2
      omega
    · exact (Int.le_ediv_iff_mul_le hpos).mpr h1

/-! ## What a candle says of its ticks -/

/-- The figures sum up the ticks: the largest and the smallest price, the quantity in all,
and how many there are. -/
structure SumsUp (high low volume : ℚ) (trade_count : Nat) (ticks : List Tick) : Prop where
  high_mem : ∃ t ∈ ticks, t.price = high
  le_high : ∀ t ∈ ticks, t.price ≤ high
  low_mem : ∃ t ∈ ticks, t.price = low
  low_le : ∀ t ∈ ticks, low ≤ t.price
  volume_eq : volume = (ticks.map (·.quantity)).sum
  trade_count_eq : trade_count = ticks.length

theorem sumsUp_new (tf b : Int) (t : Tick) :
    SumsUp (new_candle tf t b).high (new_candle tf t b).low (new_candle tf t b).volume
      (new_candle tf t b).trade_count [t] := by
  constructor <;> simp [new_candle]

theorem sumsUp_merge {c : Candle} {ticks : List Tick} (t : Tick)
    (h : SumsUp c.high c.low c.volume c.trade_count ticks) :
    SumsUp (merge c t).high (merge c t).low (merge c t).volume (merge c t).trade_count
      (ticks ++ [t]) := by
  obtain ⟨⟨u, hu, hhigh⟩, hle, ⟨v, hv, hlow⟩, hge, hvol, hcount⟩ := h
  refine ⟨?_, ?_, ?_, ?_, ?_, ?_⟩
  · rcases max_choice c.high t.price with hmax | hmax
    · exact ⟨u, by simp [hu], by rw [hhigh, merge, hmax]⟩
    · exact ⟨t, by simp, hmax.symm⟩
  · intro w hw
    rcases List.mem_append.mp hw with hw | hw
    · exact (hle w hw).trans (le_max_left _ _)
    · rw [List.mem_singleton.mp hw]
      exact le_max_right _ _
  · rcases min_choice c.low t.price with hmin | hmin
    · exact ⟨v, by simp [hv], by rw [hlow, merge, hmin]⟩
    · exact ⟨t, by simp, hmin.symm⟩
  · intro w hw
    rcases List.mem_append.mp hw with hw | hw
    · exact (min_le_left _ _).trans (hge w hw)
    · rw [List.mem_singleton.mp hw]
      exact min_le_right _ _
  · simp [merge, hvol]
  · simp [merge, hcount]

/-- The candle of a bucket sums up the ticks of the bucket. -/
theorem candleOf_sumsUp {tf b : Int} {ticks : List Tick} (hne : bucketTicks tf b ticks ≠ []) :
    SumsUp (candleOf tf b ticks).high (candleOf tf b ticks).low (candleOf tf b ticks).volume
      (candleOf tf b ticks).trade_count (bucketTicks tf b ticks) := by
  induction ticks using List.reverseRecOn with
  | nil => exact absurd rfl hne
  | append_singleton ticks t ih =>
    rw [bucketTicks_snoc] at hne ⊢
    by_cases hb : bucketOf tf t = b
    · rw [if_pos hb] at hne ⊢
      by_cases hnil : bucketTicks tf b ticks = []
      · rw [candleOf_snoc_new hb hnil, hnil]
        exact sumsUp_new tf b t
      · rw [candleOf_snoc_merge hb hnil]
        exact sumsUp_merge t (ih hnil)
    · rw [if_neg hb, List.append_nil] at hne ⊢
      rw [candleOf_snoc_ne hb]
      exact ih hne

theorem candleOf_symbol {tf b : Int} {symbol : Symbol} {ticks : List Tick}
    (hne : bucketTicks tf b ticks ≠ []) (hs : ∀ t ∈ ticks, t.symbol = symbol) :
    (candleOf tf b ticks).symbol = symbol := by
  unfold candleOf
  rcases hb : bucketTicks tf b ticks with _ | ⟨t, rest⟩
  · exact absurd hb hne
  · have ht : t ∈ bucketTicks tf b ticks := by simp [hb]
    rw [(foldl_merge_fixed rest _).1]
    exact hs t (List.mem_filter.mp ht).1

/-- The candles of the closed form: closed ones in the history, the open one on top, each of
an opened bucket. -/
theorem mem_candles {tf : Int} {n : Nat} {ticks : List Tick} {c : Candle}
    (hc : c ∈ closedCandles tf n ticks ++ (openCandle tf ticks).toList) :
    ∃ b ∈ openedBuckets tf ticks, c = candleOf tf b ticks ∨ c = closeCandle (candleOf tf b ticks) := by
  rcases List.mem_append.mp hc with hc | hc
  · obtain ⟨b, hb, rfl⟩ := List.mem_map.mp hc
    exact ⟨b, ((retainedBuckets_sublist tf n ticks).trans (closedBuckets_sublist tf ticks)).subset hb,
      Or.inr rfl⟩
  · rw [Option.mem_toList, openCandle, Option.map_eq_some_iff] at hc
    obtain ⟨b, hb, rfl⟩ := hc
    exact ⟨b, List.mem_of_getLast? hb, Or.inl rfl⟩

theorem candles_sumUp {tf : Int} {n : Nat} {ticks : List Tick} {c : Candle}
    (hc : c ∈ closedCandles tf n ticks ++ (openCandle tf ticks).toList) :
    SumsUp c.high c.low c.volume c.trade_count (bucketTicks tf c.bucket_start_ms ticks) := by
  obtain ⟨b, hb, rfl | rfl⟩ := mem_candles hc
  · rw [candleOf_bucket]
    exact candleOf_sumsUp (bucketTicks_ne_nil hb)
  · rw [closeCandle_bucket, candleOf_bucket]
    exact candleOf_sumsUp (bucketTicks_ne_nil hb)

theorem foldl_merge_close (ticks : List Tick) (c : Candle) :
    (ticks.foldl merge c).close = (ticks.getLast?.map (·.price)).getD c.close := by
  induction ticks using List.reverseRecOn with
  | nil => rfl
  | append_singleton ticks t ih =>
    rw [List.foldl_append, List.getLast?_concat]
    rfl

/-- The candle of a bucket opens at its first tick and closes at its last. -/
theorem candleOf_open_close {tf b : Int} {ticks : List Tick} (hne : bucketTicks tf b ticks ≠ []) :
    (bucketTicks tf b ticks).head?.map (·.price) = some (candleOf tf b ticks).open_ ∧
      (bucketTicks tf b ticks).getLast?.map (·.price) = some (candleOf tf b ticks).close := by
  unfold candleOf
  rcases hb : bucketTicks tf b ticks with _ | ⟨t, rest⟩
  · exact absurd hb hne
  · refine ⟨?_, ?_⟩
    · rw [(foldl_merge_fixed rest _).2.2.2.1]
      rfl
    · rw [foldl_merge_close, List.getLast?_cons]
      cases rest.getLast? with
      | none => rfl
      | some u => rfl

theorem candles_open_close {tf : Int} {n : Nat} {ticks : List Tick} {c : Candle}
    (hc : c ∈ closedCandles tf n ticks ++ (openCandle tf ticks).toList) :
    (bucketTicks tf c.bucket_start_ms ticks).head?.map (·.price) = some c.open_ ∧
      (bucketTicks tf c.bucket_start_ms ticks).getLast?.map (·.price) = some c.close := by
  obtain ⟨b, hb, rfl | rfl⟩ := mem_candles hc
  · rw [candleOf_bucket]
    exact candleOf_open_close (bucketTicks_ne_nil hb)
  · rw [closeCandle_bucket, candleOf_bucket]
    exact candleOf_open_close (bucketTicks_ne_nil hb)

/-- The candles in memory: the history, and the open candle on top. -/
def memory (tf : Int) (n : Nat) (ticks : List Tick) : List Candle :=
  closedCandles tf n ticks ++ (openCandle tf ticks).toList

/-- They are of the newest buckets that were opened. -/
theorem memory_buckets (tf : Int) (n : Nat) (ticks : List Tick) :
    (memory tf n ticks).map (·.bucket_start_ms) = (openedBuckets tf ticks).rtake (n + 1) := by
  unfold memory closedCandles openCandle retainedBuckets closedBuckets
  rw [List.map_append, List.map_map]
  rcases hm : (openedBuckets tf ticks).getLast? with _ | m
  · simp [List.getLast?_eq_none_iff.mp hm]
  · conv_rhs => rw [← List.dropLast_append_getLast? m hm, List.rtake_concat_succ]
    simp [Function.comp_def]

/-- A history that let no candle go. -/
theorem memory_of_few {tf : Int} {n : Nat} {ticks : List Tick}
    (h : (closedBuckets tf ticks).length ≤ n) :
    (memory tf n ticks).map (·.bucket_start_ms) = openedBuckets tf ticks := by
  have hlen : (openedBuckets tf ticks).length ≤ n + 1 := by
    rw [closedBuckets, List.length_dropLast] at h
    omega
  rw [memory_buckets, rtake_of_length_le hlen]

/-- The bucket of a candle is an interval of event time. -/
theorem bucketOf_eq_iff_of_candle {tf : Int} (htf : 1 ≤ tf) {n : Nat} {ticks : List Tick} {c : Candle}
    (hc : c ∈ closedCandles tf n ticks ++ (openCandle tf ticks).toList) (t : Tick) :
    bucketOf tf t = c.bucket_start_ms ↔ InBucket tf c.bucket_start_ms t := by
  obtain ⟨b, hb, hcb⟩ := mem_candles hc
  have hbucket : c.bucket_start_ms = b := by
    rcases hcb with rfl | rfl <;> simp
  obtain ⟨u, _, hu⟩ := List.mem_map.mp (mem_of_mem_strictMaxima _ b hb)
  rw [hbucket, ← hu]
  exact bucketOf_eq_iff tf t u htf

/-! ## Runs -/

theorem closedBuckets_snoc (tf : Int) (ticks : List Tick) (t : Tick) :
    closedBuckets tf (ticks ++ [t]) =
      closedBuckets tf ticks ++ (closedBy tf ticks t).toList.map (·.bucket_start_ms) := by
  unfold closedBy
  rcases hm : (openedBuckets tf ticks).getLast? with _ | m
  · have hnil : ticks = [] := openedBuckets_eq_nil_iff.mp (List.getLast?_eq_none_iff.mp hm)
    subst hnil
    rfl
  · rcases lt_or_ge m (bucketOf tf t) with hlt | hge
    · rw [closedBuckets_snoc_of_lt hm hlt]
      simp [hlt]
    · rw [closedBuckets, openedBuckets_snoc_of_le hm hge]
      simp [closedBuckets, not_lt.mpr hge]

theorem closedBy_symbol {tf : Int} {symbol : Symbol} {ticks : List Tick} {t : Tick} {c : Candle}
    (hs : ∀ u ∈ ticks, u.symbol = symbol) (hc : closedBy tf ticks t = some c) : c.symbol = symbol := by
  unfold closedBy at hc
  rcases hm : (openedBuckets tf ticks).getLast? with _ | m
  · simp [hm] at hc
  · simp only [hm] at hc
    split at hc
    · cases hc
      exact candleOf_symbol (bucketTicks_ne_nil (List.mem_of_getLast? hm)) hs
    · cases hc

/-- What holds after any ticks: the candles that `apply` returned for a symbol are its closed
buckets, each once and in order, and the store of each symbol is that of its own ticks. -/
theorem run_spec (tf : Int) (n : Nat) (ticks : List Tick) :
    let r := run CandleAggregator.apply (CandleAggregator.new tf n) ticks
    (∀ s, (r.1.reduceOption.filter (fun c => c.symbol = s)).map (·.bucket_start_ms) =
      closedBuckets tf (own s ticks)) ∧
    (r.2.timeframe_sec = tf ∧ r.2.history_len = n) ∧ ∀ s, Stores r.2 s (own s ticks) := by
  apply run_history CandleAggregator.apply (P := fun ticks closed agg =>
    (∀ s, (closed.reduceOption.filter (fun c => c.symbol = s)).map (·.bucket_start_ms) =
      closedBuckets tf (own s ticks)) ∧
    (agg.timeframe_sec = tf ∧ agg.history_len = n) ∧ ∀ s, Stores agg s (own s ticks))
  · exact ⟨fun _ => rfl, ⟨rfl, rfl⟩, fun s => stores_new tf n s⟩
  · intro ticks closed agg t ⟨hclosed, ⟨htf, hn⟩, hstores⟩
    obtain ⟨htf', hn'⟩ := apply_settings agg t
    refine ⟨?_, ⟨htf'.trans htf, hn'.trans hn⟩, fun s => (hstores s).apply t⟩
    intro s
    have happly := (apply.spec agg t _ (hstores t.symbol)).1
    rw [htf] at happly
    rw [List.reduceOption_append, List.filter_append, List.map_append, hclosed, own_snoc]
    rcases hc : (agg.apply t).1 with _ | c
    · by_cases hs : t.symbol = s
      · subst hs
        rw [if_pos rfl, closedBuckets_snoc, ← happly, hc]
        rfl
      · simp [hs, List.reduceOption]
    · have hsym : c.symbol = t.symbol := by
        rw [hc] at happly
        exact closedBy_symbol (own_symbol t.symbol ticks) happly.symm
      by_cases hs : t.symbol = s
      · subst hs
        rw [if_pos rfl, closedBuckets_snoc, ← happly, hc]
        simp [List.reduceOption, hsym]
      · simp [List.reduceOption, hs, hsym]

/-- A candle was returned for each bucket that closed. -/
theorem run_closed_length (tf : Int) (n : Nat) (ticks : List Tick) (s : Symbol) :
    ((run CandleAggregator.apply (CandleAggregator.new tf n) ticks).1.reduceOption.filter
      (fun c => c.symbol = s)).length = (closedBuckets tf (own s ticks)).length := by
  rw [← (run_spec tf n ticks).1 s, List.length_map]

theorem run_store (tf : Int) (n : Nat) (ticks : List Tick) (s : Symbol) :
    let agg := (run CandleAggregator.apply (CandleAggregator.new tf n) ticks).2
    agg.current s = openCandle tf (own s ticks) ∧ agg.history s = closedCandles tf n (own s ticks) := by
  intro agg
  obtain ⟨-, ⟨htf, hn⟩, hstores⟩ := run_spec tf n ticks
  obtain ⟨hopen, hhist⟩ := hstores s
  rw [htf] at hopen hhist
  rw [hn] at hhist
  exact ⟨hopen, hhist⟩

/-- A late tick with no candle of its bucket in the history leaves every candle as it is. -/
theorem late_tick_without_candle {agg : CandleAggregator} {ticks : List Tick} {t : Tick}
    (hstores : Stores agg t.symbol ticks)
    (hlate : ∃ c ∈ agg.current t.symbol, bucketOf agg.timeframe_sec t < c.bucket_start_ms)
    (hnone : ∀ c ∈ agg.history t.symbol, c.bucket_start_ms ≠ bucketOf agg.timeframe_sec t) (s : Symbol) :
    (agg.apply t).2.current s = agg.current s ∧ (agg.apply t).2.history s = agg.history s := by
  by_cases hs : s = t.symbol
  · subst hs
    obtain ⟨c, hc, hlt⟩ := hlate
    rw [hstores.open_eq, Option.mem_def, openCandle, Option.map_eq_some_iff] at hc
    obtain ⟨m, hm, rfl⟩ := hc
    rw [candleOf_bucket] at hlt
    have hnot : bucketOf agg.timeframe_sec t ∉
        retainedBuckets agg.timeframe_sec agg.history_len ticks := by
      intro hmem
      apply hnone (closeCandle (candleOf agg.timeframe_sec (bucketOf agg.timeframe_sec t) ticks))
      · rw [hstores.history_eq]
        exact List.mem_map_of_mem hmem
      · simp
    have hnext := (apply.spec agg t ticks hstores).2.2
    obtain ⟨htf, hn⟩ := apply_settings agg t
    constructor
    · rw [hnext.open_eq, htf, openCandle_late hm hlt, ← hstores.open_eq]
    · rw [hnext.history_eq, htf, hn, closedCandles_kept hm hlt.le hnot, ← hstores.history_eq]
  · exact apply_other agg t s hs

/-! ## Late ticks -/

/-- The tick is late, when it comes after `before`: a newer bucket was opened already. -/
def late (tf : Int) (before : List Tick) (t : Tick) : Bool :=
  match (openedBuckets tf before).getLast? with
  | none => false
  | some m => bucketOf tf t < m

theorem bucketOf_mono {tf : Int} (htf : 1 ≤ tf) {t u : Tick} (h : t.event_time_ms ≤ u.event_time_ms) :
    bucketOf tf t ≤ bucketOf tf u := by
  rw [bucketOf, bucketOf, bucket_start_eq tf _ htf, bucket_start_eq tf _ htf]
  exact Int.mul_le_mul_of_nonneg_right (Int.ediv_le_ediv (by omega) h) (by omega)

/-- A late tick is older than a tick before it. -/
theorem older_of_late {tf : Int} (htf : 1 ≤ tf) {before : List Tick} {t : Tick}
    (h : late tf before t = true) : ∃ u ∈ before, t.event_time_ms < u.event_time_ms := by
  unfold late at h
  split at h
  · cases h
  · rename_i m hm
    obtain ⟨u, hu, rfl⟩ := List.mem_map.mp (mem_of_mem_strictMaxima _ m (List.mem_of_getLast? hm))
    refine ⟨u, hu, ?_⟩
    by_contra hge
    have := bucketOf_mono htf (not_lt.mp hge)
    simp only [decide_eq_true_eq] at h
    omega

/-- `apply` takes its late branch on the late ticks, and counts each. -/
theorem apply_late_patches {agg : CandleAggregator} {ticks : List Tick} {t : Tick}
    (h : Stores agg t.symbol ticks) :
    (agg.apply t).2.late_patches =
      agg.late_patches + (late agg.timeframe_sec ticks t).toNat := by
  have hopen := h.open_eq
  unfold CandleAggregator.current openCandle at hopen
  unfold late CandleAggregator.apply
  dsimp only
  rcases hm : (openedBuckets agg.timeframe_sec ticks).getLast? with _ | m
  · rw [hm, Option.map_none] at hopen
    rw [hopen]
    rfl
  · rw [hm, Option.map_some] at hopen
    rw [hopen]
    dsimp only
    rw [candleOf_bucket, bucketOf]
    rcases lt_trichotomy (bucket_start agg.timeframe_sec t.event_time_ms) m with hlt | heq | hgt
    · rw [if_neg hlt.ne, if_neg hlt.not_gt]
      split <;> simp [hlt]
    · rw [if_pos heq]
      simp [heq]
    · rw [if_neg hgt.ne', if_pos hgt]
      simp [hgt.le]

theorem late_of_patches_ne {agg : CandleAggregator} {symbol : Symbol} {ticks : List Tick} {t : Tick}
    (hs : t.symbol = symbol) (h : Stores agg symbol ticks)
    (hne : (agg.apply t).2.late_patches ≠ agg.late_patches) :
    late agg.timeframe_sec ticks t = true := by
  subst hs
  by_contra hno
  rw [apply_late_patches h, Bool.eq_false_of_not_eq_true hno] at hne
  exact hne rfl

/-! ## The law -/

theorem retainedBuckets_eq (tf : Int) (n : Nat) (ticks : List Tick) :
    retainedBuckets tf n ticks =
      (openedBuckets tf ticks).dropLast.rtake (min n ((openedBuckets tf ticks).length - 1)) := by
  unfold retainedBuckets closedBuckets
  rw [← List.length_dropLast]
  rcases le_total n (openedBuckets tf ticks).dropLast.length with h | h
  · rw [min_eq_left h]
  · rw [min_eq_right h, rtake_of_length_le h, rtake_of_length_le le_rfl]

/-- Whatever ticks came, in whatever order, the store of a symbol lists the buckets that
were once its newest, the last one open and the others closed, and each candle there sums up
all the ticks of its bucket. -/
theorem the_candle_store_sums_up_its_ticks (tf : Int) (htf : 1 ≤ tf) (n : Nat) (ticks : List Tick)
    (s : Symbol) :
    let r := run CandleAggregator.apply (CandleAggregator.new tf n) ticks
    let opened := strictMaxima ((own s ticks).map (bucketOf tf))
    ((r.2.current s).map (fun c => (c.bucket_start_ms, c.closed)) =
        opened.getLast?.map (fun b => (b, false))) ∧
      ((r.2.history s).map (·.bucket_start_ms) =
        opened.dropLast.rtake (min n (opened.length - 1))) ∧
      ((r.2.history s).Pairwise (fun c d => c.bucket_start_ms < d.bucket_start_ms)) ∧
      (∀ c ∈ r.2.history s, c.closed = true) ∧
      (∀ c ∈ r.2.history s ++ (r.2.current s).toList,
        SumsUp c.high c.low c.volume c.trade_count (bucketTicks tf c.bucket_start_ms (own s ticks)) ∧
        ∀ t, bucketOf tf t = c.bucket_start_ms ↔ InBucket tf c.bucket_start_ms t) ∧
      ((r.1.reduceOption.filter (fun c => c.symbol = s)).map (·.bucket_start_ms) = opened.dropLast) ∧
      ∀ t, (∃ c ∈ r.2.current t.symbol, bucketOf tf t < c.bucket_start_ms) →
        (∀ c ∈ r.2.history t.symbol, c.bucket_start_ms ≠ bucketOf tf t) →
        ∀ s', (r.2.apply t).2.current s' = r.2.current s' ∧
          (r.2.apply t).2.history s' = r.2.history s' := by
  intro r opened
  obtain ⟨hclosed, ⟨htf', -⟩, hstores⟩ := run_spec tf n ticks
  obtain ⟨hcur, hhist⟩ := run_store tf n ticks s
  have hbuckets : (r.2.history s).map (·.bucket_start_ms) = retainedBuckets tf n (own s ticks) := by
    rw [hhist]
    simp [closedCandles, Function.comp_def]
  refine ⟨?_, ?_, ?_, ?_, ?_, hclosed s, ?_⟩
  · rw [hcur, openCandle, Option.map_map]
    simp [Function.comp_def, openedBuckets, opened]
  · rw [hbuckets, retainedBuckets_eq]
    rfl
  · have hsorted := retainedBuckets_sorted tf n (own s ticks)
    rw [← hbuckets, List.pairwise_map] at hsorted
    exact hsorted
  · intro c hc
    rw [hhist] at hc
    obtain ⟨b, _, rfl⟩ := List.mem_map.mp hc
    rfl
  · intro c hc
    rw [hcur, hhist] at hc
    exact ⟨candles_sumUp hc, bucketOf_eq_iff_of_candle htf hc⟩
  · intro t hlate hnone
    rw [← htf'] at hlate hnone
    exact late_tick_without_candle (hstores t.symbol) hlate hnone

/-- The run of `test_late_tick_patches_already_closed_candle_history`. -/
theorem the_candle_store_sums_up_its_ticks_of_three :
    let tick (price quantity : ℚ) (time : Int) : Tick :=
      ⟨"BTCUSDT", price, quantity, 1, time, false, 0⟩
    let r := run CandleAggregator.apply (CandleAggregator.new 1 10)
      [tick 100 1 1000, tick 110 1 2500, tick 120 5 1900]
    (r.2.history "BTCUSDT").map (·.bucket_start_ms) = [1000] := by
  intro tick r
  have h := the_candle_store_sums_up_its_ticks 1 (by decide) 10
    [tick 100 1 1000, tick 110 1 2500, tick 120 5 1900] "BTCUSDT"
  exact h.2.1.trans (by decide)

end tick_pipeline.candles
