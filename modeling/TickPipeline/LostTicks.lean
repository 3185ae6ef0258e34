-- What a timeframe leaves out: a late tick is merged when there is a candle of its
-- bucket, and only counted when there is none. Which ticks these are depends on the
-- timeframe, so the totals of two timeframes differ by what each left out.
import TickPipeline.CandleLaws
import TickPipeline.Lib.Bags
import Mathlib.Algebra.BigOperators.Group.List.Basic
import Mathlib.Tactic.Linarith

namespace tick_pipeline.candles

open models runs strict_maxima last_n bags

/-! ## Ticks that find no candle -/

/-- The tick is late, and there is no candle of its bucket to patch. -/
def CandleAggregator.misses (agg : CandleAggregator) (t : Tick) : Bool :=
  let bucket_start := bucket_start agg.timeframe_sec t.event_time_ms
  match agg.current t.symbol with
  | none => false
  | some open_candle =>
    bucket_start < open_candle.bucket_start_ms &&
      (agg.history t.symbol).all (fun candle => candle.bucket_start_ms ≠ bucket_start)

/-- The ticks that found no candle when they came. -/
def missed (tf : Int) (n : Nat) (ticks : List Tick) : List Tick :=
  (run (fun agg t => (if agg.misses t then [t] else [], (agg.apply t).2))
    (CandleAggregator.new tf n) ticks).1.flatten

theorem missed_snoc (tf : Int) (n : Nat) (ticks : List Tick) (t : Tick) :
    missed tf n (ticks ++ [t]) = missed tf n ticks ++
      (if (run CandleAggregator.apply (CandleAggregator.new tf n) ticks).2.misses t then [t] else []) := by
  have hstate := run_state_eq
    (fun (agg : CandleAggregator) t => (if agg.misses t then [t] else [], (agg.apply t).2))
    CandleAggregator.apply (fun _ _ => rfl) (CandleAggregator.new tf n) ticks
  unfold missed
  rw [run_snoc, hstate]
  simp

/-- In the terms of the ticks before it. -/
theorem misses_eq {agg : CandleAggregator} {ticks : List Tick} {t : Tick}
    (h : Stores agg t.symbol ticks) :
    agg.misses t = (late agg.timeframe_sec ticks t && decide (bucketOf agg.timeframe_sec t ∉
      retainedBuckets agg.timeframe_sec agg.history_len ticks)) := by
  have hall : (agg.history t.symbol).all
      (fun candle => candle.bucket_start_ms ≠ bucketOf agg.timeframe_sec t) =
        decide (bucketOf agg.timeframe_sec t ∉
          retainedBuckets agg.timeframe_sec agg.history_len ticks) := by
    rw [h.history_eq, closedCandles, Bool.eq_iff_iff]
    simp only [List.all_eq_true, List.mem_map, decide_eq_true_eq]
    constructor
    · intro hne hmem
      exact hne _ ⟨_, hmem, rfl⟩ (by simp)
    · rintro hnot c ⟨b, hb, rfl⟩ hcb
      rw [closeCandle_bucket, candleOf_bucket] at hcb
      exact hnot (hcb ▸ hb)
  unfold CandleAggregator.misses late
  rw [h.open_eq, openCandle]
  rcases hm : (openedBuckets agg.timeframe_sec ticks).getLast? with _ | m
  · rfl
  · simp only [Option.map_some, candleOf_bucket]
    exact congrArg _ hall

section snoc

variable {tf : Int} {ticks : List Tick} {t : Tick}

/-- A new tick opens no bucket of an older one. -/
theorem opened_snoc_older {u : Tick} (hu : u ∈ ticks) :
    bucketOf tf u ∈ openedBuckets tf (ticks ++ [t]) ↔ bucketOf tf u ∈ openedBuckets tf ticks := by
  rcases hm : (openedBuckets tf ticks).getLast? with _ | m
  · rw [openedBuckets_eq_nil_iff.mp (List.getLast?_eq_none_iff.mp hm)] at hu
    cases hu
  · have hle := le_getLast?_strictMaxima hm (bucketOf tf u) (List.mem_map_of_mem hu)
    rcases lt_or_ge m (bucketOf tf t) with hlt | hge
    · rw [openedBuckets_snoc, pushMax_of_lt hm hlt, List.mem_append, List.mem_singleton]
      exact or_iff_left (by omega)
    · rw [openedBuckets_snoc_of_le hm hge]

/-- A tick opens its own bucket, or finds it open or closed, unless it is late for a bucket that was
never opened. -/
theorem opened_snoc_self :
    bucketOf tf t ∉ openedBuckets tf (ticks ++ [t]) ↔
      late tf ticks t = true ∧ bucketOf tf t ∉ closedBuckets tf ticks := by
  unfold late
  rcases hm : (openedBuckets tf ticks).getLast? with _ | m
  · rw [openedBuckets_snoc, List.getLast?_eq_none_iff.mp hm]
    simp [pushMax]
  · rcases lt_trichotomy (bucketOf tf t) m with hlt | heq | hgt
    · have hsplit := List.dropLast_append_getLast? m hm
      rw [openedBuckets_snoc_of_le hm hlt.le, ← hsplit]
      simp [closedBuckets, hlt, hlt.ne]
    · rw [openedBuckets_snoc_of_le hm heq.le]
      simp [heq, List.mem_of_getLast? hm]
    · rw [openedBuckets_snoc, pushMax_of_lt hm hgt]
      simp [hgt.le]

end snoc

theorem closedBuckets_length_le (tf : Int) (ticks : List Tick) (t : Tick) :
    (closedBuckets tf ticks).length ≤ (closedBuckets tf (ticks ++ [t])).length := by
  rw [closedBuckets_snoc, List.length_append]
  omega

theorem retainedBuckets_of_few {tf : Int} {n : Nat} {ticks : List Tick}
    (h : (closedBuckets tf ticks).length ≤ n) : retainedBuckets tf n ticks = closedBuckets tf ticks :=
  rtake_of_length_le h

/-- With no candle evicted, the ticks of a symbol that found no candle are those of the buckets that
were never opened. -/
theorem own_missed {tf : Int} {n : Nat} {s : Symbol} {ticks : List Tick}
    (h : (closedBuckets tf (own s ticks)).length ≤ n) :
    own s (missed tf n ticks) =
      (own s ticks).filter (fun t => bucketOf tf t ∉ openedBuckets tf (own s ticks)) := by
  induction ticks using List.reverseRecOn with
  | nil => rfl
  | append_singleton ticks t ih =>
    rw [missed_snoc, own_append]
    by_cases hs : t.symbol = s
    · subst hs
      rw [own_snoc, if_pos rfl] at h ⊢
      have hprev := (closedBuckets_length_le tf (own t.symbol ticks) t).trans h
      obtain ⟨-, ⟨htf, hn⟩, hstores⟩ := run_spec tf n ticks
      have holder : (own t.symbol ticks).filter
            (fun u => bucketOf tf u ∉ openedBuckets tf (own t.symbol ticks ++ [t])) =
          (own t.symbol ticks).filter
            (fun u => bucketOf tf u ∉ openedBuckets tf (own t.symbol ticks)) := by
        apply List.filter_congr
        intro u hu
        exact decide_eq_decide.mpr (not_congr (opened_snoc_older hu))
      rw [List.filter_append, holder, ← ih hprev, misses_eq (hstores t.symbol), htf, hn,
        retainedBuckets_of_few hprev]
      have hself : (late tf (own t.symbol ticks) t &&
          decide (bucketOf tf t ∉ closedBuckets tf (own t.symbol ticks))) =
            decide (bucketOf tf t ∉ openedBuckets tf (own t.symbol ticks ++ [t])) := by
        rw [Bool.eq_iff_iff, Bool.and_eq_true, decide_eq_true_eq, decide_eq_true_eq]
        exact opened_snoc_self.symm
      have hone : ∀ b : Bool, own t.symbol (if b then [t] else []) = if b then [t] else [] := by
        intro b
        cases b <;> simp [own]
      rw [hself, hone, List.filter_cons, List.filter_nil]
    · have hother : own s (if (run CandleAggregator.apply (CandleAggregator.new tf n)
          ticks).2.misses t then [t] else []) = [] := by
        split <;> simp [own, hs]
      rw [own_snoc, if_neg hs, List.append_nil] at h ⊢
      rw [hother, List.append_nil]
      exact ih h

/-! ## Totals -/

/-- The ticks of the opened buckets, bucket by bucket, and the others are all the ticks. -/
theorem opened_groups_perm (tf : Int) (ticks : List Tick) :
    ((openedBuckets tf ticks).flatMap (fun b => bucketTicks tf b ticks) ++
      ticks.filter (fun t => bucketOf tf t ∉ openedBuckets tf ticks)).Perm ticks := by
  have hsplit : (ticks.filter (fun t => bucketOf tf t ∈ openedBuckets tf ticks) ++
      ticks.filter (fun t => bucketOf tf t ∉ openedBuckets tf ticks)).Perm ticks := by
    have := List.filter_append_perm (fun t => decide (bucketOf tf t ∈ openedBuckets tf ticks)) ticks
    simpa only [decide_not] using this
  refine List.Perm.trans (List.Perm.append_right _ ?_) hsplit
  have hnodup := (openedBuckets_sorted tf ticks).imp (fun {a b} (hab : a < b) => hab.ne)
  have hkeys : ∀ t ∈ ticks.filter (fun t => bucketOf tf t ∈ openedBuckets tf ticks),
      bucketOf tf t ∈ openedBuckets tf ticks :=
    fun t ht => of_decide_eq_true (List.mem_filter.mp ht).2
  rw [List.flatMap_congr (g := fun b => (ticks.filter
    (fun t => bucketOf tf t ∈ openedBuckets tf ticks)).filter (fun t => bucketOf tf t = b))]
  · exact flatMap_keys_perm (bucketOf tf) hnodup hkeys
  · intro b hb
    rw [List.filter_filter]
    apply List.filter_congr
    intro t _
    by_cases htb : bucketOf tf t = b
    · simp [htb, hb]
    · simp [htb]

/-- The candles and the ticks that found none account for every tick. -/
theorem memory_totals {tf : Int} {n : Nat} {ticks : List Tick}
    (h : (closedBuckets tf ticks).length ≤ n) :
    let left := ticks.filter (fun t => bucketOf tf t ∉ openedBuckets tf ticks)
    ((memory tf n ticks).map (·.trade_count)).sum + left.length = ticks.length ∧
      ((memory tf n ticks).map (·.volume)).sum + (left.map (·.quantity)).sum =
        (ticks.map (·.quantity)).sum := by
  intro left
  have hparts : ∀ c ∈ memory tf n ticks,
      SumsUp c.high c.low c.volume c.trade_count (bucketTicks tf c.bucket_start_ms ticks) :=
    fun c hc => candles_sumUp hc
  have hall : ((memory tf n ticks).flatMap (fun c => bucketTicks tf c.bucket_start_ms ticks) ++
      left).Perm ticks := by
    have hgroups : (memory tf n ticks).flatMap (fun c => bucketTicks tf c.bucket_start_ms ticks) =
        (openedBuckets tf ticks).flatMap (fun b => bucketTicks tf b ticks) := by
      rw [← memory_of_few h, List.flatMap_map]
    rw [hgroups]
    exact opened_groups_perm tf ticks
  refine ⟨?_, ?_⟩
  · rw [← hall.length_eq, List.length_append, List.length_flatMap]
    congr 2
    apply List.map_congr_left
    intro c hc
    exact (hparts c hc).trade_count_eq
  · rw [← (hall.map (·.quantity)).sum_eq, List.map_append, List.sum_append, List.map_flatMap,
      List.flatMap_def, List.sum_flatten, List.map_map]
    congr 2
    apply List.map_congr_left
    intro c hc
    exact (hparts c hc).volume_eq

/-- The trades that the candles of a symbol count. -/
def CandleAggregator.total_trade_count (agg : CandleAggregator) (s : Symbol) : Nat :=
  ((agg.history s ++ (agg.current s).toList).map (·.trade_count)).sum

/-- The volume of the candles of a symbol. -/
def CandleAggregator.total_volume (agg : CandleAggregator) (s : Symbol) : ℚ :=
  ((agg.history s ++ (agg.current s).toList).map (·.volume)).sum

theorem run_totals (tf : Int) (n : Nat) (ticks : List Tick) (s : Symbol)
    (h : ((run CandleAggregator.apply (CandleAggregator.new tf n) ticks).1.reduceOption.filter
      (fun c => c.symbol = s)).length ≤ n) :
    let agg := (run CandleAggregator.apply (CandleAggregator.new tf n) ticks).2
    agg.total_trade_count s + (own s (missed tf n ticks)).length = (own s ticks).length ∧
      agg.total_volume s + ((own s (missed tf n ticks)).map (·.quantity)).sum =
        ((own s ticks).map (·.quantity)).sum := by
  intro agg
  have hfew := run_closed_length tf n ticks s ▸ h
  obtain ⟨hcur, hhist⟩ := run_store tf n ticks s
  unfold CandleAggregator.total_trade_count CandleAggregator.total_volume
  rw [hcur, hhist, own_missed hfew]
  exact memory_totals hfew

/-! ## The law -/

/-- Ticks of a symbol in any order, and two timeframes whose histories let no candle go. In each, the
ticks applied are those that its candles count, and those that were late when no candle of their
bucket was there. So the totals of the two agree exactly when these left-out ticks do, in number
and in quantity. -/
theorem each_timeframe_keeps_all_but_the_ticks_that_find_no_candle (tf tf' : Int) (n n' : Nat)
    (ticks : List Tick) (s : Symbol) :
    let r := run CandleAggregator.apply (CandleAggregator.new tf n) ticks
    let r' := run CandleAggregator.apply (CandleAggregator.new tf' n') ticks
    let out := own s (missed tf n ticks)
    let out' := own s (missed tf' n' ticks)
    (r.1.reduceOption.filter (fun c => c.symbol = s)).length ≤ n →
    (r'.1.reduceOption.filter (fun c => c.symbol = s)).length ≤ n' →
    (r.2.total_trade_count s + out.length = (own s ticks).length ∧
      r.2.total_volume s + (out.map (·.quantity)).sum = ((own s ticks).map (·.quantity)).sum) ∧
    (r'.2.total_trade_count s + out'.length = (own s ticks).length ∧
      r'.2.total_volume s + (out'.map (·.quantity)).sum = ((own s ticks).map (·.quantity)).sum) ∧
    (r.2.total_trade_count s = r'.2.total_trade_count s ↔ out.length = out'.length) ∧
    (r.2.total_volume s = r'.2.total_volume s ↔
      (out.map (·.quantity)).sum = (out'.map (·.quantity)).sum) := by
  intro r r' out out' h h'
  have hcount : r.2.total_trade_count s + out.length = (own s ticks).length :=
    (run_totals tf n ticks s h).1
  have hvolume : r.2.total_volume s + (out.map (·.quantity)).sum = ((own s ticks).map (·.quantity)).sum :=
    (run_totals tf n ticks s h).2
  have hcount' : r'.2.total_trade_count s + out'.length = (own s ticks).length :=
    (run_totals tf' n' ticks s h').1
  have hvolume' : r'.2.total_volume s + (out'.map (·.quantity)).sum =
      ((own s ticks).map (·.quantity)).sum := (run_totals tf' n' ticks s h').2
  refine ⟨⟨hcount, hvolume⟩, ⟨hcount', hvolume'⟩, ?_, ?_⟩
  · omega
  · constructor
    · intro heq
      linarith
    · intro heq
      linarith

/-- Three ticks, of which the last comes late, for a second that no tick came in before. -/
theorem each_timeframe_keeps_all_but_the_ticks_that_find_no_candle_of_three :
    let tick (price : ℚ) (time : Int) : Tick := ⟨"BTC-USD", price, 1, 1, time, false, 0⟩
    let ticks := [tick 100 1000, tick 110 3000, tick 120 2000]
    let r := run CandleAggregator.apply (CandleAggregator.new 1 10) ticks
    let r' := run CandleAggregator.apply (CandleAggregator.new 5 10) ticks
    r.2.total_trade_count "BTC-USD" + (own "BTC-USD" (missed 1 10 ticks)).length = 3 ∧
      r'.2.total_trade_count "BTC-USD" + (own "BTC-USD" (missed 5 10 ticks)).length = 3 := by
  intro tick ticks r r'
  have h := each_timeframe_keeps_all_but_the_ticks_that_find_no_candle 1 5 10 10 ticks "BTC-USD"
    (by decide) (by decide)
  exact ⟨h.1.1, h.2.1.1⟩

/-- A timeframe of one second leaves out the tick that one of five seconds keeps. -/
theorem one_second_leaves_out_what_five_keep :
    let tick (price : ℚ) (time : Int) : Tick := ⟨"BTC-USD", price, 1, 1, time, false, 0⟩
    let ticks := [tick 100 1000, tick 110 3000, tick 120 2000]
    let r := run CandleAggregator.apply (CandleAggregator.new 1 10) ticks
    let r' := run CandleAggregator.apply (CandleAggregator.new 5 10) ticks
    (r.1.reduceOption.filter (fun c => c.symbol = "BTC-USD")).length ≤ 10 ∧
      (r'.1.reduceOption.filter (fun c => c.symbol = "BTC-USD")).length ≤ 10 ∧
      ¬ (r.2.total_trade_count "BTC-USD" = r'.2.total_trade_count "BTC-USD" ∧
        r.2.total_trade_count "BTC-USD" = (own "BTC-USD" ticks).length) := by
  decide +kernel

end tick_pipeline.candles
