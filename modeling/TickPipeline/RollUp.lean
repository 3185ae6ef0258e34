-- Candles of a coarse timeframe are the roll-up of the fine ones: on ticks that come
-- in event-time order, what two aggregators of nested timeframes make apart from
-- each other fits together.
import TickPipeline.CandleLaws
import TickPipeline.Lib.EventLog
import Mathlib.Algebra.BigOperators.Group.List.Basic
import Mathlib.Algebra.GroupWithZero.Nat

namespace tick_pipeline.candles

open models runs strict_maxima last_n event_log

/-! ## Candles that roll up -/

/-- The candle says of the ticks what there is to say. -/
structure Says (c : Candle) (ticks : List Tick) : Prop where
  sums : SumsUp c.high c.low c.volume c.trade_count ticks
  open_eq : ticks.head?.map (·.price) = some c.open_
  close_eq : ticks.getLast?.map (·.price) = some c.close

/-- The candle rolls up the candles of the list, of which there is at least one. -/
structure RollsUp (c : Candle) (parts : List Candle) : Prop where
  nonempty : parts ≠ []
  open_eq : parts.head?.map (·.open_) = some c.open_
  close_eq : parts.getLast?.map (·.close) = some c.close
  high_eq : (parts.map (·.high)).max? = some c.high
  low_eq : (parts.map (·.low)).min? = some c.low
  volume_eq : c.volume = (parts.map (·.volume)).sum
  trade_count_eq : c.trade_count = (parts.map (·.trade_count)).sum

section parts

variable {c : Candle} {parts : List Candle} {ticksOf : Candle → List Tick}

theorem Says.ne_nil {ticks : List Tick} (h : Says c ticks) : ticks ≠ [] := by
  rintro rfl
  exact absurd h.open_eq (by simp)

theorem says_high_eq (hc : Says c (parts.flatMap ticksOf)) (hparts : ∀ f ∈ parts, Says f (ticksOf f)) :
    (parts.map (·.high)).max? = some c.high := by
  rw [List.max?_eq_some_iff]
  have hle : ∀ f ∈ parts, f.high ≤ c.high := by
    intro f hf
    obtain ⟨t, ht, hth⟩ := (hparts f hf).sums.high_mem
    exact hth ▸ hc.sums.le_high t (List.mem_flatMap.mpr ⟨f, hf, ht⟩)
  refine ⟨?_, ?_⟩
  · obtain ⟨t, ht, hth⟩ := hc.sums.high_mem
    obtain ⟨f, hf, htf⟩ := List.mem_flatMap.mp ht
    have hge : c.high ≤ f.high := hth ▸ (hparts f hf).sums.le_high t htf
    exact List.mem_map.mpr ⟨f, hf, le_antisymm (hle f hf) hge⟩
  · intro x hx
    obtain ⟨f, hf, rfl⟩ := List.mem_map.mp hx
    exact hle f hf

theorem says_low_eq (hc : Says c (parts.flatMap ticksOf)) (hparts : ∀ f ∈ parts, Says f (ticksOf f)) :
    (parts.map (·.low)).min? = some c.low := by
  rw [List.min?_eq_some_iff]
  have hle : ∀ f ∈ parts, c.low ≤ f.low := by
    intro f hf
    obtain ⟨t, ht, hth⟩ := (hparts f hf).sums.low_mem
    exact hth ▸ hc.sums.low_le t (List.mem_flatMap.mpr ⟨f, hf, ht⟩)
  refine ⟨?_, ?_⟩
  · obtain ⟨t, ht, hth⟩ := hc.sums.low_mem
    obtain ⟨f, hf, htf⟩ := List.mem_flatMap.mp ht
    have hge : f.low ≤ c.low := hth ▸ (hparts f hf).sums.low_le t htf
    exact List.mem_map.mpr ⟨f, hf, le_antisymm hge (hle f hf)⟩
  · intro x hx
    obtain ⟨f, hf, rfl⟩ := List.mem_map.mp hx
    exact hle f hf

/-- A candle of all the ticks rolls up the candles of the parts of them. -/
theorem rollsUp_of_says (hc : Says c (parts.flatMap ticksOf))
    (hparts : ∀ f ∈ parts, Says f (ticksOf f)) : RollsUp c parts := by
  have hnonempty : parts ≠ [] := by
    rintro rfl
    exact hc.ne_nil rfl
  refine ⟨hnonempty, ?_, ?_, says_high_eq hc hparts, says_low_eq hc hparts, ?_, ?_⟩
  · obtain ⟨f, rest, rfl⟩ := List.exists_cons_of_ne_nil hnonempty
    have hf := hparts f (by simp)
    have hopen := hc.open_eq
    rw [List.flatMap_cons, List.head?_append_of_ne_nil _ hf.ne_nil, hf.open_eq] at hopen
    simpa using hopen
  · obtain ⟨rest, f, rfl⟩ := parts.eq_nil_or_concat'.resolve_left hnonempty
    have hf := hparts f (by simp)
    have hclose := hc.close_eq
    rw [List.flatMap_append, List.flatMap_singleton, List.getLast?_append_of_ne_nil _ hf.ne_nil,
      hf.close_eq] at hclose
    simpa using hclose
  · rw [hc.sums.volume_eq, List.map_flatMap, List.flatMap_def, List.sum_flatten, List.map_map]
    congr 1
    apply List.map_congr_left
    intro f hf
    exact (hparts f hf).sums.volume_eq.symm
  · rw [hc.sums.trade_count_eq, List.length_flatMap]
    congr 1
    apply List.map_congr_left
    intro f hf
    exact (hparts f hf).sums.trade_count_eq.symm

end parts

theorem says_of_candle {tf : Int} {n : Nat} {ticks : List Tick} {c : Candle}
    (hc : c ∈ closedCandles tf n ticks ++ (openCandle tf ticks).toList) :
    Says c (bucketTicks tf c.bucket_start_ms ticks) :=
  ⟨candles_sumUp hc, (candles_open_close hc).1, (candles_open_close hc).2⟩

/-! ## Nested buckets -/

/-- A fine bucket lies in a coarse one as a whole: a tick is of the coarse bucket exactly when the
start of its fine bucket is. -/
theorem bucketOf_nested {a k : Int} (ha : 1 ≤ a) (hk : 1 ≤ k) (t u : Tick) :
    bucketOf (k * a) t = bucketOf (k * a) u ↔
      bucketOf (k * a) u ≤ bucketOf a t ∧ bucketOf a t < bucketOf (k * a) u + 1000 * (k * a) := by
  have hka : 0 < k * a := Int.mul_pos (by omega) (by omega)
  rw [bucketOf_eq_iff (k * a) t u hka, InBucket]
  -- Both starts are multiples of the fine bucket's length.
  have hfine : bucketOf a t = t.event_time_ms / (a * 1000) * (a * 1000) := bucket_start_eq a _ ha
  have hcoarse : bucketOf (k * a) u = u.event_time_ms / (k * a * 1000) * k * (a * 1000) := by
    rw [bucketOf, bucket_start_eq (k * a) _ hka, Int.mul_assoc k, ← Int.mul_assoc]
  have hlen : k * a * 1000 = k * (a * 1000) := Int.mul_assoc k a 1000
  rw [Int.mul_comm 1000, hcoarse, hfine, hlen, ← Int.add_mul]
  generalize u.event_time_ms / (k * (a * 1000)) * k = B
  have hpos : 0 < a * 1000 := by omega
  constructor
  · rintro ⟨hge, hlt⟩
    refine ⟨?_, ?_⟩
    · exact Int.mul_le_mul_of_nonneg_right ((Int.le_ediv_iff_mul_le hpos).mpr hge) hpos.le
    · exact Int.mul_lt_mul_of_pos_right ((Int.ediv_lt_iff_lt_mul hpos).mpr hlt) hpos
  · rintro ⟨hge, hlt⟩
    have hge' := Int.le_of_mul_le_mul_right hge hpos
    have hlt' := Int.lt_of_mul_lt_mul_right hlt hpos.le
    exact ⟨(Int.le_ediv_iff_mul_le hpos).mp hge', (Int.ediv_lt_iff_lt_mul hpos).mp hlt'⟩

/-- On ticks in event-time order, the ticks of a coarse bucket are those of the fine candles that
start in it, one candle after the other. -/
theorem coarse_ticks {a k : Int} (ha : 1 ≤ a) (hk : 1 ≤ k) {n : Nat} {ticks : List Tick}
    (hsorted : ticks.Pairwise (fun t u => t.event_time_ms ≤ u.event_time_ms))
    (hn : (closedBuckets a ticks).length ≤ n) (u : Tick) :
    bucketTicks (k * a) (bucketOf (k * a) u) ticks =
      ((memory a n ticks).filter (fun f => bucketOf (k * a) u ≤ f.bucket_start_ms ∧
        f.bucket_start_ms < bucketOf (k * a) u + 1000 * (k * a))).flatMap
          (fun f => bucketTicks a f.bucket_start_ms ticks) := by
  let inside := fun b : Int => decide (bucketOf (k * a) u ≤ b ∧
    b < bucketOf (k * a) u + 1000 * (k * a))
  have hgroups := flatMap_groups (bucketOf a) ticks (hsorted.imp (fun h => bucketOf_mono ha h))
  calc bucketTicks (k * a) (bucketOf (k * a) u) ticks
      = ((openedBuckets a ticks).flatMap (fun b => bucketTicks a b ticks)).filter
          (fun t => bucketOf (k * a) t = bucketOf (k * a) u) := by
        conv_lhs => rw [bucketTicks, ← hgroups]
        rfl
    _ = ((openedBuckets a ticks).filter inside).flatMap (fun b => bucketTicks a b ticks) := by
        apply filter_flatMap_parts
        intro b _ t ht
        obtain rfl : bucketOf a t = b := by simpa using (List.mem_filter.mp ht).2
        exact decide_eq_decide.mpr (bucketOf_nested ha hk t u)
    _ = _ := by
        rw [← memory_of_few hn, List.filter_map, List.flatMap_map]
        rfl

/-! ## The law -/

/-- On ticks of a symbol in event-time order, and with a fine history that let no candle go: each
candle of the coarse timeframe rolls up the fine candles that start in its bucket. -/
theorem coarse_candles_roll_up_the_fine_ones (a k : Int) (ha : 1 ≤ a) (hk : 1 ≤ k) (n m : Nat)
    (ticks : List Tick) (s : Symbol)
    (hsorted : (own s ticks).Pairwise (fun t u => t.event_time_ms ≤ u.event_time_ms)) :
    let fine := run CandleAggregator.apply (CandleAggregator.new a n) ticks
    let coarse := run CandleAggregator.apply (CandleAggregator.new (k * a) m) ticks
    (fine.1.reduceOption.filter (fun c => c.symbol = s)).length ≤ n →
    ∀ c ∈ coarse.2.history s ++ (coarse.2.current s).toList,
      RollsUp c ((fine.2.history s ++ (fine.2.current s).toList).filter
        (fun f => c.bucket_start_ms ≤ f.bucket_start_ms ∧
          f.bucket_start_ms < c.bucket_start_ms + 1000 * (k * a))) := by
  intro fine coarse hn c hc
  obtain ⟨hcur, hhist⟩ := run_store (k * a) m ticks s
  obtain ⟨hfcur, hfhist⟩ := run_store a n ticks s
  rw [hcur, hhist] at hc
  rw [hfcur, hfhist]
  have hsays := says_of_candle hc
  obtain ⟨u, hmem⟩ := List.exists_mem_of_ne_nil _ hsays.ne_nil
  have hu : c.bucket_start_ms = bucketOf (k * a) u :=
    (of_decide_eq_true (List.mem_filter.mp hmem).2).symm
  rw [hu, coarse_ticks ha hk hsorted (run_closed_length a n ticks s ▸ hn)] at hsays
  rw [hu]
  apply rollsUp_of_says hsays
  intro f hf
  exact says_of_candle (List.mem_filter.mp hf).1

/-- Candles of five seconds, over candles of one second, with seconds that no tick came in. -/
theorem coarse_candles_roll_up_the_fine_ones_of_four :
    let tick (price quantity : ℚ) (time : Int) : Tick :=
      ⟨"BTC-USD", price, quantity, 1, time, false, 0⟩
    let ticks := [tick 100 1 1000, tick 110 2 2500, tick 90 1 2600, tick 120 5 6100]
    let fine := run CandleAggregator.apply (CandleAggregator.new 1 10) ticks
    let coarse := run CandleAggregator.apply (CandleAggregator.new (5 * 1) 10) ticks
    ∀ c ∈ coarse.2.history "BTC-USD" ++ (coarse.2.current "BTC-USD").toList,
      RollsUp c ((fine.2.history "BTC-USD" ++ (fine.2.current "BTC-USD").toList).filter
        (fun f => c.bucket_start_ms ≤ f.bucket_start_ms ∧
          f.bucket_start_ms < c.bucket_start_ms + 1000 * (5 * 1))) :=
  coarse_candles_roll_up_the_fine_ones 1 5 (by decide) (by decide) 10 10 _ "BTC-USD" (by decide)
    (by decide)

end tick_pipeline.candles
