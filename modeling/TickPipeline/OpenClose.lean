-- Open and close by event time. A merge takes the price of its tick as the close, and
-- never moves the open, so a candle opens and closes by arrival: that is by event time
-- only as long as the first and the last tick to come are not beaten by another price.
import TickPipeline.CandleLaws

namespace tick_pipeline.candles

open models runs

/-! ## The first and the last trade by event time -/

/-- The tick of the smallest event time, the first to come among equals. -/
def earliest (ticks : List Tick) : Option Tick := ticks.minOn? (·.event_time_ms)

/-- The tick of the largest event time, the last to come among equals. -/
def latest (ticks : List Tick) : Option Tick := ticks.reverse.maxOn? (·.event_time_ms)

/-- Where the first tick to come is not the earliest, the earliest has its price. -/
def FirstHolds (ticks : List Tick) : Prop :=
  ∀ f ∈ ticks.head?, ∀ e ∈ earliest ticks, e.event_time_ms < f.event_time_ms → e.price = f.price

/-- Where the last tick to come is not the latest, the latest has its price. -/
def LastHolds (ticks : List Tick) : Prop :=
  ∀ l ∈ ticks.getLast?, ∀ e ∈ latest ticks, l.event_time_ms < e.event_time_ms → e.price = l.price

theorem earliest_cons (f : Tick) (rest : List Tick) :
    ∃ e, earliest (f :: rest) = some e ∧ (e = f ∨ e.event_time_ms < f.event_time_ms) := by
  unfold earliest
  rw [List.minOn?_cons]
  cases rest.minOn? (fun t : Tick => t.event_time_ms) with
  | none => exact ⟨f, rfl, Or.inl rfl⟩
  | some e =>
    by_cases hle : f.event_time_ms ≤ e.event_time_ms
    · exact ⟨f, congrArg some (minOn_eq_left hle), Or.inl rfl⟩
    · exact ⟨e, congrArg some (minOn_eq_right hle), Or.inr (not_le.mp hle)⟩

theorem latest_concat (rest : List Tick) (l : Tick) :
    ∃ e, latest (rest ++ [l]) = some e ∧ (e = l ∨ l.event_time_ms < e.event_time_ms) := by
  unfold latest
  rw [List.reverse_concat, List.maxOn?_cons]
  cases rest.reverse.maxOn? (fun t : Tick => t.event_time_ms) with
  | none => exact ⟨l, rfl, Or.inl rfl⟩
  | some e =>
    by_cases hle : e.event_time_ms ≤ l.event_time_ms
    · exact ⟨l, congrArg some (maxOn_eq_left hle), Or.inl rfl⟩
    · exact ⟨e, congrArg some (maxOn_eq_right hle), Or.inr (not_le.mp hle)⟩

theorem head_price_iff {ticks : List Tick} (hne : ticks ≠ []) :
    ticks.head?.map (·.price) = (earliest ticks).map (·.price) ↔ FirstHolds ticks := by
  obtain ⟨f, rest, rfl⟩ := List.exists_cons_of_ne_nil hne
  obtain ⟨e, he, hcase⟩ := earliest_cons f rest
  unfold FirstHolds
  rw [he]
  simp only [List.head?_cons, Option.map_some, Option.some.injEq, Option.mem_def, forall_eq']
  rcases hcase with rfl | hlt
  · simp
  · exact ⟨fun h _ => h.symm, fun h => (h hlt).symm⟩

theorem last_price_iff {ticks : List Tick} (hne : ticks ≠ []) :
    ticks.getLast?.map (·.price) = (latest ticks).map (·.price) ↔ LastHolds ticks := by
  obtain ⟨rest, l, rfl⟩ := ticks.eq_nil_or_concat'.resolve_left hne
  obtain ⟨e, he, hcase⟩ := latest_concat rest l
  unfold LastHolds
  rw [he]
  simp only [List.getLast?_concat, Option.map_some, Option.some.injEq, Option.mem_def, forall_eq']
  rcases hcase with rfl | hlt
  · simp
  · exact ⟨fun h _ => h.symm, fun h => (h hlt).symm⟩

/-! ## The law -/

/-- The candle opens and closes by event time, over the ticks of its bucket. -/
def FollowsEventTime (c : Candle) (ticks : List Tick) : Prop :=
  (earliest ticks).map (·.price) = some c.open_ ∧ (latest ticks).map (·.price) = some c.close

instance (c : Candle) (ticks : List Tick) : Decidable (FollowsEventTime c ticks) := by
  unfold FollowsEventTime; infer_instance

theorem candle_follows_iff {tf : Int} {n : Nat} {ticks : List Tick} {c : Candle}
    (hc : c ∈ memory tf n ticks) :
    FollowsEventTime c (bucketTicks tf c.bucket_start_ms ticks) ↔
      FirstHolds (bucketTicks tf c.bucket_start_ms ticks) ∧
        LastHolds (bucketTicks tf c.bucket_start_ms ticks) := by
  obtain ⟨hopen, hclose⟩ := candles_open_close hc
  have hne : bucketTicks tf c.bucket_start_ms ticks ≠ [] := by
    intro hnil
    rw [hnil] at hopen
    cases hopen
  rw [← head_price_iff hne, ← last_price_iff hne, hopen, hclose]
  exact and_congr eq_comm eq_comm

/-- For any ticks in any order: the candles of a symbol all open at the price of the earliest and
close at that of the latest tick of their bucket, if and only if this holds of the ticks, bucket
by bucket, over the buckets that still have a candle: where a tick that came later is earlier
than the first one, the earliest has the first one's price, and where a tick that came before
the last one is later than it, the latest has the last one's price. -/
theorem candles_follow_event_time_unless_a_late_tick_moves_them (tf : Int) (n : Nat)
    (ticks : List Tick) (s : Symbol) :
    let agg := (run CandleAggregator.apply (CandleAggregator.new tf n) ticks).2
    (∀ c ∈ agg.history s ++ (agg.current s).toList,
      FollowsEventTime c (bucketTicks tf c.bucket_start_ms (own s ticks))) ↔
    ∀ b ∈ (openedBuckets tf (own s ticks)).rtake (n + 1),
      FirstHolds (bucketTicks tf b (own s ticks)) ∧ LastHolds (bucketTicks tf b (own s ticks)) := by
  intro agg
  obtain ⟨hcur, hhist⟩ := run_store tf n ticks s
  rw [hcur, hhist, ← memory_buckets, List.forall_mem_map]
  exact forall₂_congr (fun c hc => candle_follows_iff hc)

/-- A late tick of a closed candle, older than its last trade, moves the close. -/
theorem a_late_tick_moves_the_close :
    let tick (price : ℚ) (time : Int) : Tick := ⟨"BTC-USD", price, 1, 1, time, false, 0⟩
    let ticks := [tick 100 1000, tick 110 1900, tick 120 2500, tick 90 1500]
    let agg := (run CandleAggregator.apply (CandleAggregator.new 1 10) ticks).2
    ¬ ∀ c ∈ agg.history "BTC-USD" ++ (agg.current "BTC-USD").toList,
      FollowsEventTime c (bucketTicks 1 c.bucket_start_ms (own "BTC-USD" ticks)) := by
  decide +kernel

end tick_pipeline.candles
