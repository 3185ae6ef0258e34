-- The candle events of a run are consistent, and a client that keeps the last
-- event of each bucket holds the candle store.
import TickPipeline.BatchRuns

namespace tick_pipeline.pipeline

open runs models candles emitted event_log

/-- What the last events of a chart hold is the store. -/
theorem Chart.last_data {tf : Int} {n : Nat} {xs : List Tick} {log : List Event}
    (h : Chart tf n xs log) {c : Candle}
    (hc : c ∈ closedCandles tf n xs ++ (openCandle tf xs).toList) :
    lastOf CandleDict.bucket_start_ms c.bucket_start_ms (log.filterMap Event.data) =
      some c.to_dict := by
  rcases List.mem_append.mp hc with hc | hc
  · obtain ⟨b, hb, rfl⟩ := List.mem_map.mp hc
    rw [closeCandle_bucket, candleOf_bucket]
    exact h.closed_data b hb
  · rw [Option.mem_toList, openCandle, Option.map_eq_some_iff] at hc
    obtain ⟨m, hm, rfl⟩ := hc
    rw [candleOf_bucket]
    exact h.open_data m hm

/-- Whatever batches came, each of ticks of its symbol, as `_consume_symbol` passes them: in the
events of a symbol and timeframe the bucket never goes back; each event finds what it relies on in
the events before it; and the last event of each bucket that the store holds carries its candle as
it is now. -/
theorem the_candle_events_rebuild_the_store (upper : Symbol → Symbol) (cfg : Settings)
    (symbols : List Symbol) (persistence : Bool) (calls : List (Symbol × List Tick))
    (hown : ∀ call ∈ calls, ∀ t ∈ call.2, t.symbol = call.1) :
    let r := run (fun p call => Pipeline.process_batch p call.1 call.2)
      (Pipeline.new upper cfg symbols persistence) calls
    let events := r.1.flatten.flatMap Obs.events
    (r.2.candle_aggs.map (·.timeframe_sec) = cfg.candle_timeframes_sec) ∧
    ∀ agg ∈ r.2.candle_aggs, ∀ s,
      let log := events.filter (Event.inChart s agg.timeframe_sec)
      ((log.filterMap Event.flows).Pairwise (fun d e => d.bucket_start_ms ≤ e.bucket_start_ms)) ∧
      (∀ before e after, log = before ++ e :: after → InChart before e) ∧
      ∀ c ∈ agg.history s ++ (agg.current s).toList,
        lastOf CandleDict.bucket_start_ms c.bucket_start_ms (log.filterMap Event.data) =
          some c.to_dict := by
  intro r events
  obtain ⟨hevents, hcfg, hrem⟩ := run_calls_events upper cfg symbols persistence calls hown
  refine ⟨hcfg.timeframes, ?_⟩
  intro agg hagg s log
  obtain ⟨htf, hn⟩ := hcfg.aggregator hagg
  have hlog : log = _ :=
    (congrArg (List.filter (Event.inChart s agg.timeframe_sec)) hevents).trans (events_of_chart htf _)
  have hchart := chart_of_events agg.timeframe_sec cfg.candle_history_len
    (own s (r.1.flatten.flatMap Obs.processed))
  rw [← hlog] at hchart
  refine ⟨hchart.flows_sorted, hchart.causal, ?_⟩
  intro c hc
  apply hchart.last_data
  obtain ⟨hopen, hhist⟩ := (hrem s).stores agg hagg
  rw [hopen, hhist, hn] at hc
  exact hc

/-- Two symbols. The tick at 1900 comes after its candle was closed, and patches it. -/
theorem the_candle_events_rebuild_the_store_of_late :
    let tick (symbol : Symbol) (price : ℚ) (id time : Int) : Tick := ⟨symbol, price, 1, id, time, false, 0⟩
    let calls : List (Symbol × List Tick) := [("BTC-USD", [tick "BTC-USD" 100 1 1000, tick "BTC-USD" 110 2 2500]),
      ("ETH-USD", [tick "ETH-USD" 50 1 1800]), ("BTC-USD", [tick "BTC-USD" 90 3 1900])]
    let patched : CandleDict := ⟨"BTC-USD", 1, 1000, 100, 100, 90, 90, 2, 2, true⟩
    let r := run (fun p call => Pipeline.process_batch p call.1 call.2)
      (Pipeline.new id settings ["BTC-USD", "ETH-USD"] true) calls
    let events := r.1.flatten.flatMap Obs.events
    .candle_patched patched ∈ events ∧
      ∀ agg ∈ r.2.candle_aggs, ∀ c ∈ agg.history "BTC-USD" ++ (agg.current "BTC-USD").toList,
        lastOf CandleDict.bucket_start_ms c.bucket_start_ms
          ((events.filter (Event.inChart "BTC-USD" agg.timeframe_sec)).filterMap Event.data) =
            some c.to_dict := by
  intro tick calls patched r events
  have hown : ∀ call ∈ calls, ∀ t ∈ call.2, t.symbol = call.1 := by decide +kernel
  have hpatched : .candle_patched patched ∈ events := by decide +kernel
  have h := (the_candle_events_rebuild_the_store id settings ["BTC-USD", "ETH-USD"] true calls hown).2
  refine ⟨hpatched, ?_⟩
  dsimp only [events, r, calls, tick] at h ⊢
  intro agg hagg c hc
  exact (h agg hagg "BTC-USD").2.2 c hc

end tick_pipeline.pipeline
