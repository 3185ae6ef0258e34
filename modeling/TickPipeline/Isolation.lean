-- Symbols do not interfere: what one symbol sees of the shared objects is what
-- its own lane makes of them.
import TickPipeline.LaneRuns

namespace tick_pipeline.pipeline

open runs models candles vwap moving_average

/-- What can be read of a symbol: for each timeframe its history and its current candle, its
VWAP, its averages, and its stats less the rate. -/
structure View where
  candles : List (Int × List Candle × Option Candle)
  window : Window
  vwap : ℚ
  averages : Averages
  stats : SymbolStats

def Pipeline.view (p : Pipeline) (symbol : Symbol) : View :=
  { candles := p.candle_aggs.map (fun agg => (agg.timeframe_sec, agg.history symbol, agg.current symbol))
    window := p.vwap.window symbol
    vwap := p.vwap.value symbol
    averages := p.ma_tracker.averages symbol
    stats := withoutRate (p.stats symbol) }

/-- The view is a function of the lane. -/
theorem view_of_lane {cfg : Settings} {symbol : Symbol} {p : Pipeline} {lane : Lane}
    (hcfg : Configured cfg p) (h : HasLane cfg symbol p lane) :
    p.view symbol =
      { candles := cfg.candle_timeframes_sec.map (fun tf =>
          (tf, closedCandles tf cfg.candle_history_len lane.processed, openCandle tf lane.processed))
        window := windowOf (cfg.vwap_window_sec * 1000) lane.processed
        vwap := (windowOf (cfg.vwap_window_sec * 1000) lane.processed).value
        averages := averagesOf cfg.moving_average_periods lane.processed
        stats := lane.stat } := by
  obtain ⟨hstores, hwindow, haverages⟩ := h.remembers
  unfold Pipeline.view RollingVWAP.value
  rw [hwindow, haverages, h.stat_eq, hcfg.window_ms, hcfg.periods]
  have hcandles : p.candle_aggs.map
      (fun agg => (agg.timeframe_sec, agg.history symbol, agg.current symbol)) =
      cfg.candle_timeframes_sec.map (fun tf =>
        (tf, closedCandles tf cfg.candle_history_len lane.processed,
          openCandle tf lane.processed)) := by
    calc p.candle_aggs.map (fun agg => (agg.timeframe_sec, agg.history symbol, agg.current symbol))
        = (p.candle_aggs.map (fun agg => (agg.timeframe_sec, agg.history_len))).map
            (fun x => (x.1, closedCandles x.1 x.2 lane.processed, openCandle x.1 lane.processed)) := by
          rw [List.map_map]
          apply List.map_congr_left
          intro agg hagg
          obtain ⟨hopen, hhist⟩ := hstores agg hagg
          rw [hopen, hhist]
          rfl
      _ = _ := by
          rw [hcfg.aggs, List.map_map]
          rfl
  rw [hcandles]

/-- Two runs of a pipeline in which a symbol is given the same ticks and turns give the same
batches of that symbol, the same records, and the same view of it, whatever else the two runs
do in between. -/
theorem symbols_do_not_interfere (upper : Symbol → Symbol) (cfg : Settings) (symbols : List Symbol)
    (persistence : Bool) (symbol : Symbol) (ops₁ ops₂ : List Op)
    (h : ops₁.flatMap (Op.own symbol) = ops₂.flatMap (Op.own symbol)) :
    let r₁ := run (Pipeline.step cfg) (Pipeline.new upper cfg symbols persistence) ops₁
    let r₂ := run (Pipeline.step cfg) (Pipeline.new upper cfg symbols persistence) ops₂
    r₁.1.flatten.filter (Obs.batchOf symbol) = r₂.1.flatten.filter (Obs.batchOf symbol) ∧
      ((r₁.1.flatten.flatMap Obs.records).filter (fun rec => rec.symbol = symbol) =
        (r₂.1.flatten.flatMap Obs.records).filter (fun rec => rec.symbol = symbol)) ∧
      r₁.2.view symbol = r₂.2.view symbol := by
  intro r₁ r₂
  have hrecords₁ := run_records_of upper cfg symbols persistence symbol ops₁
  have hrecords₂ := run_records_of upper cfg symbols persistence symbol ops₂
  by_cases hk : symbol ∈ symbols.map upper
  · obtain ⟨hobs₁, hsound₁, hlane₁⟩ := run_lane upper cfg symbols persistence hk ops₁
    obtain ⟨hobs₂, hsound₂, hlane₂⟩ := run_lane upper cfg symbols persistence hk ops₂
    have hobs : r₁.1.flatten.filter (Obs.batchOf symbol) =
        r₂.1.flatten.filter (Obs.batchOf symbol) := by rw [hobs₁, hobs₂, h]
    refine ⟨hobs, ?_, ?_⟩
    · rw [hrecords₁, hrecords₂, hobs]
    · rw [view_of_lane hsound₁.configured hlane₁, view_of_lane hsound₂.configured hlane₂, h]
  · -- A symbol that the pipeline does not have: both runs keep its empty lane.
    obtain ⟨hobs₁, hlane₁⟩ := run_unknown upper cfg symbols persistence hk ops₁
    obtain ⟨hobs₂, hlane₂⟩ := run_unknown upper cfg symbols persistence hk ops₂
    have hobs : r₁.1.flatten.filter (Obs.batchOf symbol) =
        r₂.1.flatten.filter (Obs.batchOf symbol) := by rw [hobs₁, hobs₂]
    refine ⟨hobs, ?_, ?_⟩
    · rw [hrecords₁, hrecords₂, hobs]
    · have hsound₁ := run_sound upper cfg symbols persistence ops₁
      have hsound₂ := run_sound upper cfg symbols persistence ops₂
      rw [view_of_lane hsound₁.configured hlane₁, view_of_lane hsound₂.configured hlane₂]

/-- Two runs that differ in what happens around one symbol. No watermark holds a tick back, so each
turn processes one, and the third tick of each symbol patches a candle that has closed: in the
second run ETH-USD patches between the turns of BTC-USD. -/
theorem symbols_do_not_interfere_of_two :
    let cfg := { settings with reorder_watermark_ms := 0 }
    let btc (price : ℚ) (id time : Int) : Tick := ⟨"BTC-USD", price, 1, id, time, false, 0⟩
    let eth (price : ℚ) (id time : Int) : Tick := ⟨"ETH-USD", price, 2, id, time, true, 0⟩
    let ops₁ : List Op := [.ingest (btc 100 1 1000), .consume_symbol "BTC-USD", .ingest (btc 110 2 2500),
      .consume_symbol "BTC-USD", .ingest (btc 90 3 1900), .consume_symbol "BTC-USD"]
    let ops₂ : List Op := [.ingest (eth 50 7 1000), .ingest (btc 100 1 1000), .consume_symbol "ETH-USD",
      .consume_symbol "BTC-USD", .ingest_many [eth 55 8 2500, btc 110 2 2500], .consume_symbol "ETH-USD",
      .rate_round 1, .consume_symbol "BTC-USD", .ingest (eth 45 9 1900), .ingest (btc 90 3 1900),
      .consume_symbol "ETH-USD", .consume_symbol "BTC-USD"]
    let r₁ := run (Pipeline.step cfg) (Pipeline.new id cfg ["BTC-USD", "ETH-USD"] true) ops₁
    let r₂ := run (Pipeline.step cfg) (Pipeline.new id cfg ["BTC-USD", "ETH-USD"] true) ops₂
    r₂.1.flatten.flatMap Obs.processed = [eth 50 7 1000, btc 100 1 1000, eth 55 8 2500, btc 110 2 2500,
      eth 45 9 1900, btc 90 3 1900] ∧
      (.candle_patched ⟨"ETH-USD", 1, 1000, 50, 50, 45, 45, 4, 2, true⟩ ∈
        r₂.1.flatten.flatMap Obs.events) ∧
      (.candle_patched ⟨"BTC-USD", 1, 1000, 100, 100, 90, 90, 2, 2, true⟩ ∈
        (r₁.1.flatten.filter (Obs.batchOf "BTC-USD")).flatMap Obs.events) ∧
      (r₁.1.flatten.filter (Obs.batchOf "BTC-USD") = r₂.1.flatten.filter (Obs.batchOf "BTC-USD")) ∧
      r₁.2.view "BTC-USD" = r₂.2.view "BTC-USD" := by
  intro cfg btc eth ops₁ ops₂ r₁ r₂
  have hprocessed : r₂.1.flatten.flatMap Obs.processed = [eth 50 7 1000, btc 100 1 1000, eth 55 8 2500,
      btc 110 2 2500, eth 45 9 1900, btc 90 3 1900] := by
    decide +kernel
  have hpatched₂ : .candle_patched ⟨"ETH-USD", 1, 1000, 50, 50, 45, 45, 4, 2, true⟩ ∈
      r₂.1.flatten.flatMap Obs.events := by
    decide +kernel
  have hpatched₁ : .candle_patched ⟨"BTC-USD", 1, 1000, 100, 100, 90, 90, 2, 2, true⟩ ∈
      (r₁.1.flatten.filter (Obs.batchOf "BTC-USD")).flatMap Obs.events := by
    decide +kernel
  have hsame : ops₁.flatMap (Op.own "BTC-USD") = ops₂.flatMap (Op.own "BTC-USD") := by
    decide +kernel
  have h := symbols_do_not_interfere id cfg ["BTC-USD", "ETH-USD"] true "BTC-USD" ops₁ ops₂ hsame
  refine ⟨hprocessed, hpatched₂, hpatched₁, ?_⟩
  dsimp only [r₁, r₂, ops₁, ops₂, btc, eth, cfg] at h ⊢
  exact ⟨h.1, h.2.2⟩

end tick_pipeline.pipeline
