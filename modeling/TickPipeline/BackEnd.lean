-- The back end of the pipeline: what `_process_batch` does to the aggregators, the
-- VWAP and the averages. For one symbol all of it is a function of the ticks of
-- that symbol, so that what a batch gives out depends on those ticks alone.
import TickPipeline.CandleLaws
import TickPipeline.Pipeline

namespace tick_pipeline.pipeline

open runs models candles vwap moving_average emitted

/-! ## What a tick gives out, as a function of the ticks of its symbol before it -/

/-- The candles recorded for one timeframe. -/
def candleRows (tf : Int) (n : Nat) (before : List Tick) (t : Tick) : List CandleDict :=
  (closedBy tf before t).toList.map Candle.to_dict ++
    (patchedBy tf n before t).toList.map Candle.to_dict

/-- The events of one timeframe. -/
def candleEvents (tf : Int) (n : Nat) (before : List Tick) (t : Tick) : List Event :=
  ((closedBy tf before t).toList.map Candle.to_dict).map .candle_closed ++
    ((patchedBy tf n before t).toList.map Candle.to_dict).map .candle_patched ++
    ((openCandle tf (before ++ [t])).toList.map Candle.to_dict).map .candle_update

def vwapAfter (cfg : Settings) (ticks : List Tick) : ℚ :=
  (windowOf (cfg.vwap_window_sec * 1000) ticks).value

def averagesAfter (cfg : Settings) (before : List Tick) (t : Tick) : MovingAverages :=
  ((averagesOf cfg.moving_average_periods before).update cfg.moving_average_periods t.price).1

def tickData (cfg : Settings) (before : List Tick) (t : Tick) : TickData :=
  { symbol := t.symbol
    price := t.price
    quantity := t.quantity
    event_time_ms := t.event_time_ms
    side := side t
    vwap := vwapAfter cfg (before ++ [t])
    moving_averages := averagesAfter cfg before t }

def tickEvents (cfg : Settings) (before : List Tick) (t : Tick) : List Event :=
  cfg.candle_timeframes_sec.flatMap (fun tf => candleEvents tf cfg.candle_history_len before t) ++
    [.tick (tickData cfg before t)]

def tickRecords (cfg : Settings) (before : List Tick) (t : Tick) : List Record :=
  .tick t :: (cfg.candle_timeframes_sec.flatMap
    (fun tf => candleRows tf cfg.candle_history_len before t)).map .candle

def tickStat (cfg : Settings) (before : List Tick) (t : Tick) (stat : SymbolStats) : SymbolStats :=
  { stat with
    msgs_total := stat.msgs_total + 1
    last_price := t.price
    vwap := vwapAfter cfg (before ++ [t])
    moving_averages := averagesAfter cfg before t }

/-- The stats after the ticks of a batch. -/
def ticksStat (cfg : Settings) : List Tick → List Tick → SymbolStats → SymbolStats
  | _, [], stat => stat
  | before, t :: now, stat => ticksStat cfg (before ++ [t]) now (tickStat cfg before t stat)

/-! ## The refinement -/

/-- The shared objects have the parameters of the settings. -/
structure Configured (cfg : Settings) (p : Pipeline) : Prop where
  aggs : p.candle_aggs.map (fun agg => (agg.timeframe_sec, agg.history_len)) =
    cfg.candle_timeframes_sec.map (fun tf => (tf, cfg.candle_history_len))
  window_ms : p.vwap.window_ms = cfg.vwap_window_sec * 1000
  periods : p.ma_tracker.periods = cfg.moving_average_periods

/-- Every aggregator holds, for a symbol, the store of the given ticks. -/
def AllStore (p : Pipeline) (s : Symbol) (ticks : List Tick) : Prop :=
  ∀ agg ∈ p.candle_aggs, Stores agg s ticks

/-- All that the shared objects hold for a symbol comes from the given ticks. -/
structure Remembers (p : Pipeline) (s : Symbol) (ticks : List Tick) : Prop where
  stores : AllStore p s ticks
  window : p.vwap.window s = windowOf p.vwap.window_ms ticks
  averages : p.ma_tracker.averages s = averagesOf p.ma_tracker.periods ticks

theorem configured_new (upper : Symbol → Symbol) (cfg : Settings) (symbols : List Symbol)
    (persistence : Bool) : Configured cfg (Pipeline.new upper cfg symbols persistence) :=
  ⟨by simp [Pipeline.new, CandleAggregator.new, Function.comp_def], rfl, rfl⟩

theorem remembers_new (upper : Symbol → Symbol) (cfg : Settings) (symbols : List Symbol)
    (persistence : Bool) (s : Symbol) :
    Remembers (Pipeline.new upper cfg symbols persistence) s [] := by
  refine ⟨?_, rfl, rfl⟩
  intro agg hagg
  obtain ⟨tf, _, rfl⟩ := List.mem_map.mp hagg
  exact stores_new tf _ s

/-! ## One timeframe -/

theorem feed_settings (symbol : Symbol) (t : Tick) (agg : CandleAggregator) :
    (feed symbol t agg).2.timeframe_sec = agg.timeframe_sec ∧
      (feed symbol t agg).2.history_len = agg.history_len := apply_settings agg t

/-- The rows recorded for a timeframe are those of the tick's own symbol. -/
theorem feed_rows {agg : CandleAggregator} {t : Tick} {ticks : List Tick} (symbol : Symbol)
    (h : Stores agg t.symbol ticks) :
    (feed symbol t agg).1.2 = candleRows agg.timeframe_sec agg.history_len ticks t := by
  obtain ⟨h1, h2, _⟩ := apply.spec agg t ticks h
  rw [candleRows, ← h1, ← h2]
  rfl

theorem feed_events {agg : CandleAggregator} {t : Tick} {ticks : List Tick}
    (h : Stores agg t.symbol ticks) :
    (feed t.symbol t agg).1.1 = candleEvents agg.timeframe_sec agg.history_len ticks t := by
  obtain ⟨h1, h2, h3⟩ := apply.spec agg t ticks h
  have h4 := h3.open_eq
  rw [(apply_settings agg t).1] at h4
  rw [candleEvents, ← h1, ← h2, ← h4]
  rfl

theorem feed_own {agg : CandleAggregator} {t : Tick} {ticks : List Tick} (symbol : Symbol)
    (h : Stores agg t.symbol ticks) : Stores (feed symbol t agg).2 t.symbol (ticks ++ [t]) := by
  obtain ⟨h1, h2⟩ := (apply.spec agg t ticks h).2.2
  exact ⟨h1, h2⟩

theorem feed_other {agg : CandleAggregator} {t : Tick} {s : Symbol} {ticks : List Tick}
    (symbol : Symbol) (hs : s ≠ t.symbol) (h : Stores agg s ticks) :
    Stores (feed symbol t agg).2 s ticks := by
  obtain ⟨h1, h2⟩ := apply_other agg t s hs
  obtain ⟨h3, h4⟩ := feed_settings symbol t agg
  refine ⟨?_, ?_⟩
  · rw [h3, ← h.open_eq, ← h1]
    rfl
  · rw [h3, h4, ← h.history_eq, ← h2]
    rfl

theorem Configured.timeframes {cfg : Settings} {p : Pipeline} (h : Configured cfg p) :
    p.candle_aggs.map (·.timeframe_sec) = cfg.candle_timeframes_sec := by
  have := congrArg (List.map Prod.fst) h.aggs
  simpa [Function.comp_def] using this

theorem Configured.aggregator {cfg : Settings} {p : Pipeline} (h : Configured cfg p)
    {agg : CandleAggregator} (hagg : agg ∈ p.candle_aggs) :
    agg.timeframe_sec ∈ cfg.candle_timeframes_sec ∧ agg.history_len = cfg.candle_history_len := by
  have hmem : (agg.timeframe_sec, agg.history_len) ∈
      cfg.candle_timeframes_sec.map (fun tf => (tf, cfg.candle_history_len)) := by
    rw [← h.aggs]
    exact List.mem_map_of_mem hagg
  obtain ⟨tf, htf, heq⟩ := List.mem_map.mp hmem
  obtain ⟨htfeq, hneq⟩ := Prod.mk.inj heq
  exact ⟨htfeq ▸ htf, hneq.symm⟩

/-- What all timeframes give together, once each gives a function of its parameters. -/
theorem flatMap_aggs {β : Type} {cfg : Settings} {p : Pipeline} (hcfg : Configured cfg p)
    (f : CandleAggregator → List β) (g : Int → Nat → List β)
    (h : ∀ agg ∈ p.candle_aggs, f agg = g agg.timeframe_sec agg.history_len) :
    p.candle_aggs.flatMap f =
      cfg.candle_timeframes_sec.flatMap (fun tf => g tf cfg.candle_history_len) := by
  calc p.candle_aggs.flatMap f
      = p.candle_aggs.flatMap (fun agg => g agg.timeframe_sec agg.history_len) :=
        List.flatMap_congr h
    _ = (p.candle_aggs.map (fun agg => (agg.timeframe_sec, agg.history_len))).flatMap
          (fun x => g x.1 x.2) := by rw [List.flatMap_map]
    _ = _ := by rw [hcfg.aggs, List.flatMap_map]

/-! ## One tick -/

section one_tick

variable {cfg : Settings} {p : Pipeline} (symbol : Symbol) (t : Tick)

@[simp] theorem process_tick_symbols : (p.process_tick symbol t).2.symbols = p.symbols := rfl
@[simp] theorem process_tick_persistence :
    (p.process_tick symbol t).2.persistence = p.persistence := rfl
@[simp] theorem process_tick_ring_buffers :
    (p.process_tick symbol t).2.ring_buffers = p.ring_buffers := rfl
@[simp] theorem process_tick_sequencers :
    (p.process_tick symbol t).2.sequencers = p.sequencers := rfl

theorem process_tick_configured (hcfg : Configured cfg p) :
    Configured cfg (p.process_tick symbol t).2 := by
  refine ⟨?_, hcfg.window_ms, hcfg.periods⟩
  rw [← hcfg.aggs]
  unfold Pipeline.process_tick
  simp only [List.map_map]
  apply List.map_congr_left
  intro agg _
  obtain ⟨h1, h2⟩ := feed_settings symbol t agg
  simp [h1, h2]

theorem process_tick_stores {P : List Tick} (h : ∀ s, AllStore p s (own s P)) (s : Symbol) :
    AllStore (p.process_tick symbol t).2 s (own s (P ++ [t])) := by
  intro agg hagg
  simp only [Pipeline.process_tick, List.map_map, List.mem_map] at hagg
  obtain ⟨agg, hagg, rfl⟩ := hagg
  rw [own_snoc]
  by_cases hs : t.symbol = s
  · subst hs
    rw [if_pos rfl]
    exact feed_own symbol (h t.symbol agg hagg)
  · rw [if_neg hs, List.append_nil]
    exact feed_other symbol (Ne.symm hs) (h s agg hagg)

theorem process_tick_records {ticks : List Tick} (hcfg : Configured cfg p)
    (h : AllStore p t.symbol ticks) :
    (p.process_tick symbol t).1.2 = if p.persistence then tickRecords cfg ticks t else [] := by
  have hrows := flatMap_aggs hcfg (fun agg => (feed symbol t agg).1.2)
    (fun tf n => candleRows tf n ticks t) (fun agg hagg => feed_rows symbol (h agg hagg))
  unfold Pipeline.process_tick tickRecords
  dsimp only
  rw [List.flatMap_map, hrows]

theorem process_tick_events {before : List Tick} (hcfg : Configured cfg p)
    (h : Remembers p t.symbol before) :
    (p.process_tick t.symbol t).1.1 = tickEvents cfg before t := by
  have hevents := flatMap_aggs hcfg (fun agg => (feed t.symbol t agg).1.1)
    (fun tf n => candleEvents tf n before t) (fun agg hagg => feed_events (h.stores agg hagg))
  unfold Pipeline.process_tick tickEvents tickData vwapAfter averagesAfter
  dsimp only
  rw [List.flatMap_map, hevents, update_value, h.window, ← windowOf_snoc, hcfg.window_ms, update_out,
    h.averages, hcfg.periods]

theorem process_tick_stat {before : List Tick} (hcfg : Configured cfg p)
    (h : Remembers p t.symbol before) :
    (p.process_tick t.symbol t).2.stats t.symbol = tickStat cfg before t (p.stats t.symbol) := by
  unfold Pipeline.process_tick tickStat vwapAfter averagesAfter
  dsimp only
  rw [Function.update_self, update_value, h.window, ← windowOf_snoc, hcfg.window_ms, update_out,
    h.averages, hcfg.periods]

theorem process_tick_own {before : List Tick} (h : Remembers p t.symbol before) :
    Remembers (p.process_tick t.symbol t).2 t.symbol (before ++ [t]) := by
  obtain ⟨h1, h2, h3⟩ := h
  refine ⟨?_, ?_, ?_⟩
  · intro agg hagg
    simp only [Pipeline.process_tick, List.map_map, List.mem_map] at hagg
    obtain ⟨agg, hagg, rfl⟩ := hagg
    exact feed_own t.symbol (h1 agg hagg)
  · exact (update_own p.vwap t).trans (by rw [h2, ← windowOf_snoc]; rfl)
  · exact (moving_average.update_own p.ma_tracker t.symbol t.price).trans
      (by rw [h3, ← averagesOf_snoc]; rfl)

theorem process_tick_other {s : Symbol} {ticks : List Tick} (hs : s ≠ t.symbol)
    (h : Remembers p s ticks) : Remembers (p.process_tick t.symbol t).2 s ticks := by
  obtain ⟨h1, h2, h3⟩ := h
  refine ⟨?_, ?_, ?_⟩
  · intro agg hagg
    simp only [Pipeline.process_tick, List.map_map, List.mem_map] at hagg
    obtain ⟨agg, hagg, rfl⟩ := hagg
    exact feed_other t.symbol hs (h1 agg hagg)
  · exact (vwap.update_other p.vwap t hs).trans h2
  · exact (moving_average.update_other p.ma_tracker t.price hs).trans h3

theorem process_tick_stat_other {s : Symbol} (hs : s ≠ symbol) :
    (p.process_tick symbol t).2.stats s = p.stats s ∧
      (p.process_tick symbol t).2.msg_counts_window s = p.msg_counts_window s := by
  unfold Pipeline.process_tick
  dsimp only
  rw [Function.update_of_ne hs, Function.update_of_ne hs]
  exact ⟨rfl, rfl⟩

end one_tick

/-! ## The ticks of a batch -/

section batch

variable {cfg : Settings} {p : Pipeline}

theorem process_ticks_frame (symbol : Symbol) (ticks : List Tick) :
    let q := (run (Pipeline.process_tick symbol) p ticks).2
    q.symbols = p.symbols ∧ q.persistence = p.persistence ∧ q.ring_buffers = p.ring_buffers ∧
      q.sequencers = p.sequencers := by
  apply run_invariant (Pipeline.process_tick symbol) (P := fun q => q.symbols = p.symbols ∧
    q.persistence = p.persistence ∧ q.ring_buffers = p.ring_buffers ∧ q.sequencers = p.sequencers)
  · intro q t h
    exact h
  · exact ⟨rfl, rfl, rfl, rfl⟩

theorem process_ticks_configured (symbol : Symbol) (ticks : List Tick) (hcfg : Configured cfg p) :
    Configured cfg (run (Pipeline.process_tick symbol) p ticks).2 := by
  apply run_invariant (Pipeline.process_tick symbol) (P := Configured cfg)
  · intro q t hq
    exact process_tick_configured symbol t hq
  · exact hcfg

/-- The ticks of one symbol, on the pipeline and on the closed form. -/
theorem process_ticks.spec {s : Symbol} {before : List Tick} (ticks : List Tick)
    (hcfg : Configured cfg p) (h : Remembers p s before) (hs : ∀ t ∈ ticks, t.symbol = s) :
    let r := run (Pipeline.process_tick s) p ticks
    r.1.flatMap (·.1) = outputs (tickEvents cfg) before ticks ∧
      r.1.flatMap (·.2) = (if p.persistence then outputs (tickRecords cfg) before ticks else []) ∧
      Configured cfg r.2 ∧ Remembers r.2 s (before ++ ticks) ∧
      r.2.stats s = ticksStat cfg before ticks (p.stats s) := by
  induction ticks generalizing p before with
  | nil =>
    refine ⟨rfl, ?_, hcfg, by simpa using h, rfl⟩
    split <;> rfl
  | cons t ticks ih =>
    obtain rfl : t.symbol = s := hs t (by simp)
    obtain ⟨h1, h2, h3, h4, h5⟩ := ih (process_tick_configured t.symbol t hcfg)
      (process_tick_own t h) (fun u hu => hs u (by simp [hu]))
    refine ⟨?_, ?_, h3, ?_, ?_⟩
    · simp only [run_cons, List.flatMap_cons, outputs_cons]
      rw [h1, process_tick_events t hcfg h]
    · simp only [run_cons, List.flatMap_cons, outputs_cons]
      rw [h2, process_tick_records t.symbol t hcfg h.stores, process_tick_persistence]
      by_cases hp : p.persistence <;> simp [hp]
    · rw [List.append_assoc] at h4
      exact h4
    · simp only [run_cons, ticksStat]
      rw [h5, process_tick_stat t hcfg h]

theorem process_ticks_other {s symbol : Symbol} {before : List Tick} (ticks : List Tick)
    (hne : s ≠ symbol) (hs : ∀ t ∈ ticks, t.symbol = symbol) (h : Remembers p s before) :
    let q := (run (Pipeline.process_tick symbol) p ticks).2
    Remembers q s before ∧ q.stats s = p.stats s ∧
      q.msg_counts_window s = p.msg_counts_window s := by
  induction ticks generalizing p with
  | nil => exact ⟨h, rfl, rfl⟩
  | cons t ticks ih =>
    obtain rfl : t.symbol = symbol := hs t (by simp)
    obtain ⟨h1, h2, h3⟩ := ih (fun u hu => hs u (by simp [hu])) (process_tick_other t hne h)
    obtain ⟨h4, h5⟩ := process_tick_stat_other (p := p) t.symbol t hne
    exact ⟨h1, h2.trans h4, h3.trans h5⟩

end batch

end tick_pipeline.pipeline
