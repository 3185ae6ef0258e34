-- The pipeline of `processing/pipeline.py`: ring buffer, sequencer and back end of
-- each symbol, wired together. The steps of the machine are what the code does
-- between two awaits: an ingest call, one turn of a consumer, one rate round.
import TickPipeline.RingBuffer
import TickPipeline.Sequencer
import TickPipeline.Candles
import TickPipeline.Vwap
import TickPipeline.MovingAverage

namespace tick_pipeline.pipeline

open runs models ring_buffer sequencer candles vwap moving_average

/-! ## What a batch gives out -/

inductive Side
  | buy
  | sell
deriving DecidableEq

/-- The data of a `tick` event. -/
structure TickData where
  symbol : Symbol
  price : ℚ
  quantity : ℚ
  event_time_ms : Int
  side : Side
  vwap : ℚ
  moving_averages : MovingAverages
deriving DecidableEq

/-- An event of the list that `_process_batch` returns, by its `type`. -/
inductive Event
  | candle_closed (data : CandleDict)
  | candle_patched (data : CandleDict)
  | candle_update (data : CandleDict)
  | tick (data : TickData)
deriving DecidableEq

/-- A call on the persistence sink. -/
inductive Record
  | tick (tick : Tick)
  | candle (candle_dict : CandleDict)
deriving DecidableEq

/-- What a step lets the outside see: a call of `_process_batch` with what it returned and
recorded, a count that the rate loop read, or an exception that ended a consumer. -/
inductive Obs
  | batch (symbol : Symbol) (ticks : List Tick) (events : List Event) (records : List Record)
  | rate (symbol : Symbol) (count : Nat)
  | raised (symbol : Symbol)
deriving DecidableEq

/-! ## The code -/

/-- The dicts of the code that have one entry for each of `symbols` are functions here, read
only where the code finds the key. -/
structure Pipeline where
  symbols : List Symbol
  /-- Whether there is a persistence sink. -/
  persistence : Bool
  ring_buffers : Symbol → RingBuffer Tick
  sequencers : Symbol → Sequencer
  candle_aggs : List CandleAggregator
  vwap : RollingVWAP
  ma_tracker : MovingAverageTracker
  stats : Symbol → SymbolStats
  msg_counts_window : Symbol → Nat

/-- `Pipeline.__init__`. Nothing here looks into `upper`, which is `str.upper`. -/
def Pipeline.new (upper : Symbol → Symbol) (cfg : Settings) (symbols : List Symbol)
    (persistence : Bool) : Pipeline :=
  { symbols := symbols.map upper
    persistence
    ring_buffers := fun _ => RingBuffer.new Tick cfg.ring_buffer_capacity
    sequencers := fun _ => Sequencer.new cfg.reorder_watermark_ms
    candle_aggs := cfg.candle_timeframes_sec.map
      (fun tf => CandleAggregator.new tf cfg.candle_history_len)
    vwap := RollingVWAP.new cfg.vwap_window_sec
    ma_tracker := MovingAverageTracker.new cfg.moving_average_periods
    stats := fun s => { symbol := s }
    msg_counts_window := fun _ => 0 }

def Pipeline.ingest (p : Pipeline) (tick : Tick) : Pipeline :=
  if tick.symbol ∈ p.symbols then
    { p with
      ring_buffers := Function.update p.ring_buffers tick.symbol
        ((p.ring_buffers tick.symbol).push_nowait tick).2 }
  else p

def Pipeline.ingest_many (p : Pipeline) (ticks : List Tick) : Pipeline :=
  ticks.foldl Pipeline.ingest p

/-- The body of the loop over the timeframes: the events, the candles recorded, and the
aggregator. -/
def feed (symbol : Symbol) (tick : Tick) (agg : CandleAggregator) :
    (List Event × List CandleDict) × CandleAggregator :=
  let (closed, agg) := agg.apply tick
  let (patched, agg) := agg.take_patch
  let closed := closed.toList.map Candle.to_dict
  let patched := patched.toList.map Candle.to_dict
  let current := (agg.current symbol).toList.map Candle.to_dict
  ((closed.map .candle_closed ++ patched.map .candle_patched ++ current.map .candle_update,
    closed ++ patched), agg)

def side (tick : Tick) : Side := if tick.is_buyer_maker then .sell else .buy

/-- The body of the loop over the ticks. It gives the events, and the calls that the sink gets. -/
def Pipeline.process_tick (symbol : Symbol) (p : Pipeline) (tick : Tick) :
    (List Event × List Record) × Pipeline :=
  let fed := p.candle_aggs.map (feed symbol tick)
  let (vwap_val, vwap) := p.vwap.update tick
  let (ma_vals, ma_tracker) := p.ma_tracker.update symbol tick.price
  let stat := p.stats symbol
  let records := .tick tick :: (fed.flatMap (·.1.2)).map .candle
  let data : TickData :=
    { symbol
      price := tick.price
      quantity := tick.quantity
      event_time_ms := tick.event_time_ms
      side := side tick
      vwap := vwap_val
      moving_averages := ma_vals }
  ((fed.flatMap (·.1.1) ++ [.tick data], if p.persistence then records else []),
    { p with
      candle_aggs := fed.map (·.2)
      vwap
      ma_tracker
      msg_counts_window := Function.update p.msg_counts_window symbol (p.msg_counts_window symbol + 1)
      stats := Function.update p.stats symbol
        { stat with
          msgs_total := stat.msgs_total + 1
          last_price := tick.price
          vwap := vwap_val
          moving_averages := ma_vals } })

/-- The stats that `_process_batch` copies from the buffer and the sequencer at its end. -/
def refresh (buf : RingBuffer Tick) (seq : Sequencer) (stat : SymbolStats) : SymbolStats :=
  { stat with
    dropped_ring_buffer := buf.dropped
    out_of_order_count := seq.out_of_order_count
    gap_count := seq.gap_count
    buffer_depth := buf.depth
    buffer_capacity := buf.capacity }

def Pipeline.refresh_stats (p : Pipeline) (symbol : Symbol) : Pipeline :=
  { p with
    stats := Function.update p.stats symbol
      (refresh (p.ring_buffers symbol) (p.sequencers symbol) (p.stats symbol)) }

/-- `_process_batch`. It raises a `KeyError` on an unknown symbol, before it changes anything. -/
def Pipeline.process_batch (p : Pipeline) (symbol : Symbol) (ticks : List Tick) :
    List Obs × Pipeline :=
  if symbol ∈ p.symbols then
    let (outs, p) := run (Pipeline.process_tick symbol) p ticks
    ([.batch symbol ticks (outs.flatMap (·.1)) (outs.flatMap (·.2))], p.refresh_stats symbol)
  else ([.raised symbol], p)

/-- The loop that offers a drained batch. An empty slot would raise, and end it. -/
def offer_all : List (Option Tick) → Sequencer → Bool × Sequencer
  | [], seq => (true, seq)
  | none :: _, seq => (false, seq)
  | some tick :: rest, seq => offer_all rest (seq.offer tick)

/-- The first half of a turn of `_consume_symbol`: drains a batch, offers it and polls. It gives
the ready ticks, none when the batch is empty, or nothing when an offer raised. -/
def gather (cfg : Settings) (buf : RingBuffer Tick) (seq : Sequencer) :
    Option (List Tick) × RingBuffer Tick × Sequencer :=
  let (batch, buf) := buf.drain_nowait (some cfg.batch_max_size)
  if batch = [] then (some [], buf, seq)
  else
    match offer_all batch seq with
    | (false, seq) => (none, buf, seq)
    | (true, seq) =>
      let (ready, seq) := seq.poll_ready
      (some ready, buf, seq)

/-- One turn of `_consume_symbol`. The drain waits for a first item at most, and nothing awaits
between its end and that of `_process_batch`. -/
def Pipeline.consume_symbol (cfg : Settings) (p : Pipeline) (symbol : Symbol) :
    List Obs × Pipeline :=
  if symbol ∈ p.symbols then
    let (ready, buf, seq) := gather cfg (p.ring_buffers symbol) (p.sequencers symbol)
    let p := { p with
      ring_buffers := Function.update p.ring_buffers symbol buf
      sequencers := Function.update p.sequencers symbol seq }
    match ready with
    | none => ([.raised symbol], p)
    | some [] => ([], p)
    | some ready => p.process_batch symbol ready
  else ([.raised symbol], p)

/-- The body of the loop of `_rate_loop` over the symbols. -/
def Pipeline.rate_symbol (elapsed : ℚ) (p : Pipeline) (symbol : Symbol) : Obs × Pipeline :=
  let count := p.msg_counts_window symbol
  (.rate symbol count,
    { p with
      msg_counts_window := Function.update p.msg_counts_window symbol 0
      stats := Function.update p.stats symbol
        { p.stats symbol with msgs_per_sec := if elapsed > 0 then count / elapsed else 0 } })

/-- One turn of `_rate_loop`, `elapsed` seconds after the one before. -/
def Pipeline.rate_round (p : Pipeline) (elapsed : ℚ) : List Obs × Pipeline :=
  run (Pipeline.rate_symbol elapsed) p p.symbols

/-! ## The machine -/

/-- What can happen between two awaits. -/
inductive Op
  | ingest (tick : Tick)
  | ingest_many (ticks : List Tick)
  | consume_symbol (symbol : Symbol)
  | rate_round (elapsed : ℚ)

def Pipeline.step (cfg : Settings) (p : Pipeline) : Op → List Obs × Pipeline
  | .ingest tick => ([], p.ingest tick)
  | .ingest_many ticks => ([], p.ingest_many ticks)
  | .consume_symbol symbol => p.consume_symbol cfg symbol
  | .rate_round elapsed => p.rate_round elapsed

/-- The ticks that an op ingests. -/
def Op.ingested : Op → List Tick
  | .ingest tick => [tick]
  | .ingest_many ticks => ticks
  | .consume_symbol _ => []
  | .rate_round _ => []

/-- The symbol that an observation is about. -/
def Obs.symbol : Obs → Symbol
  | .batch symbol _ _ _ => symbol
  | .rate symbol _ => symbol
  | .raised symbol => symbol

/-- The ticks that `_process_batch` was called on. -/
def Obs.processed : Obs → List Tick
  | .batch _ ticks _ _ => ticks
  | .rate _ _ => []
  | .raised _ => []

def Obs.events : Obs → List Event
  | .batch _ _ events _ => events
  | .rate _ _ => []
  | .raised _ => []

def Obs.records : Obs → List Record
  | .batch _ _ _ records => records
  | .rate _ _ => []
  | .raised _ => []

/-- The count that the rate loop read. -/
def Obs.count : Obs → Nat
  | .batch _ _ _ _ => 0
  | .rate _ count => count
  | .raised _ => 0

def Record.ticks : Record → Option Tick
  | .tick t => some t
  | .candle _ => none

def Record.candles : Record → Option CandleDict
  | .tick _ => none
  | .candle row => some row

end tick_pipeline.pipeline
