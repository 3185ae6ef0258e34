-- The shared data of the pipeline: ticks, candles, the stats of a symbol, and
-- the settings. Prices and quantities are exact rationals: the laws of this
-- development are about exact arithmetic, not about rounding.
import Mathlib.Algebra.Order.Ring.Rat

namespace tick_pipeline.models

abbrev Symbol := String

structure Tick where
  symbol : Symbol
  price : ℚ
  quantity : ℚ
  trade_id : Int
  event_time_ms : Int
  is_buyer_maker : Bool
  recv_time_ms : Int
deriving DecidableEq

/-- A candle. `open` is a Lean keyword, so the field is `open_`. -/
structure Candle where
  symbol : Symbol
  timeframe_sec : Int
  bucket_start_ms : Int
  open_ : ℚ
  high : ℚ
  low : ℚ
  close : ℚ
  volume : ℚ := 0
  trade_count : Nat := 0
  closed : Bool := false
deriving DecidableEq

/-- What `Candle.to_dict` copies out. A candle changes in place later, its dict does not. -/
structure CandleDict where
  symbol : Symbol
  timeframe_sec : Int
  bucket_start_ms : Int
  open_ : ℚ
  high : ℚ
  low : ℚ
  close : ℚ
  volume : ℚ
  trade_count : Nat
  closed : Bool
deriving DecidableEq

def Candle.to_dict (c : Candle) : CandleDict :=
  { symbol := c.symbol
    timeframe_sec := c.timeframe_sec
    bucket_start_ms := c.bucket_start_ms
    open_ := c.open_
    high := c.high
    low := c.low
    close := c.close
    volume := c.volume
    trade_count := c.trade_count
    closed := c.closed }

/-- The key of an entry of the moving averages: `f"sma_{p}"` or `f"ema_{p}"`. -/
inductive AverageName
  | sma (period : Nat)
  | ema (period : Nat)
deriving DecidableEq

/-- A dict of moving averages, in insertion order. `None` is an SMA with too few prices. -/
abbrev MovingAverages := List (AverageName × Option ℚ)

structure SymbolStats where
  symbol : Symbol
  last_price : ℚ := 0
  vwap : ℚ := 0
  moving_averages : MovingAverages := []
  msgs_total : Nat := 0
  msgs_per_sec : ℚ := 0
  dropped_ring_buffer : Nat := 0
  out_of_order_count : Nat := 0
  gap_count : Int := 0
  buffer_depth : Nat := 0
  buffer_capacity : Nat := 0
deriving DecidableEq

/-- `round(x, 2)`: the nearest hundredth, and the even one of two. -/
def round2 (x : ℚ) : ℚ :=
  let below := (x * 100).floor
  let rest := x * 100 - below
  if rest < 1 / 2 then below / 100
  else if 1 / 2 < rest then (below + 1) / 100
  else if below % 2 = 0 then below / 100
  else (below + 1) / 100

/-- The dict has the fields of the dataclass. -/
def SymbolStats.to_dict (stat : SymbolStats) : SymbolStats :=
  { stat with msgs_per_sec := round2 stat.msgs_per_sec }

/-- The settings that the pipeline reads. `RingBuffer` raises on a capacity of 0. The timeframes
and the periods are constants: a timeframe of 0 would divide by zero, the timeframes are the keys
of a dict, and a period of 0 would index an empty deque. The history length is one from 0 on.
Nothing refuses a negative one before a candle closes: `NegativeHistory` has what it does then. -/
structure Settings where
  ring_buffer_capacity : Nat
  batch_max_size : Int
  reorder_watermark_ms : Int
  candle_timeframes_sec : List Int
  vwap_window_sec : Int
  moving_average_periods : List Nat
  candle_history_len : Nat
  capacity_pos : 0 < ring_buffer_capacity
  timeframes_pos : ∀ tf ∈ candle_timeframes_sec, 1 ≤ tf
  timeframes_nodup : candle_timeframes_sec.Nodup
  periods_pos : ∀ p ∈ moving_average_periods, 1 ≤ p

/-- The defaults of `Settings`. -/
def settings : Settings where
  ring_buffer_capacity := 16384
  batch_max_size := 256
  reorder_watermark_ms := 250
  candle_timeframes_sec := [1, 5, 60]
  vwap_window_sec := 60
  moving_average_periods := [20, 50]
  candle_history_len := 500
  capacity_pos := by decide
  timeframes_pos := by decide
  timeframes_nodup := by decide
  periods_pos := by decide

end tick_pipeline.models
