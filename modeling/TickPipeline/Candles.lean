-- The candle aggregator of `processing/candles.py`, and what it stands for: the
-- store of a symbol is a function of the ticks of that symbol, one candle for
-- each bucket that was once the newest, each the merge of all its ticks.
import TickPipeline.Models
import TickPipeline.Lib.StrictMaxima
import TickPipeline.Lib.Emitted
import Mathlib.Logic.Function.Basic

namespace tick_pipeline.candles

open models strict_maxima last_n

/-! ## The code -/

/-- The aggregator of one timeframe, for all symbols. -/
structure CandleAggregator where
  timeframe_sec : Int
  history_len : Nat
  open_ : Symbol → Option Candle
  history_ : Symbol → Option (List Candle)
  late_patches : Nat
  last_patch : Option Candle

def CandleAggregator.new (timeframe_sec : Int) (history_len : Nat) : CandleAggregator :=
  { timeframe_sec
    history_len
    open_ := fun _ => none
    history_ := fun _ => none
    late_patches := 0
    last_patch := none }

/-- `(event_time_ms // bucket_ms) * bucket_ms`. Python's `//` rounds down, as `Int.fdiv`. -/
def bucket_start (timeframe_sec event_time_ms : Int) : Int :=
  let bucket_ms := timeframe_sec * 1000
  event_time_ms.fdiv bucket_ms * bucket_ms

def CandleAggregator.history (agg : CandleAggregator) (symbol : Symbol) : List Candle :=
  (agg.history_ symbol).getD []

def CandleAggregator.current (agg : CandleAggregator) (symbol : Symbol) : Option Candle :=
  agg.open_ symbol

/-- Hands out the candle that the last `apply` patched, once. -/
def CandleAggregator.take_patch (agg : CandleAggregator) : Option Candle × CandleAggregator :=
  (agg.last_patch, { agg with last_patch := none })

def new_candle (timeframe_sec : Int) (tick : Tick) (bucket_start : Int) : Candle :=
  { symbol := tick.symbol
    timeframe_sec
    bucket_start_ms := bucket_start
    open_ := tick.price
    high := tick.price
    low := tick.price
    close := tick.price
    volume := tick.quantity
    trade_count := 1 }

def merge (candle : Candle) (tick : Tick) : Candle :=
  { candle with
    high := max candle.high tick.price
    low := min candle.low tick.price
    close := tick.price
    volume := candle.volume + tick.quantity
    trade_count := candle.trade_count + 1 }

/-- The append of a `deque` with a `maxlen`: the oldest candle goes when it is full. -/
def push_history (history_len : Nat) (history : List Candle) (candle : Candle) : List Candle :=
  (history ++ [candle]).rtake history_len

/-- The scan over the history: merges the tick into the first candle of the bucket. It
gives that candle and the history with it, or nothing when no candle has the bucket. -/
def patch_scan (bucket_start : Int) (tick : Tick) : List Candle → Option (Candle × List Candle)
  | [] => none
  | candle :: rest =>
    if candle.bucket_start_ms = bucket_start then
      some (merge candle tick, merge candle tick :: rest)
    else
      (patch_scan bucket_start tick rest).map (fun (patched, rest) => (patched, candle :: rest))

/-- Applies one tick. It gives the candle that just closed, if any. -/
def CandleAggregator.apply (agg : CandleAggregator) (tick : Tick) :
    Option Candle × CandleAggregator :=
  let agg := { agg with last_patch := none }
  let bucket_start := bucket_start agg.timeframe_sec tick.event_time_ms
  let opens := fun candle => Function.update agg.open_ tick.symbol (some candle)
  match agg.open_ tick.symbol with
  | none => (none, { agg with open_ := opens (new_candle agg.timeframe_sec tick bucket_start) })
  | some open_candle =>
    if bucket_start = open_candle.bucket_start_ms then
      (none, { agg with open_ := opens (merge open_candle tick) })
    else if bucket_start > open_candle.bucket_start_ms then
      let closed_candle := { open_candle with closed := true }
      (some closed_candle,
        { agg with
          history_ := Function.update agg.history_ tick.symbol
            (some (push_history agg.history_len (agg.history tick.symbol) closed_candle))
          open_ := opens (new_candle agg.timeframe_sec tick bucket_start) })
    else
      -- A late tick, for a bucket that already closed: patch the history if it is there.
      let agg := { agg with late_patches := agg.late_patches + 1 }
      match patch_scan bucket_start tick (agg.history tick.symbol) with
      | none => (none, agg)
      | some (candle, history) =>
        (none,
          { agg with
            history_ := Function.update agg.history_ tick.symbol (some history)
            last_patch := some candle })

/-! ## The store of a symbol, as a function of its ticks -/

/-- The bucket of a tick. -/
def bucketOf (timeframe_sec : Int) (tick : Tick) : Int :=
  bucket_start timeframe_sec tick.event_time_ms

/-- The ticks of a bucket, in the order they came. -/
def bucketTicks (timeframe_sec bucket : Int) (ticks : List Tick) : List Tick :=
  ticks.filter (fun t => bucketOf timeframe_sec t = bucket)

/-- The candle of a bucket: its first tick, merged with the rest. A bucket with no tick has
no candle, and no store holds what stands here for it. -/
def candleOf (timeframe_sec bucket : Int) (ticks : List Tick) : Candle :=
  match bucketTicks timeframe_sec bucket ticks with
  | [] =>
    { symbol := "", timeframe_sec, bucket_start_ms := bucket, open_ := 0, high := 0, low := 0,
      close := 0 }
  | t :: rest => rest.foldl merge (new_candle timeframe_sec t bucket)

def closeCandle (candle : Candle) : Candle := { candle with closed := true }

/-- The buckets that were once the newest, oldest first. The last is open, the others closed. -/
def openedBuckets (timeframe_sec : Int) (ticks : List Tick) : List Int :=
  strictMaxima (ticks.map (bucketOf timeframe_sec))

def closedBuckets (timeframe_sec : Int) (ticks : List Tick) : List Int :=
  (openedBuckets timeframe_sec ticks).dropLast

/-- The closed buckets that the history still holds. -/
def retainedBuckets (timeframe_sec : Int) (history_len : Nat) (ticks : List Tick) : List Int :=
  (closedBuckets timeframe_sec ticks).rtake history_len

def openCandle (timeframe_sec : Int) (ticks : List Tick) : Option Candle :=
  (openedBuckets timeframe_sec ticks).getLast?.map (fun b => candleOf timeframe_sec b ticks)

def closedCandles (timeframe_sec : Int) (history_len : Nat) (ticks : List Tick) : List Candle :=
  (retainedBuckets timeframe_sec history_len ticks).map
    (fun b => closeCandle (candleOf timeframe_sec b ticks))

/-- The candle that a tick closes, when it comes after `before`. -/
def closedBy (timeframe_sec : Int) (before : List Tick) (t : Tick) : Option Candle :=
  match (openedBuckets timeframe_sec before).getLast? with
  | none => none
  | some m =>
    if m < bucketOf timeframe_sec t then some (closeCandle (candleOf timeframe_sec m before))
    else none

/-- The closed candle that a tick revises, when it comes after `before`. -/
def patchedBy (timeframe_sec : Int) (history_len : Nat) (before : List Tick) (t : Tick) :
    Option Candle :=
  if bucketOf timeframe_sec t ∈ retainedBuckets timeframe_sec history_len before then
    some (closeCandle (candleOf timeframe_sec (bucketOf timeframe_sec t) (before ++ [t])))
  else none

end tick_pipeline.candles
