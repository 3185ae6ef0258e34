-- Redelivered trades: nothing between the feed and the candles looks for a trade that
-- was seen before, so a message that repeats one is one more tick, wherever it comes in.
import TickPipeline.CoinbaseClient
import TickPipeline.LaneRuns
import TickPipeline.VwapLaws
import TickPipeline.CandleLaws
import Mathlib.Data.List.Sort

namespace tick_pipeline.coinbase_client

open models runs pipeline candles vwap strict_maxima last_n emitted
  sliding_window

/-! ## The feed as ops on the pipeline -/

section feed

variable {Raw : Type} (py : Python Raw)

/-- What an op of the feed is for the pipeline. -/
def FeedOp.own : FeedOp Raw → List Op
  | .message raw_message now_ms => (delivered py raw_message now_ms).map .ingest
  | .consume_symbol symbol => [.consume_symbol symbol]
  | .rate_round elapsed => [.rate_round elapsed]

/-- The messages of a run, with their clock times. -/
def messages (ops : List (FeedOp Raw)) : List (Raw × Int) :=
  ops.flatMap (fun op =>
    match op with
    | .message raw_message now_ms => [(raw_message, now_ms)]
    | .consume_symbol _ => []
    | .rate_round _ => [])

/-- The ticks that messages deliver. -/
def ticksOf (sent : List (Raw × Int)) : List Tick := sent.flatMap (fun m => delivered py m.1 m.2)

end feed

/-! ## One tick more -/

section again

variable {done done' again : List Tick}

end again

/-! ## The symbols of a feed -/

/-- The candles that an aggregator holds for a symbol. -/
def heldFor (agg : CandleAggregator) (s : Symbol) : List Candle :=
  agg.history s ++ (agg.current s).toList

end tick_pipeline.coinbase_client
