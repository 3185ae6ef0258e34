-- The feed of `ingest/coinbase_client.py`: a raw message becomes a tick or nothing.
-- What the module calls of the standard library stands here as a parameter, with the
-- exception that a call raises as its other answer.
import TickPipeline.Pipeline

namespace tick_pipeline.coinbase_client

open models pipeline

/-! ## What the module calls -/

inductive PyException
  | JSONDecodeError
  | KeyError
  | TypeError
  | ValueError
  | AttributeError
  | OverflowError
  | OSError
  | RecursionError
deriving DecidableEq

/-- A value that `json.loads` gives. A number with a fraction or an exponent stays as it is
written, and a dict has each of its keys once. -/
inductive Json
  | null
  | bool (value : Bool)
  | int (value : Int)
  | float (literal : String)
  | str (value : String)
  | array (items : List Json)
  | object (fields : List (String × Json))

/-- The functions of the standard library, on raw messages of type `Raw`. `logger.debug` only gets the
start of a raw message, and raises nothing. -/
structure Python (Raw : Type) where
  json_loads : Raw → Except PyException Json
  upper : String → String
  float : Json → Except PyException ℚ
  int : Json → Except PyException Int
  /-- `int(datetime.fromisoformat(time).timestamp() * 1000)`. -/
  timestamp_ms : Json → Except PyException Int
  /-- `logger.warning("coinbase feed error: %s", data)`, which writes the data out. -/
  log_feed_error : Json → Except PyException Unit

/-- `data.get(key)`, which only a dict has. -/
def Json.get (data : Json) (key : String) : Except PyException (Option Json) :=
  match data with
  | .object fields => .ok (fields.lookup key)
  | _ => .error .AttributeError

/-- `data[key]` for a string `key`. -/
def Json.getitem (data : Json) (key : String) : Except PyException Json :=
  match data with
  | .object fields =>
    match fields.lookup key with
    | some value => .ok value
    | none => .error .KeyError
  | _ => .error .TypeError

/-- `value == text`. -/
def equals (value : Option Json) (text : String) : Bool :=
  match value with
  | some (.str s) => s = text
  | _ => false

def MATCH_TYPES : List String := ["match", "last_match"]

/-- `value in _MATCH_TYPES`. A set first hashes the value, which a list and a dict refuse. -/
def in_match_types : Option Json → Except PyException Bool
  | some (.str s) => .ok (s ∈ MATCH_TYPES)
  | some (.array _) => .error .TypeError
  | some (.object _) => .error .TypeError
  | _ => .ok false

section client

variable {Raw : Type} (py : Python Raw)

/-- `value.upper()`, which only a string has. -/
def Json.upper : Json → Except PyException String
  | .str s => .ok (py.upper s)
  | _ => .error .AttributeError

/-! ## The code -/

/-- Parses a message of the `matches` channel, at the clock time `now_ms`. It gives nothing when
the message is not a trade. -/
def parse_match_message (now_ms : Int) (payload : Json) : Except PyException (Option Tick) := do
  if ← in_match_types (← payload.get "type") then
    let event_time_ms ← py.timestamp_ms (← payload.getitem "time")
    let symbol ← (← payload.getitem "product_id").upper py
    let price ← py.float (← payload.getitem "price")
    let quantity ← py.float (← payload.getitem "size")
    let trade_id ← py.int (← payload.getitem "trade_id")
    let side ← payload.get "side"
    return some
      { symbol, price, quantity, trade_id, event_time_ms
        is_buyer_maker := equals side "buy"
        recv_time_ms := now_ms }
  else return none

structure CoinbaseTradeClient where
  messages_received : Nat

/-- The body of the `try` of `_handle_raw`. -/
def read (raw_message : Raw) (now_ms : Int) : Except PyException (Option Tick) := do
  let data ← py.json_loads raw_message
  if equals (← data.get "type") "error" then
    py.log_feed_error data
    return none
  parse_match_message py now_ms data

/-- What `_handle_raw` catches. `JSONDecodeError` is a `ValueError`. -/
def caught : List PyException := [.JSONDecodeError, .KeyError, .TypeError, .ValueError]

/-- `_handle_raw`. It gives the tick that `on_tick` is called with. -/
def CoinbaseTradeClient.handle_raw (client : CoinbaseTradeClient) (raw_message : Raw) (now_ms : Int) :
    Except PyException (Option Tick × CoinbaseTradeClient) :=
  match read py raw_message now_ms with
  | .error e => if e ∈ caught then .ok (none, client) else .error e
  | .ok none => .ok (none, client)
  | .ok (some tick) =>
    .ok (some tick, { client with messages_received := client.messages_received + 1 })

/-! ## The feed of a pipeline -/

/-- The client of `main.py`, whose `on_tick` is `pipeline.ingest`. -/
structure Feed where
  client : CoinbaseTradeClient
  pipeline : Pipeline

def Feed.new (cfg : Settings) (symbols : List Symbol) (persistence : Bool) : Feed :=
  { client := { messages_received := 0 }
    pipeline := Pipeline.new py.upper cfg symbols persistence }

/-- What can happen between two awaits: a message comes in, at a clock time, or a consumer or the
rate loop takes its turn. -/
inductive FeedOp (Raw : Type)
  | message (raw_message : Raw) (now_ms : Int)
  | consume_symbol (symbol : Symbol)
  | rate_round (elapsed : ℚ)

/-- An exception out of `_handle_raw` ends the connection, and `run` makes a new one. -/
def Feed.step (cfg : Settings) (feed : Feed) : FeedOp Raw → List Obs × Feed
  | .message raw_message now_ms =>
    match feed.client.handle_raw py raw_message now_ms with
    | .ok (some tick, client) => ([], { client, pipeline := feed.pipeline.ingest tick })
    | .ok (none, client) => ([], { feed with client })
    | .error _ => ([], feed)
  | .consume_symbol symbol =>
    let (obs, pipeline) := feed.pipeline.consume_symbol cfg symbol
    (obs, { feed with pipeline })
  | .rate_round elapsed =>
    let (obs, pipeline) := feed.pipeline.rate_round elapsed
    (obs, { feed with pipeline })

/-- The ticks that a message delivers. -/
def delivered (raw_message : Raw) (now_ms : Int) : List Tick :=
  match read py raw_message now_ms with
  | .ok (some tick) => [tick]
  | _ => []

/-! ## Specs -/

theorem in_match_types_iff {value : Option Json} :
    in_match_types value = .ok true ↔ ∃ type ∈ MATCH_TYPES, value = some (.str type) := by
  rcases value with _ | v
  · simp [in_match_types]
  · cases v <;> simp [in_match_types]

end client

end tick_pipeline.coinbase_client
