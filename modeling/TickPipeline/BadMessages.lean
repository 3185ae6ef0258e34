-- What a malformed message does. `_handle_raw` drops what raises one of the exceptions
-- that it names; a few shapes of messages raise others, which end the connection.
import TickPipeline.CoinbaseClient

namespace tick_pipeline.coinbase_client

open models

/-! ## What the library raises -/

/-- What only the interpreter and the platform tell: the messages nested too deep to be loaded, the
data nested too deep to be written out, and the texts of dates whose `timestamp()` overflows. -/
structure Limits (Raw : Type) where
  too_deep : Raw → Bool
  too_deep_to_log : Json → Bool
  out_of_range : String → Bool

section raises

variable {Raw : Type} (limits : Limits Raw)

def loads_raises (raw_message : Raw) : List PyException :=
  if limits.too_deep raw_message then [.RecursionError] else [.JSONDecodeError, .ValueError]

def timestamp_raises : Json → List PyException
  | .str s => if limits.out_of_range s then [.OverflowError, .OSError] else [.ValueError]
  | _ => [.TypeError]

def float_raises : Json → List PyException
  | .str _ => [.ValueError]
  | .int _ => [.OverflowError]
  | .float _ => []
  | .bool _ => []
  | _ => [.TypeError]

/-- A number that is no `NaN` is refused when it is infinite. -/
def int_raises : Json → List PyException
  | .str _ => [.ValueError]
  | .int _ => []
  | .float literal => if literal = "NaN" then [.ValueError] else [.OverflowError]
  | .bool _ => []
  | _ => [.TypeError]

/-- A call that raises, raises what its documentation says. A handler of `logging` lets a
`RecursionError` through, and no other exception. -/
structure Documented (py : Python Raw) : Prop where
  loads : ∀ raw_message e, py.json_loads raw_message = .error e → e ∈ loads_raises limits raw_message
  timestamp : ∀ value e, py.timestamp_ms value = .error e → e ∈ timestamp_raises limits value
  float : ∀ value e, py.float value = .error e → e ∈ float_raises value
  int : ∀ value e, py.int value = .error e → e ∈ int_raises value
  log_feed_error : ∀ data, py.log_feed_error data =
    if limits.too_deep_to_log data then .error .RecursionError else .ok ()

end raises

/-! ## How the items of a message read -/

/-- An item is read; or it is refused as `_handle_raw` expects it; or it is refused otherwise. -/
inductive Reading
  | good
  | dropped
  | fatal
deriving DecidableEq

/-- How an item reads, where `fatal` tells the values that are not refused as expected. -/
def reading {α : Type} (convert : Json → Except PyException α) (fatal : Json → Bool) :
    Option Json → Reading
  | none => .dropped
  | some value =>
    match convert value with
    | .ok _ => .good
    | .error _ => if fatal value then .fatal else .dropped

def is_date_out_of_range {Raw : Type} (limits : Limits Raw) : Json → Bool
  | .str s => limits.out_of_range s
  | _ => false

def is_not_string : Json → Bool
  | .str _ => false
  | _ => true

def is_int : Json → Bool
  | .int _ => true
  | _ => false

def is_not_nan : Json → Bool
  | .float literal => literal ≠ "NaN"
  | _ => false

section readings

variable {Raw : Type} (py : Python Raw) (limits : Limits Raw)

/-- The items of a trade, as they are read one after the other. -/
def readings (fields : List (String × Json)) : List Reading :=
  [reading py.timestamp_ms (is_date_out_of_range limits) (fields.lookup "time"),
    reading (Json.upper py) is_not_string (fields.lookup "product_id"),
    reading py.float is_int (fields.lookup "price"),
    reading py.float is_int (fields.lookup "size"),
    reading py.int is_not_nan (fields.lookup "trade_id")]

def is_trade (fields : List (String × Json)) : Bool :=
  match fields.lookup "type" with
  | some (.str type) => type ∈ MATCH_TYPES
  | _ => false

/-- The first item of a list that is not good, if any, is refused as expected. -/
def Expected (items : List Reading) : Prop := items.find? (· ≠ .good) ≠ some .fatal

instance (items : List Reading) : Decidable (Expected items) := inferInstanceAs (Decidable (_ ≠ _))

def is_feed_error (fields : List (String × Json)) : Bool := equals (fields.lookup "type") "error"

/-- The message is not nested too deep; it is no JSON, or an object; if this is an error of the feed,
it is not nested too deep to be logged; and if it is a trade, the first of its items that cannot be
read, if any, is not one that is refused otherwise. -/
def Manageable (raw_message : Raw) : Prop :=
  match py.json_loads raw_message with
  | .error _ => limits.too_deep raw_message = false
  | .ok (.object fields) =>
    (is_feed_error fields → limits.too_deep_to_log (.object fields) = false) ∧
      (is_trade fields → Expected (readings py limits fields))
  | .ok _ => False

end readings

theorem ok_bind {ε α β : Type} (a : α) (f : α → Except ε β) : (.ok a : Except ε α) >>= f = f a := rfl

theorem error_bind {ε α β : Type} (e : ε) (f : α → Except ε β) :
    (.error e : Except ε α) >>= f = .error e := rfl

/-- What a computation gives goes with how the items that it reads stand. -/
def Tells {α : Type} (x : Except PyException α) (items : List Reading) : Prop :=
  match x with
  | .ok _ => items.find? (· ≠ .good) = none
  | .error e => ∃ item, items.find? (· ≠ .good) = some item ∧ (e ∈ caught ↔ item ≠ .fatal)

theorem Tells.expected_iff {α : Type} {x : Except PyException α} {items : List Reading}
    (h : Tells x items) : (∀ e, x = .error e → e ∈ caught) ↔ Expected items := by
  unfold Expected
  rcases x with e | a
  · obtain ⟨item, hfind, hiff⟩ := h
    rw [hfind]
    constructor
    · intro hcaught hfatal
      exact hiff.mp (hcaught e rfl) (Option.some.inj hfatal)
    · rintro hne _ ⟨⟩
      exact hiff.mpr (fun hfatal => hne (congrArg some hfatal))
  · have hnone : items.find? (· ≠ .good) = none := h
    rw [hnone]
    exact ⟨fun _ => by simp, fun _ e he => by cases he⟩

/-- One more item is read first. -/
theorem Tells.item {α β : Type} {fields : List (String × Json)} {key : String}
    {convert : Json → Except PyException α} {fatal : Json → Bool}
    (hraises : ∀ value e, convert value = .error e → (e ∈ caught ↔ fatal value = false))
    {next : α → Except PyException β} {items : List Reading} (hnext : ∀ a, Tells (next a) items) :
    Tells ((Json.object fields).getitem key >>= fun value => convert value >>= next)
      (reading convert fatal (fields.lookup key) :: items) := by
  unfold Json.getitem
  dsimp only
  cases hlookup : fields.lookup key with
  | none =>
    -- A key that is not there raises `KeyError`.
    exact ⟨.dropped, rfl, by decide⟩
  | some value =>
    cases hconvert : convert value with
    | error e =>
      have hreading : reading convert fatal (some value) =
          if fatal value then .fatal else .dropped := by simp [reading, hconvert]
      have hiff := hraises value e hconvert
      rw [ok_bind, hconvert, error_bind, hreading]
      refine ⟨if fatal value then .fatal else .dropped, ?_, ?_⟩
      · split <;> rfl
      · rw [hiff]
        split <;> simp_all
    | ok a =>
      have hreading : reading convert fatal (some value) = .good := by simp [reading, hconvert]
      rw [ok_bind, hconvert, ok_bind, hreading]
      exact hnext a

section messages

variable {Raw : Type} {py : Python Raw} {limits : Limits Raw}

theorem Documented.timestamp_caught (h : Documented limits py) (value : Json) (e : PyException)
    (he : py.timestamp_ms value = .error e) :
    e ∈ caught ↔ is_date_out_of_range limits value = false := by
  have hmem := h.timestamp value e he
  cases value with
  | str s =>
    simp only [timestamp_raises, is_date_out_of_range] at hmem ⊢
    cases hrange : limits.out_of_range s <;> simp [hrange, caught] at hmem ⊢
    · simp [hmem]
    · rcases hmem with rfl | rfl <;> simp
  | _ => simp [timestamp_raises, is_date_out_of_range, caught] at hmem ⊢; simp [hmem]

theorem upper_caught (value : Json) (e : PyException) (he : value.upper py = .error e) :
    e ∈ caught ↔ is_not_string value = false := by
  cases value with
  | str s => cases he
  | _ => cases he; simp [is_not_string, caught]

theorem Documented.float_caught (h : Documented limits py) (value : Json) (e : PyException)
    (he : py.float value = .error e) : e ∈ caught ↔ is_int value = false := by
  have hmem := h.float value e he
  cases value <;> simp [float_raises, is_int, caught] at hmem ⊢ <;> simp [hmem]

theorem Documented.int_caught (h : Documented limits py) (value : Json) (e : PyException)
    (he : py.int value = .error e) : e ∈ caught ↔ is_not_nan value = false := by
  have hmem := h.int value e he
  cases value with
  | float literal =>
    simp only [int_raises, is_not_nan] at hmem ⊢
    by_cases hnan : literal = "NaN" <;> simp [hnan, caught] at hmem ⊢ <;> simp [hmem]
  | _ => simp [int_raises, is_not_nan, caught] at hmem ⊢ <;> simp [hmem]

theorem in_match_types_of_trade {fields : List (String × Json)} (h : is_trade fields = true) :
    in_match_types (fields.lookup "type") = .ok true := by
  unfold is_trade at h
  split at h
  · rename_i type htype
    rw [htype, in_match_types, h]
  · cases h

/-- The type of another message is looked at, and no more. -/
theorem in_match_types_of_other {fields : List (String × Json)} (h : is_trade fields = false) :
    in_match_types (fields.lookup "type") = .ok false ∨
      in_match_types (fields.lookup "type") = .error .TypeError := by
  unfold is_trade at h
  generalize fields.lookup "type" = type at h ⊢
  rcases type with _ | value
  · exact Or.inl rfl
  · cases value with
    | str s =>
      have hs : decide (s ∈ MATCH_TYPES) = false := h
      exact Or.inl (congrArg Except.ok hs)
    | array _ => exact Or.inr rfl
    | object _ => exact Or.inr rfl
    | _ => exact Or.inl rfl

/-- A trade is read item by item. -/
theorem parse_tells (h : Documented limits py) (now_ms : Int) {fields : List (String × Json)}
    (htrade : is_trade fields = true) :
    Tells (parse_match_message py now_ms (.object fields)) (readings py limits fields) := by
  have htype : (Json.object fields).get "type" = .ok (fields.lookup "type") := rfl
  unfold parse_match_message readings
  simp only [htype, ok_bind, in_match_types_of_trade htrade, if_true]
  refine Tells.item h.timestamp_caught (fun event_time_ms => ?_)
  refine Tells.item upper_caught (fun symbol => ?_)
  refine Tells.item h.float_caught (fun price => ?_)
  refine Tells.item h.float_caught (fun quantity => ?_)
  refine Tells.item h.int_caught (fun trade_id => ?_)
  rfl

theorem not_error_of_trade {fields : List (String × Json)} (h : is_trade fields = true) :
    is_feed_error fields = false := by
  unfold is_feed_error
  obtain ⟨type, hmem, hlookup⟩ := in_match_types_iff.mp (in_match_types_of_trade h)
  simp only [MATCH_TYPES, List.mem_cons, List.not_mem_nil, or_false] at hmem
  rw [hlookup]
  rcases hmem with rfl | rfl <;> rfl

/-- An object that is no trade raises `TypeError` at most. -/
theorem other_caught (now_ms : Int) {fields : List (String × Json)} (hother : is_trade fields = false)
    (e : PyException)
    (he : parse_match_message py now_ms (.object fields) = .error e) : e ∈ caught := by
  have htype : (Json.object fields).get "type" = .ok (fields.lookup "type") := rfl
  unfold parse_match_message at he
  rcases in_match_types_of_other hother with hother | hother
  · simp only [htype, ok_bind, hother] at he
    cases he
  · simp only [htype, ok_bind, hother, error_bind] at he
    cases he
    decide

/-- A text that is not loaded is refused as expected, unless it is nested too deep. -/
theorem Documented.loads_caught (h : Documented limits py) {raw_message : Raw} {e : PyException}
    (he : py.json_loads raw_message = .error e) :
    e ∈ caught ↔ limits.too_deep raw_message = false := by
  have hmem := h.loads raw_message e he
  unfold loads_raises at hmem
  cases hdeep : limits.too_deep raw_message
  · rcases (by simpa [hdeep] using hmem : e = .JSONDecodeError ∨ e = .ValueError) with rfl | rfl <;>
      decide
  · obtain rfl : e = .RecursionError := by simpa [hdeep] using hmem
    simp [caught]

/-- An error of the feed is logged and no more, unless it is nested too deep for that. -/
theorem Documented.logged_caught (h : Documented limits py) (data : Json) :
    (∀ e, (py.log_feed_error data >>= fun _ => pure (none : Option Tick)) = .error e → e ∈ caught) ↔
      limits.too_deep_to_log data = false := by
  rw [h.log_feed_error data]
  cases limits.too_deep_to_log data with
  | true => simp [caught]
  | false => simp [ok_bind, pure, Except.pure]

/-- The body of the `try` raises nothing unexpected just when the message is manageable. -/
theorem read_expected_iff (h : Documented limits py) (raw_message : Raw) (now_ms : Int) :
    (∀ e, read py raw_message now_ms = .error e → e ∈ caught) ↔
      Manageable py limits raw_message := by
  unfold read Manageable
  cases hload : py.json_loads raw_message with
  | error e =>
    simp only [error_bind, Except.error.injEq, forall_eq']
    exact h.loads_caught hload
  | ok data =>
    cases data with
    | object fields =>
      have htype : (Json.object fields).get "type" = .ok (fields.lookup "type") := rfl
      have hfeed : equals (fields.lookup "type") "error" = is_feed_error fields := rfl
      simp only [ok_bind, htype, hfeed]
      cases herror : is_feed_error fields with
      | true =>
        have htrade : is_trade fields = false := by
          by_contra htrade
          rw [not_error_of_trade (by simpa using htrade)] at herror
          cases herror
        simpa [htrade] using h.logged_caught (.object fields)
      | false =>
        cases htrade : is_trade fields with
        | true => simpa using (parse_tells h now_ms htrade).expected_iff
        | false => simpa using fun e => other_caught now_ms htrade e
    | _ =>
      -- Nothing but a dict has a `get`.
      simp [Json.get, ok_bind, error_bind, caught]

end messages

/-- A message is delivered or dropped just when it is manageable. With a library that raises what it
documents, `_handle_raw` gives one tick to `on_tick` and counts it, or does neither; and it raises
if and only if the message is nested too deep, or is JSON but no object, or is an error of the feed
nested too deep to be logged, or is a trade with an item that is refused otherwise before any other
is: a date whose timestamp overflows, a product that is no string, an integer that is no float, or an
infinite trade id. -/
theorem a_message_is_handled_iff_it_is_manageable {Raw : Type} (py : Python Raw) (limits : Limits Raw)
    (hdoc : Documented limits py) (client : CoinbaseTradeClient) (raw_message : Raw) (now_ms : Int) :
    (client.handle_raw py raw_message now_ms = .ok (none, client) ∨
        ∃ tick, client.handle_raw py raw_message now_ms =
          .ok (some tick, { client with messages_received := client.messages_received + 1 })) ↔
      Manageable py limits raw_message := by
  rw [← read_expected_iff hdoc raw_message now_ms]
  unfold CoinbaseTradeClient.handle_raw
  rcases read py raw_message now_ms with e | _ | tick
  · by_cases he : e ∈ caught
    · simp [he]
    · simp [he]
  · simp
  · simp

/-- From here on, an integer rounds to more than the largest float. -/
def FLOAT_LIMIT : Nat := 2 ^ 1024 - 2 ^ 970

/-- Messages that are loaded already, with the texts of `matchMessage`s among the others. -/
def plainTexts : Python Json where
  json_loads raw := .ok raw
  upper text := text
  float
    | .str s => if s = "100" then .ok 100 else if s = "1" then .ok 1 else .error .ValueError
    | .int n => if n.natAbs < FLOAT_LIMIT then .ok n else .error .OverflowError
    | .float _ => .ok 0
    | .bool b => .ok (if b then 1 else 0)
    | _ => .error .TypeError
  int
    | .str _ => .error .ValueError
    | .int n => .ok n
    | .float literal =>
      if literal = "NaN" then .error .ValueError
      else if literal = "Infinity" then .error .OverflowError
      else .ok 0
    | .bool b => .ok (if b then 1 else 0)
    | _ => .error .TypeError
  timestamp_ms
    | .str s => if s = "2024-01-01T00:00:00Z" then .ok 1704067200000 else .error .ValueError
    | _ => .error .TypeError
  log_feed_error _ := .ok ()

def noLimits : Limits Json where
  too_deep _ := false
  too_deep_to_log _ := false
  out_of_range _ := false

theorem plainTexts_documented : Documented noLimits plainTexts := by
  refine ⟨?_, ?_, ?_, ?_, fun _ => rfl⟩
  · rintro raw e ⟨⟩
  · intro value e he
    cases value with
    | str s =>
      simp only [plainTexts] at he
      split at he <;> simp_all [timestamp_raises, noLimits]
    | _ => cases he; simp [timestamp_raises]
  · intro value e he
    cases value with
    | str s =>
      simp only [plainTexts] at he
      split at he
      · cases he
      · split at he <;> simp_all [float_raises]
    | int n =>
      simp only [plainTexts] at he
      split at he <;> simp_all [float_raises]
    | float literal => cases he
    | bool b => cases he
    | _ => cases he; simp [float_raises]
  · intro value e he
    cases value with
    | float literal =>
      simp only [plainTexts] at he
      split at he
      · simp_all [int_raises]
      · split at he <;> simp_all [int_raises]
    | int n => cases he
    | bool b => cases he
    | _ => cases he; simp [int_raises]

/-- A trade without a size, whose trade id is infinite: the size is missed first. -/
theorem a_message_is_handled_iff_it_is_manageable_of_two :
    let message := Json.object [("type", .str "match"), ("time", .str "2024-01-01T00:00:00Z"),
      ("product_id", .str "BTC-USD"), ("price", .str "100"), ("trade_id", .float "Infinity")]
    let client : CoinbaseTradeClient := ⟨7⟩
    client.handle_raw plainTexts message 0 = .ok (none, client) ∨
      ∃ tick, client.handle_raw plainTexts message 0 = .ok (some tick, ⟨8⟩) := by
  intro message client
  refine (a_message_is_handled_iff_it_is_manageable plainTexts noLimits plainTexts_documented client
    message 0).mpr ?_
  have hitems : Expected [.good, .good, .good, .dropped, .fatal] := by decide +kernel
  exact ⟨fun _ => rfl, fun _ => hitems⟩

/-- The text `[]` is JSON, and a list has no `get`. -/
theorem an_array_is_not_handled :
    ¬ ∀ (py : Python Json) (limits : Limits Json), Documented limits py →
      ∀ (client : CoinbaseTradeClient) (raw_message : Json) (now_ms : Int),
        client.handle_raw py raw_message now_ms = .ok (none, client) ∨
          ∃ tick, client.handle_raw py raw_message now_ms =
            .ok (some tick, { client with messages_received := client.messages_received + 1 }) := by
  intro h
  have hraise : CoinbaseTradeClient.handle_raw plainTexts ⟨0⟩ (.array []) 0 =
      .error .AttributeError := rfl
  rcases h plainTexts noLimits plainTexts_documented ⟨0⟩ (.array []) 0 with hnone | ⟨tick, htick⟩
  · rw [hraise] at hnone
    cases hnone
  · rw [hraise] at htick
    cases htick

end tick_pipeline.coinbase_client
