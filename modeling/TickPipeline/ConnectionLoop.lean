-- The loop of `CoinbaseTradeClient.run`: it connects, subscribes, reads, and after each
-- end of a connection sleeps and connects again, until it is stopped or cancelled.
import TickPipeline.BadMessages
import TickPipeline.Lib.Progress
import TickPipeline.Lib.EventLog
import Mathlib.Tactic.Linarith

namespace tick_pipeline.coinbase_client

open runs models pipeline event_log

/-! ## The code -/

/-- What `run` reads of `Settings`. -/
structure WsSettings where
  symbols : List Symbol
  coinbase_ws_url : String
  ws_reconnect_initial_delay_sec : ℚ
  ws_reconnect_max_delay_sec : ℚ

/-- The await that `run` is at. -/
inductive Place
  /-- The task has not begun. -/
  | new
  /-- In `websockets.connect`. -/
  | connecting
  /-- In `ws.send`. -/
  | subscribing
  /-- In `async for`. -/
  | receiving
  /-- The `async with` ends, and its connection is being closed. -/
  | closing (cancelled : Bool)
  | sleeping
  | returned
  /-- It raised `CancelledError`. -/
  | cancelled
deriving DecidableEq

/-- The client and its `run`. The awaits of `run` and its `delay` belong to the task. -/
structure Loop where
  client : CoinbaseTradeClient
  reconnect_count : Nat
  stop : Bool
  connected : Bool
  delay : ℚ
  place : Place

/-- `CoinbaseTradeClient(symbols, on_tick)`, in a new task. -/
def Loop.new : Loop :=
  { client := { messages_received := 0 }
    reconnect_count := 0
    stop := false
    connected := false
    delay := 0
    place := .new }

/-- What an await of `run` gives, or a call from outside. Each exception but `CancelledError` is
caught, so of a failure it does not matter which exception it raised. -/
inductive LoopEvent (Raw : Type)
  | start
  /-- `websockets.connect` gives a connection, or raises. -/
  | opened (ok : Bool)
  | sent (ok : Bool)
  | message (raw_message : Raw) (now_ms : Int)
  /-- The connection has no more messages, or raises. -/
  | ended
  | closed
  | woke
  | stop
  | cancel

/-- What `run` does, as seen from outside. -/
inductive LoopAct
  | connect (url : String)
  | send (subscribe_msg : Json)
  /-- `_connected` is set. -/
  | subscribed
  /-- `on_tick` is called. -/
  | on_tick (tick : Tick)
  | sleep (delay : ℚ)

/-- What is dumped for the exchange. -/
def subscribe_msg (symbols : List Symbol) : Json :=
  .object [("type", .str "subscribe"), ("product_ids", .array (symbols.map .str)),
    ("channels", .array [.str "matches"])]

section loop

variable {Raw : Type} (py : Python Raw) (cfg : WsSettings)

/-- The head of the loop. -/
def Loop.head (c : Loop) : List LoopAct × Loop :=
  if c.stop then ([], { c with place := .returned })
  else ([.connect cfg.coinbase_ws_url], { c with place := .connecting })

/-- The `finally`, and what comes after it in the loop. -/
def Loop.lost (c : Loop) : List LoopAct × Loop :=
  let c := { c with connected := false }
  if c.stop then ([], { c with place := .returned })
  else ([.sleep c.delay], { c with reconnect_count := c.reconnect_count + 1, place := .sleeping })

/-- A message, in the loop of `async for`. -/
def Loop.receive (c : Loop) (raw_message : Raw) (now_ms : Int) : List LoopAct × Loop :=
  if c.stop then ([], { c with place := .closing false })
  else
    match c.client.handle_raw py raw_message now_ms with
    | .ok (some tick, client) => ([.on_tick tick], { c with client })
    | .ok (none, client) => ([], { c with client })
    | .error _ => ([], { c with place := .closing false })

/-- `CancelledError`, at the await that `run` is at. -/
def Loop.cancel (c : Loop) : Loop :=
  match c.place with
  | .new | .sleeping => { c with place := .cancelled }
  | .connecting | .closing _ => { c with connected := false, place := .cancelled }
  | .subscribing | .receiving => { c with place := .closing true }
  | .returned | .cancelled => c

/-- An await can only end where `run` is at it. -/
def Loop.step (c : Loop) : LoopEvent Raw → List LoopAct × Loop
  | .start =>
    if c.place = .new then { c with delay := cfg.ws_reconnect_initial_delay_sec }.head cfg else ([], c)
  | .opened ok =>
    if c.place = .connecting then
      if ok then ([.send (subscribe_msg cfg.symbols)], { c with place := .subscribing }) else c.lost
    else ([], c)
  | .sent ok =>
    if c.place = .subscribing then
      if ok then
        ([.subscribed],
          { c with connected := true, delay := cfg.ws_reconnect_initial_delay_sec, place := .receiving })
      else ([], { c with place := .closing false })
    else ([], c)
  | .message raw_message now_ms =>
    if c.place = .receiving then c.receive py raw_message now_ms else ([], c)
  | .ended => if c.place = .receiving then ([], { c with place := .closing false }) else ([], c)
  | .closed =>
    match c.place with
    | .closing false => c.lost
    | .closing true => ([], { c with connected := false, place := .cancelled })
    | _ => ([], c)
  | .woke =>
    if c.place = .sleeping then
      { c with delay := min (c.delay * 2) cfg.ws_reconnect_max_delay_sec }.head cfg
    else ([], c)
  | .stop => ([], { c with stop := true })
  | .cancel => ([], c.cancel)

/-- What a step can be: the await that `run` is at ends, or a call comes from outside, or nothing is
at this await. -/
inductive LoopMove (c : Loop) : LoopEvent Raw → List LoopAct × Loop → Prop
  | idle (event : LoopEvent Raw) : LoopMove c event ([], c)
  | start (hplace : c.place = .new) :
    LoopMove c .start ({ c with delay := cfg.ws_reconnect_initial_delay_sec }.head cfg)
  | opened (hplace : c.place = .connecting) :
    LoopMove c (.opened true) ([.send (subscribe_msg cfg.symbols)], { c with place := .subscribing })
  | refused (hplace : c.place = .connecting) : LoopMove c (.opened false) c.lost
  | sent (hplace : c.place = .subscribing) :
    LoopMove c (.sent true) ([.subscribed],
      { c with connected := true, delay := cfg.ws_reconnect_initial_delay_sec, place := .receiving })
  | unsent (hplace : c.place = .subscribing) :
    LoopMove c (.sent false) ([], { c with place := .closing false })
  | message (hplace : c.place = .receiving) (raw_message : Raw) (now_ms : Int) :
    LoopMove c (.message raw_message now_ms) (c.receive py raw_message now_ms)
  | ended (hplace : c.place = .receiving) : LoopMove c .ended ([], { c with place := .closing false })
  | closed (hplace : c.place = .closing false) : LoopMove c .closed c.lost
  | cancelled (hplace : c.place = .closing true) :
    LoopMove c .closed ([], { c with connected := false, place := .cancelled })
  | woke (hplace : c.place = .sleeping) : LoopMove c .woke
      ({ c with delay := min (c.delay * 2) cfg.ws_reconnect_max_delay_sec }.head cfg)
  | stop : LoopMove c .stop ([], { c with stop := true })
  | cancel : LoopMove c .cancel ([], c.cancel)

theorem step_move (c : Loop) (event : LoopEvent Raw) :
    LoopMove py cfg c event (c.step py cfg event) := by
  unfold Loop.step
  cases event with
  | start =>
    dsimp only
    split
    · rename_i hplace
      exact .start hplace
    · exact .idle _
  | opened ok =>
    dsimp only
    split
    · rename_i hplace
      cases ok with
      | true => exact .opened hplace
      | false => exact .refused hplace
    · exact .idle _
  | sent ok =>
    dsimp only
    split
    · rename_i hplace
      cases ok with
      | true => exact .sent hplace
      | false => exact .unsent hplace
    · exact .idle _
  | message raw_message now_ms =>
    dsimp only
    split
    · rename_i hplace
      exact .message hplace raw_message now_ms
    · exact .idle _
  | ended =>
    dsimp only
    split
    · rename_i hplace
      exact .ended hplace
    · exact .idle _
  | closed =>
    dsimp only
    split
    · rename_i hplace
      exact .closed hplace
    · rename_i hplace
      exact .cancelled hplace
    · exact .idle _
  | woke =>
    dsimp only
    split
    · rename_i hplace
      exact .woke hplace
    · exact .idle _
  | stop => exact .stop
  | cancel => exact .cancel

end loop

/-! ## What the loop does in order -/

def LoopAct.sleeps : LoopAct → Bool
  | .sleep _ => true
  | .connect _ | .send _ | .subscribed | .on_tick _ => false

def LoopAct.ticks : LoopAct → Option Tick
  | .on_tick tick => some tick
  | .connect _ | .send _ | .subscribed | .sleep _ => none

/-- It is read from a connection that is subscribed. -/
def LoopAct.streams : LoopAct → Bool
  | .subscribed | .on_tick _ => true
  | .connect _ | .send _ | .sleep _ => false

/-- How often the loop has slept since it last subscribed. -/
def attempts (log : List LoopAct) : Nat :=
  log.foldl (fun n act => match act with
    | .sleep _ => n + 1
    | .subscribed => 0
    | .connect _ | .send _ | .on_tick _ => n) 0

/-- The delay of attempt `n`: it doubles up to the maximum, and the first is not bounded by it. -/
def backoff (cfg : WsSettings) (n : Nat) : ℚ :=
  if n = 0 then cfg.ws_reconnect_initial_delay_sec
  else min (cfg.ws_reconnect_initial_delay_sec * 2 ^ n) cfg.ws_reconnect_max_delay_sec

/-- Which act may come after these. -/
def Lawful (cfg : WsSettings) (log : List LoopAct) : LoopAct → Prop
  | .connect url => url = cfg.coinbase_ws_url ∧ ∀ act, log.getLast? = some act → act.sleeps
  | .send msg => msg = subscribe_msg cfg.symbols ∧ ∃ url, log.getLast? = some (.connect url)
  | .subscribed => ∃ msg, log.getLast? = some (.send msg)
  | .on_tick _ => ∃ act, log.getLast? = some act ∧ act.streams
  | .sleep delay =>
    delay = backoff cfg (attempts log) ∧ ∃ act, log.getLast? = some act ∧ act.sleeps = false

/-- The last act before an await. -/
def Place.Follows (place : Place) (log : List LoopAct) : Prop :=
  match place with
  | .new => log = []
  | .connecting => ∃ url, log.getLast? = some (.connect url)
  | .subscribing => ∃ msg, log.getLast? = some (.send msg)
  | .receiving => ∃ act, log.getLast? = some act ∧ act.streams
  | .closing _ => ∃ act, log.getLast? = some act ∧ act.sleeps = false
  | .sleeping => ∃ act, log.getLast? = some act ∧ act.sleeps
  | .returned | .cancelled => True

/-- The variable `delay` at an await. -/
def Loop.Delayed (cfg : WsSettings) (log : List LoopAct) (c : Loop) : Prop :=
  match c.place with
  | .new | .returned | .cancelled => True
  | .connecting | .subscribing | .receiving | .closing _ => c.delay = backoff cfg (attempts log)
  | .sleeping => ∃ n, attempts log = n + 1 ∧ c.delay = backoff cfg n

/-- The acts so far are lawful, and the counters count them. -/
structure Books (cfg : WsSettings) (log : List LoopAct) (c : Loop) : Prop where
  lawful : Causal (Lawful cfg) log
  reconnects : c.reconnect_count = log.countP LoopAct.sleeps
  messages : c.client.messages_received = (log.filterMap LoopAct.ticks).length

/-- It is set only in the stream of a connection, or while that one is being closed. -/
def Loop.Connected (log : List LoopAct) (c : Loop) : Prop :=
  c.connected → (c.place = .receiving ∨ ∃ cancelled, c.place = .closing cancelled) ∧
    ∃ act, log.getLast? = some act ∧ act.streams

/-- What every run keeps. -/
structure Kept (cfg : WsSettings) (log : List LoopAct) (c : Loop) : Prop where
  books : Books cfg log c
  follows : c.place.Follows log
  delayed : c.Delayed cfg log
  connected : c.Connected log

section kept

variable {Raw : Type} {py : Python Raw} {cfg : WsSettings} {log : List LoopAct} {c : Loop}

theorem attempts_snoc (log : List LoopAct) (act : LoopAct) :
    attempts (log ++ [act]) = match act with
      | .sleep _ => attempts log + 1
      | .subscribed => 0
      | .connect _ | .send _ | .on_tick _ => attempts log := by
  unfold attempts
  rw [List.foldl_append]
  rfl

/-- One more sleep doubles the delay. -/
theorem backoff_succ (hmax : 0 ≤ cfg.ws_reconnect_max_delay_sec) (n : Nat) :
    min (backoff cfg n * 2) cfg.ws_reconnect_max_delay_sec = backoff cfg (n + 1) := by
  unfold backoff
  rw [if_neg (Nat.succ_ne_zero n), pow_succ, ← mul_assoc]
  by_cases hn : n = 0
  · simp [hn]
  · rw [if_neg hn]
    -- A delay at the maximum stays there.
    rcases le_total (cfg.ws_reconnect_initial_delay_sec * 2 ^ n) cfg.ws_reconnect_max_delay_sec with h | h
    · rw [min_eq_left h]
    · rw [min_eq_right h, min_eq_right (by linarith), min_eq_right (by linarith)]

theorem streams_not_sleeps {act : LoopAct} (h : act.streams) : act.sleeps = false := by
  cases act <;> first | rfl | cases h

theorem Books.snoc {c' : Loop} (h : Books cfg log c) {act : LoopAct} (hact : Lawful cfg log act)
    (hreconnects : c'.reconnect_count = c.reconnect_count + [act].countP LoopAct.sleeps)
    (hmessages : c'.client.messages_received =
      c.client.messages_received + ([act].filterMap LoopAct.ticks).length) :
    Books cfg (log ++ [act]) c' := by
  refine ⟨causal_snoc h.lawful hact, ?_, ?_⟩
  · rw [hreconnects, h.reconnects, List.countP_append]
  · rw [hmessages, h.messages, List.filterMap_append, List.length_append]

theorem not_connected (h : c.connected = false) : c.Connected log := by
  intro hconnected
  rw [h] at hconnected
  cases hconnected

/-- The head of the loop, at its first turn and after a sleep. -/
theorem Kept.head (h : Books cfg log c) (hlast : ∀ act, log.getLast? = some act → act.sleeps)
    (hdelay : c.delay = backoff cfg (attempts log)) (hconnected : c.connected = false) :
    Kept cfg (log ++ (c.head cfg).1) (c.head cfg).2 := by
  unfold Loop.head
  split
  · rw [List.append_nil]
    exact ⟨⟨h.lawful, h.reconnects, h.messages⟩, trivial, trivial, not_connected hconnected⟩
  · refine ⟨h.snoc ⟨rfl, hlast⟩ rfl rfl, ⟨cfg.coinbase_ws_url, List.getLast?_concat ..⟩, ?_,
      not_connected hconnected⟩
    simp only [Loop.Delayed, attempts_snoc]
    exact hdelay

/-- The end of a connection, or of an attempt to connect. -/
theorem Kept.lost (h : Books cfg log c) (hlast : ∃ act, log.getLast? = some act ∧ act.sleeps = false)
    (hdelay : c.delay = backoff cfg (attempts log)) :
    Kept cfg (log ++ c.lost.1) c.lost.2 := by
  unfold Loop.lost
  dsimp only
  split
  · rw [List.append_nil]
    exact ⟨⟨h.lawful, h.reconnects, h.messages⟩, trivial, trivial, not_connected rfl⟩
  · refine ⟨h.snoc ⟨hdelay, hlast⟩ rfl rfl, ⟨_, List.getLast?_concat .., rfl⟩, ?_, not_connected rfl⟩
    exact ⟨attempts log, attempts_snoc log _, hdelay⟩

/-- The connection is to be closed. -/
theorem Kept.close (h : Kept cfg log c) (hplace : c.place = .subscribing ∨ c.place = .receiving)
    (cancelled : Bool) : Kept cfg log { c with place := .closing cancelled } := by
  refine ⟨⟨h.books.lawful, h.books.reconnects, h.books.messages⟩, ?_, ?_, ?_⟩
  · have hfollows := h.follows
    rcases hplace with hplace | hplace
    · rw [hplace] at hfollows
      obtain ⟨msg, hmsg⟩ := hfollows
      exact ⟨_, hmsg, rfl⟩
    · rw [hplace] at hfollows
      obtain ⟨act, hact, hstreams⟩ := hfollows
      exact ⟨act, hact, streams_not_sleeps hstreams⟩
  · have hdelayed := h.delayed
    rcases hplace with hplace | hplace <;> simpa only [Loop.Delayed, hplace] using hdelayed
  · intro hconnected
    exact ⟨Or.inr ⟨cancelled, rfl⟩, (h.connected hconnected).2⟩

/-- A message is refused, or it gives nothing, or it gives its tick. -/
theorem handle_raw_cases (py : Python Raw) (client : CoinbaseTradeClient) (raw_message : Raw) (now_ms : Int) :
    (∃ e, client.handle_raw py raw_message now_ms = .error e ∧ delivered py raw_message now_ms = []) ∨
      (client.handle_raw py raw_message now_ms = .ok (none, client) ∧
        delivered py raw_message now_ms = []) ∨
      ∃ tick, client.handle_raw py raw_message now_ms =
          .ok (some tick, { client with messages_received := client.messages_received + 1 }) ∧
        delivered py raw_message now_ms = [tick] := by
  unfold CoinbaseTradeClient.handle_raw delivered
  rcases read py raw_message now_ms with e | _ | tick
  · by_cases he : e ∈ caught
    · exact Or.inr (Or.inl ⟨if_pos he, rfl⟩)
    · exact Or.inl ⟨e, if_neg he, rfl⟩
  · exact Or.inr (Or.inl ⟨rfl, rfl⟩)
  · exact Or.inr (Or.inr ⟨tick, rfl, rfl⟩)

theorem Kept.receive (h : Kept cfg log c) (hplace : c.place = .receiving) (raw_message : Raw)
    (now_ms : Int) : Kept cfg (log ++ (c.receive py raw_message now_ms).1)
      (c.receive py raw_message now_ms).2 := by
  have hclose := h.close (Or.inr hplace) false
  have hfollows := h.follows
  have hdelayed := h.delayed
  rw [hplace] at hfollows
  simp only [Loop.Delayed, hplace] at hdelayed
  unfold Loop.receive
  split
  · simpa using hclose
  rcases handle_raw_cases py c.client raw_message now_ms with
    ⟨e, hraw, -⟩ | ⟨hraw, -⟩ | ⟨tick, hraw, -⟩
  · simpa [hraw] using hclose
  · simpa [hraw] using h
  · simp only [hraw]
    refine ⟨h.books.snoc hfollows rfl rfl, ?_, ?_, ?_⟩
    · simp only [hplace]
      exact ⟨_, List.getLast?_concat .., rfl⟩
    · simp only [Loop.Delayed, hplace, attempts_snoc]
      exact hdelayed
    · intro hconnected
      exact ⟨Or.inl hplace, _, List.getLast?_concat .., rfl⟩

theorem Kept.disconnected (h : Kept cfg log c) (hreceiving : c.place ≠ .receiving)
    (hclosing : ∀ cancelled, c.place ≠ .closing cancelled) : c.connected = false := by
  by_contra hconnected
  rcases (h.connected (by simpa using hconnected)).1 with hplace | ⟨cancelled, hplace⟩
  · exact hreceiving hplace
  · exact hclosing cancelled hplace

/-- A task that has ended. -/
theorem Kept.ended (h : Kept cfg log c) {place : Place} (hplace : place = .returned ∨ place = .cancelled)
    {connected : Bool} (hconnected : connected = false) : Kept cfg log { c with connected, place } := by
  refine ⟨⟨h.books.lawful, h.books.reconnects, h.books.messages⟩, ?_, ?_, not_connected hconnected⟩
  · rcases hplace with rfl | rfl <;> trivial
  · rcases hplace with rfl | rfl <;> trivial

theorem Kept.cancel (h : Kept cfg log c) : Kept cfg log c.cancel := by
  unfold Loop.cancel
  cases hplace : c.place with
  | new => exact h.ended (Or.inr rfl) (h.disconnected (by simp [hplace]) (by simp [hplace]))
  | sleeping => exact h.ended (Or.inr rfl) (h.disconnected (by simp [hplace]) (by simp [hplace]))
  | connecting => exact h.ended (Or.inr rfl) rfl
  | closing cancelled => exact h.ended (Or.inr rfl) rfl
  | subscribing => exact h.close (Or.inl hplace) true
  | receiving => exact h.close (Or.inr hplace) true
  | returned => exact h
  | cancelled => exact h

theorem Kept.start (h : Kept cfg log c) (hplace : c.place = .new) :
    Kept cfg (log ++ (Loop.head cfg { c with delay := cfg.ws_reconnect_initial_delay_sec }).1)
      (Loop.head cfg { c with delay := cfg.ws_reconnect_initial_delay_sec }).2 := by
  have hfollows := h.follows
  rw [hplace] at hfollows
  obtain rfl : log = [] := hfollows
  exact Kept.head ⟨h.books.lawful, h.books.reconnects, h.books.messages⟩ (by simp) rfl
    (h.disconnected (by simp [hplace]) (by simp [hplace]))

theorem Kept.woke (hmax : 0 ≤ cfg.ws_reconnect_max_delay_sec) (h : Kept cfg log c)
    (hplace : c.place = .sleeping) :
    Kept cfg (log ++ (Loop.head cfg { c with delay := min (c.delay * 2) cfg.ws_reconnect_max_delay_sec }).1)
      (Loop.head cfg { c with delay := min (c.delay * 2) cfg.ws_reconnect_max_delay_sec }).2 := by
  have hfollows := h.follows
  have hdelayed := h.delayed
  rw [hplace] at hfollows
  simp only [Loop.Delayed, hplace] at hdelayed
  obtain ⟨act, hact, hsleeps⟩ := hfollows
  obtain ⟨n, hn, hdelay⟩ := hdelayed
  refine Kept.head ⟨h.books.lawful, h.books.reconnects, h.books.messages⟩ ?_ ?_
    (h.disconnected (by simp [hplace]) (by simp [hplace]))
  · intro a ha
    rw [hact] at ha
    cases ha
    exact hsleeps
  · dsimp only
    rw [hn, hdelay, backoff_succ hmax]

theorem Kept.opened (h : Kept cfg log c) (hplace : c.place = .connecting) :
    Kept cfg (log ++ [.send (subscribe_msg cfg.symbols)]) { c with place := .subscribing } := by
  have hfollows := h.follows
  have hdelayed := h.delayed
  rw [hplace] at hfollows
  simp only [Loop.Delayed, hplace] at hdelayed
  refine ⟨h.books.snoc ⟨rfl, hfollows⟩ rfl rfl, ⟨_, List.getLast?_concat ..⟩, ?_,
    not_connected (h.disconnected (by simp [hplace]) (by simp [hplace]))⟩
  simp only [Loop.Delayed, attempts_snoc]
  exact hdelayed

theorem Kept.sent (h : Kept cfg log c) (hplace : c.place = .subscribing) :
    Kept cfg (log ++ [.subscribed])
      { c with connected := true, delay := cfg.ws_reconnect_initial_delay_sec, place := .receiving } := by
  have hfollows := h.follows
  rw [hplace] at hfollows
  refine ⟨h.books.snoc hfollows rfl rfl, ⟨_, List.getLast?_concat .., rfl⟩, ?_, ?_⟩
  · simp only [Loop.Delayed, attempts_snoc]
    rfl
  · exact fun _ => ⟨Or.inl rfl, _, List.getLast?_concat .., rfl⟩

theorem Kept.step (hmax : 0 ≤ cfg.ws_reconnect_max_delay_sec) (h : Kept cfg log c)
    (event : LoopEvent Raw) :
    Kept cfg (log ++ (c.step py cfg event).1) (c.step py cfg event).2 := by
  have hfollows := h.follows
  have hdelayed := h.delayed
  unfold Loop.Delayed at hdelayed
  have hmove := step_move py cfg c event
  generalize c.step py cfg event = r at hmove ⊢
  cases hmove with
  | idle => simpa using h
  | start hplace => exact h.start hplace
  | opened hplace => exact h.opened hplace
  | refused hplace =>
    rw [hplace] at hfollows hdelayed
    obtain ⟨url, hurl⟩ := hfollows
    exact Kept.lost h.books ⟨_, hurl, rfl⟩ hdelayed
  | sent hplace => exact h.sent hplace
  | unsent hplace => simpa using h.close (Or.inl hplace) false
  | message hplace raw_message now_ms => exact h.receive hplace raw_message now_ms
  | ended hplace => simpa using h.close (Or.inr hplace) false
  | closed hplace =>
    rw [hplace] at hfollows hdelayed
    exact Kept.lost h.books hfollows hdelayed
  | cancelled hplace => simpa using h.ended (Or.inr rfl) rfl
  | woke hplace => exact h.woke hmax hplace
  | stop =>
    simpa using (⟨⟨h.books.lawful, h.books.reconnects, h.books.messages⟩, h.follows, h.delayed,
      h.connected⟩ : Kept cfg log { c with stop := true })
  | cancel => simpa using h.cancel

theorem run_kept (hmax : 0 ≤ cfg.ws_reconnect_max_delay_sec) (events : List (LoopEvent Raw)) :
    let r := run (Loop.step py cfg) Loop.new events
    Kept cfg r.1.flatten r.2 := by
  refine run_history (Loop.step py cfg) (P := fun _ out c => Kept cfg out.flatten c) ?_ ?_ events
  · exact ⟨⟨causal_nil _, rfl, rfl⟩, rfl, trivial, not_connected rfl⟩
  · intro _ out c event h
    rw [List.flatten_concat]
    exact h.step hmax event

end kept

/-- The loop keeps to its order, and it backs off. In every run, whatever the awaits give and
whenever `stop` and `cancel` come: the acts of the loop are rounds of a connect, a subscription, ticks
and a sleep, cut short where an await fails. The sleeps double the initial delay up to the maximum, from
the last subscription on. `reconnect_count` counts the sleeps, `messages_received` the ticks handed
on, and `connected` is set only after a subscription that no sleep has followed. -/
theorem the_loop_keeps_its_order_and_backs_off {Raw : Type} (py : Python Raw) (cfg : WsSettings)
    (hmax : 0 ≤ cfg.ws_reconnect_max_delay_sec) (events : List (LoopEvent Raw)) :
    let r := run (Loop.step py cfg) Loop.new events
    let log := r.1.flatten
    Causal (Lawful cfg) log ∧
      r.2.reconnect_count = log.countP LoopAct.sleeps ∧
      r.2.client.messages_received = (log.filterMap LoopAct.ticks).length ∧
      (r.2.connected → ∃ act, log.getLast? = some act ∧ act.streams) := by
  intro r log
  have h : Kept cfg log r.2 := run_kept hmax events
  exact ⟨h.books.lawful, h.books.reconnects, h.books.messages, fun hconnected => (h.connected hconnected).2⟩

/-- Two failures to connect, a connection that breaks while it subscribes, and one that streams: the
delays are 1, 2 and 4, and 1 again. -/
theorem the_loop_keeps_its_order_and_backs_off_of_four :
    let cfg : WsSettings := ⟨["BTC-USD"], "wss://feed", 1, 30⟩
    let events : List (LoopEvent Json) :=
      [.start, .opened false, .woke, .opened false, .woke, .opened true, .sent false, .closed, .woke,
        .opened true, .sent true, .ended, .closed]
    let r := run (Loop.step plainTexts cfg) Loop.new events
    r.2.reconnect_count = 4 ∧ r.1.flatten.getLast? = some (.sleep 1) ∧
      Causal (Lawful cfg) r.1.flatten := by
  intro cfg events r
  have h := the_loop_keeps_its_order_and_backs_off plainTexts cfg (by decide) events
  exact ⟨rfl, rfl, h.1⟩

/-! ## How the loop ends -/

def Place.ended : Place → Bool
  | .returned | .cancelled => true
  | .new | .connecting | .subscribing | .receiving | .closing _ | .sleeping => false

/-- The end of an await, and no call from outside. -/
def LoopEvent.own {Raw : Type} : LoopEvent Raw → Bool
  | .stop | .cancel => false
  | .start | .opened _ | .sent _ | .message _ _ | .ended | .closed | .woke => true

/-- How many awaits are left, at most, once the client is stopped. -/
def Place.awaits : Place → Nat
  | .connecting => 4
  | .subscribing => 3
  | .receiving => 2
  | .new | .closing _ | .sleeping => 1
  | .returned | .cancelled => 0

/-- What a stopped loop may still do: it subscribes. -/
def LoopAct.subscribes : LoopAct → Bool
  | .send _ | .subscribed => true
  | .connect _ | .on_tick _ | .sleep _ => false

/-- A step of a stopped loop. -/
structure Fading (c c' : Loop) (acts : List LoopAct) : Prop where
  stop : c'.stop = true
  awaits : c' = c ∨ c'.place.awaits < c.place.awaits
  acts : ∀ act ∈ acts, act.subscribes

section ending

variable {Raw : Type} {py : Python Raw} {cfg : WsSettings} {c : Loop}

theorem lost_stopped (h : c.stop) : c.lost = ([], { c with connected := false, place := .returned }) :=
  if_pos h

theorem Fading.le {c' : Loop} {acts : List LoopAct} (h : Fading c c' acts) :
    c'.place.awaits ≤ c.place.awaits := by
  rcases h.awaits with hsame | hlower
  · rw [hsame]
  · exact hlower.le

theorem fading_idle (h : c.stop) : Fading c c [] := ⟨h, Or.inl rfl, by simp⟩

/-- It moves on, without an act. -/
theorem fading_to {c' : Loop} (hstop : c'.stop) (hawaits : c'.place.awaits < c.place.awaits) :
    Fading c c' [] :=
  ⟨hstop, Or.inr hawaits, by simp⟩

theorem head_fading {d : Loop} (h : d.stop) (hawaits : 0 < c.place.awaits) :
    Fading c (d.head cfg).2 (d.head cfg).1 := by
  rw [show d.head cfg = ([], { d with place := .returned }) from if_pos h]
  exact fading_to h hawaits

theorem cancel_fading (h : c.stop) : Fading c c.cancel [] := by
  unfold Loop.cancel
  cases hplace : c.place with
  | returned => exact fading_idle h
  | cancelled => exact fading_idle h
  | _ => exact fading_to h (by simp [hplace, Place.awaits])

theorem step_fading (py : Python Raw) (cfg : WsSettings) (h : c.stop) (event : LoopEvent Raw) :
    Fading c (c.step py cfg event).2 (c.step py cfg event).1 := by
  have hmove := step_move py cfg c event
  generalize c.step py cfg event = r at hmove ⊢
  cases hmove with
  | idle => exact fading_idle h
  | start hplace => exact head_fading h (by simp [hplace, Place.awaits])
  | opened hplace =>
    exact ⟨h, Or.inr (by simp [hplace, Place.awaits]), by simp [LoopAct.subscribes]⟩
  | refused hplace =>
    rw [lost_stopped h]
    exact fading_to h (by simp [hplace, Place.awaits])
  | sent hplace =>
    exact ⟨h, Or.inr (by simp [hplace, Place.awaits]), by simp [LoopAct.subscribes]⟩
  | unsent hplace => exact fading_to h (by simp [hplace, Place.awaits])
  | message hplace raw_message now_ms =>
    unfold Loop.receive
    rw [if_pos h]
    exact fading_to h (by simp [hplace, Place.awaits])
  | ended hplace => exact fading_to h (by simp [hplace, Place.awaits])
  | closed hplace =>
    rw [lost_stopped h]
    exact fading_to h (by simp [hplace, Place.awaits])
  | cancelled hplace => exact fading_to h (by simp [hplace, Place.awaits])
  | woke hplace => exact head_fading h (by simp [hplace, Place.awaits])
  | stop =>
    have hsame : { c with stop := true } = c := by rw [← h]
    rw [hsame]
    exact fading_idle h
  | cancel => exact cancel_fading h

theorem head_place (cfg : WsSettings) (c : Loop) :
    (c.head cfg).2.place = .returned ∨ (c.head cfg).2.place = .connecting := by
  unfold Loop.head
  split
  · exact Or.inl rfl
  · exact Or.inr rfl

theorem lost_place (c : Loop) : c.lost.2.place = .returned ∨ c.lost.2.place = .sleeping := by
  unfold Loop.lost
  dsimp only
  split
  · exact Or.inl rfl
  · exact Or.inr rfl

/-- A loop that has not ended is at an await, and the end of the await moves it. -/
theorem ended_of_resting (hrest : Resting (Loop.step py cfg) LoopEvent.own c) : c.place.ended := by
  have hmoves (event : LoopEvent Raw) (hown : event.own) :
      (c.step py cfg event).2.place = c.place := congrArg Loop.place (hrest event hown)
  cases hplace : c.place with
  | new =>
    have h := hmoves .start rfl
    simp only [Loop.step] at h
    rw [if_pos hplace] at h
    have hhead := head_place cfg { c with delay := cfg.ws_reconnect_initial_delay_sec }
    rw [h, hplace] at hhead
    simp at hhead
  | connecting =>
    have h := hmoves (.opened false) rfl
    rcases lost_place c with h' | h' <;> simp [Loop.step, hplace, h'] at h
  | subscribing =>
    have h := hmoves (.sent false) rfl
    simp [Loop.step, hplace] at h
  | receiving =>
    have h := hmoves .ended rfl
    simp [Loop.step, hplace] at h
  | closing cancelled =>
    have h := hmoves .closed rfl
    cases cancelled with
    | true => simp [Loop.step, hplace] at h
    | false => rcases lost_place c with h' | h' <;> simp [Loop.step, hplace, h'] at h
  | sleeping =>
    have h := hmoves .woke rfl
    simp only [Loop.step] at h
    rw [if_pos hplace] at h
    have hhead := head_place cfg { c with delay := min (c.delay * 2) cfg.ws_reconnect_max_delay_sec }
    rw [h, hplace] at hhead
    simp at hhead
  | returned => rfl
  | cancelled => rfl

/-- Nobody has stopped or cancelled the loop. -/
def Loop.Alive (c : Loop) : Prop := c.stop = false ∧ c.place.ended = false ∧ c.place ≠ .closing true

theorem head_alive (h : c.stop = false) : (c.head cfg).2.Alive := by
  unfold Loop.head
  rw [if_neg (by simp [h])]
  exact ⟨h, rfl, by simp⟩

theorem lost_alive (h : c.stop = false) : c.lost.2.Alive := by
  unfold Loop.lost
  dsimp only
  rw [if_neg (by simp [h])]
  exact ⟨h, rfl, by simp⟩

theorem Loop.Alive.receive (h : c.Alive) (raw_message : Raw) (now_ms : Int) :
    (c.receive py raw_message now_ms).2.Alive := by
  unfold Loop.receive
  rw [if_neg (by simp [h.1])]
  split
  · exact h
  · exact h
  · exact ⟨h.1, rfl, by simp⟩

theorem Loop.Alive.step (h : c.Alive) {event : LoopEvent Raw} (hown : event.own) :
    (c.step py cfg event).2.Alive := by
  have hstop := h.1
  have hmove := step_move py cfg c event
  generalize c.step py cfg event = r at hmove ⊢
  cases hmove with
  | idle => exact h
  | start => exact head_alive hstop
  | opened => exact ⟨hstop, rfl, by simp⟩
  | refused => exact lost_alive hstop
  | sent => exact ⟨hstop, rfl, by simp⟩
  | unsent => exact ⟨hstop, rfl, by simp⟩
  | message hplace raw_message now_ms => exact h.receive raw_message now_ms
  | ended => exact ⟨hstop, rfl, by simp⟩
  | closed => exact lost_alive hstop
  | cancelled hplace => exact absurd hplace h.2.2
  | woke => exact head_alive hstop
  | stop => cases hown
  | cancel => cases hown

theorem run_alive (events : List (LoopEvent Raw)) (hown : ∀ event ∈ events, event.own) :
    (run (Loop.step py cfg) Loop.new events).2.Alive := by
  refine run_history (Loop.step py cfg)
    (P := fun events _ c => (∀ event ∈ events, event.own) → c.Alive) ?_ ?_ events hown
  · intro _
    exact ⟨rfl, rfl, by simp [Loop.new]⟩
  · intro events _ c event ih hown
    exact (ih fun e he => hown e (by simp [he])).step (hown event (by simp))

/-- A run of a stopped loop. -/
theorem run_fading (h : c.stop) (events : List (LoopEvent Raw)) :
    ∀ act ∈ (run (Loop.step py cfg) c events).1.flatten, act.subscribes := by
  have hrun : (run (Loop.step py cfg) c events).2.stop ∧
      ∀ act ∈ (run (Loop.step py cfg) c events).1.flatten, act.subscribes := by
    refine run_history (Loop.step py cfg)
      (P := fun _ out d => d.stop ∧ ∀ act ∈ out.flatten, act.subscribes) ⟨h, by simp⟩ ?_ events
    intro _ out d event ⟨hstop, hacts⟩
    have hstep := step_fading py cfg hstop event
    refine ⟨hstep.stop, fun act hact => ?_⟩
    rw [List.flatten_concat] at hact
    rcases List.mem_append.mp hact with hact | hact
    · exact hacts act hact
    · exact hstep.acts act hact
  exact hrun.2

end ending

/-- Only a stop or a cancellation ends the loop, and a stop does. In every run, whatever the awaits
give: while neither came the loop goes on, after any failure and any message. And after a stop, at any
point, the loop starts no new connection, though one that it was opening may still come and be
subscribed; it hands on no tick and never sleeps; at most four of its awaits end before it ends, and it
is never stuck before that. -/
theorem only_a_stop_or_a_cancellation_ends_the_loop {Raw : Type} (py : Python Raw) (cfg : WsSettings)
    (before after : List (LoopEvent Raw)) :
    let step := Loop.step py cfg
    let c := (run step Loop.new before).2
    let stopped := (step c .stop).2
    (c.place.ended → ∃ event ∈ before, event.own = false) ∧
      (∀ act ∈ (run step stopped after).1.flatten, act.subscribes) ∧
      (Busy step LoopEvent.own stopped after → after.countP LoopEvent.own ≤ 4) ∧
      (Resting step LoopEvent.own (run step stopped after).2 →
        (run step stopped after).2.place.ended) := by
  intro step c stopped
  have hstopped : stopped.stop = true := rfl
  refine ⟨fun hended => ?_, run_fading hstopped after, fun hbusy => ?_, ended_of_resting⟩
  · by_contra hnone
    push Not at hnone
    have halive : c.Alive := run_alive before fun event hevent => by simpa using hnone event hevent
    rw [halive.2.1] at hended
    cases hended
  · have hrank := run_rank step (μ := fun c => c.place.awaits) (I := fun c => c.stop = true)
      (fun c event h => (step_fading py cfg h event).stop)
      (fun c event h _ => (step_fading py cfg h event).le)
      (fun c event h _ => (step_fading py cfg h event).awaits) hstopped hbusy
    have hawaits : stopped.place.awaits ≤ 4 := by
      cases stopped.place <;> simp [Place.awaits]
    omega

/-! ## The loop feeds the pipeline

`Feed` takes a message at any time. The loop takes it where a connection gives it, and what it does to
the pipeline is what `Feed` does. -/

/-- `main.py`: the loop's `on_tick` is `pipeline.ingest`. -/
structure Ingest where
  loop : Loop
  pipeline : Pipeline

inductive IngestOp (Raw : Type)
  | loop (event : LoopEvent Raw)
  | consume_symbol (symbol : Symbol)
  | rate_round (elapsed : ℚ)

section ingest

variable {Raw : Type} (py : Python Raw) (ws : WsSettings) (cfg : Settings)

def Ingest.new (symbols : List Symbol) (persistence : Bool) : Ingest :=
  { loop := Loop.new
    pipeline := Pipeline.new py.upper cfg symbols persistence }

def Ingest.step (s : Ingest) : IngestOp Raw → List Obs × Ingest
  | .loop event =>
    let (acts, loop) := s.loop.step py ws event
    ([], { loop, pipeline := (acts.filterMap LoopAct.ticks).foldl Pipeline.ingest s.pipeline })
  | .consume_symbol symbol =>
    let (obs, pipeline) := s.pipeline.consume_symbol cfg symbol
    (obs, { s with pipeline })
  | .rate_round elapsed =>
    let (obs, pipeline) := s.pipeline.rate_round elapsed
    (obs, { s with pipeline })

/-- What an operation is to the feed. -/
def IngestOp.feeds : IngestOp Raw → List (FeedOp Raw)
  | .loop (.message raw_message now_ms) => [.message raw_message now_ms]
  | .loop _ => []
  | .consume_symbol symbol => [.consume_symbol symbol]
  | .rate_round elapsed => [.rate_round elapsed]

/-- A message comes from a connection that the loop reads, and the client is not stopped. -/
def Streams (s : Ingest) (op : IngestOp Raw) : Prop :=
  ∀ raw_message now_ms, op = .loop (.message raw_message now_ms) →
    s.loop.place = .receiving ∧ s.loop.stop = false

def Ingest.feed (s : Ingest) : Feed := ⟨s.loop.client, s.pipeline⟩

end ingest

section feed

variable {Raw : Type} {py : Python Raw} {ws : WsSettings} {cfg : Settings}

theorem head_quiet (c : Loop) :
    (c.head ws).2.client = c.client ∧ (c.head ws).1.filterMap LoopAct.ticks = [] := by
  unfold Loop.head
  split <;> exact ⟨rfl, rfl⟩

theorem lost_quiet (c : Loop) : c.lost.2.client = c.client ∧ c.lost.1.filterMap LoopAct.ticks = [] := by
  unfold Loop.lost
  dsimp only
  split <;> exact ⟨rfl, rfl⟩

theorem cancel_client (c : Loop) : c.cancel.client = c.client := by
  unfold Loop.cancel
  split <;> rfl

/-- Only a message gives a tick. -/
theorem step_quiet (py : Python Raw) (ws : WsSettings) (c : Loop) {event : LoopEvent Raw}
    (h : ∀ raw_message now_ms, event ≠ .message raw_message now_ms) :
    (c.step py ws event).2.client = c.client ∧
      (c.step py ws event).1.filterMap LoopAct.ticks = [] := by
  have hmove := step_move py ws c event
  generalize c.step py ws event = r at hmove ⊢
  cases hmove with
  | start => exact head_quiet _
  | refused => exact lost_quiet c
  | message hplace raw_message now_ms => exact absurd rfl (h raw_message now_ms)
  | closed => exact lost_quiet c
  | woke => exact head_quiet _
  | cancel => exact ⟨cancel_client c, rfl⟩
  | _ => exact ⟨rfl, rfl⟩

/-- One operation is what the feed does, over the message if the loop takes it. -/
theorem Ingest.step_feed (py : Python Raw) (ws : WsSettings) (cfg : Settings) (s : Ingest)
    (op : IngestOp Raw) :
    ∃ taken : List (FeedOp Raw), taken.Sublist op.feeds ∧ (Streams s op → taken = op.feeds) ∧
      (run (Feed.step py cfg) s.feed taken).1.flatten = (s.step py ws cfg op).1 ∧
      (run (Feed.step py cfg) s.feed taken).2 = (s.step py ws cfg op).2.feed := by
  cases op with
  | consume_symbol symbol => exact ⟨_, List.Sublist.refl _, fun _ => rfl, List.append_nil _, rfl⟩
  | rate_round elapsed => exact ⟨_, List.Sublist.refl _, fun _ => rfl, List.append_nil _, rfl⟩
  | loop event =>
    by_cases hmessage : ∃ raw_message now_ms, event = .message raw_message now_ms
    · obtain ⟨raw_message, now_ms, rfl⟩ := hmessage
      by_cases htakes : s.loop.place = .receiving ∧ s.loop.stop = false
      · refine ⟨_, List.Sublist.refl _, fun _ => rfl, ?_, ?_⟩
        · simp only [IngestOp.feeds, run_cons, run_nil, Ingest.step, Feed.step]
          split <;> rfl
        · simp only [IngestOp.feeds, run_cons, run_nil, Ingest.step, Ingest.feed, Feed.step, Loop.step,
            Loop.receive, htakes]
          rcases handle_raw_cases py s.loop.client raw_message now_ms with
            ⟨e, hraw, -⟩ | ⟨hraw, -⟩ | ⟨tick, hraw, -⟩ <;> simp [hraw, LoopAct.ticks]
      · refine ⟨[], List.nil_sublist _, fun h => absurd (h raw_message now_ms rfl) htakes, rfl, ?_⟩
        simp only [run_nil, Ingest.step, Ingest.feed, Loop.step, Loop.receive]
        split
        · rename_i hplace
          rw [if_pos (by simpa [hplace] using htakes)]
          rfl
        · rfl
    · push Not at hmessage
      obtain ⟨hclient, hticks⟩ := step_quiet py ws s.loop hmessage
      have hnone : (IngestOp.loop event : IngestOp Raw).feeds = [] := by
        cases event with
        | message raw_message now_ms => exact absurd rfl (hmessage raw_message now_ms)
        | _ => rfl
      refine ⟨[], List.nil_sublist _, fun _ => hnone.symm, rfl, ?_⟩
      simp only [run_nil, Ingest.step, Ingest.feed, hclient, hticks]
      rfl

end feed

/-- Through all its connections the loop is one feed. In every run of the loop and of the consumers,
with any failures, reconnects, stops and cancellations: the pipeline and the counter of the client are
what `Feed` makes of some of the messages in their order, those that the loop takes. It takes all of
them when each comes from a connection that it reads while it is not stopped. -/
theorem the_loop_is_one_feed_through_all_connections {Raw : Type} (py : Python Raw) (ws : WsSettings)
    (cfg : Settings) (symbols : List Symbol) (persistence : Bool) (ops : List (IngestOp Raw)) :
    let step := Ingest.step py ws cfg
    let start := Ingest.new py cfg symbols persistence
    let r := run step start ops
    ∃ taken : List (FeedOp Raw), taken.Sublist (ops.flatMap IngestOp.feeds) ∧
      (Along step Streams start ops → taken = ops.flatMap IngestOp.feeds) ∧
      let f := run (Feed.step py cfg) (Feed.new py cfg symbols persistence) taken
      f.1.flatten = r.1.flatten ∧ f.2.client = r.2.loop.client ∧ f.2.pipeline = r.2.pipeline := by
  intro step start r
  have hrun : ∀ (ops : List (IngestOp Raw)) (s : Ingest), ∃ taken : List (FeedOp Raw),
      taken.Sublist (ops.flatMap IngestOp.feeds) ∧
        (Along step Streams s ops → taken = ops.flatMap IngestOp.feeds) ∧
        (run (Feed.step py cfg) s.feed taken).1.flatten = (run step s ops).1.flatten ∧
        (run (Feed.step py cfg) s.feed taken).2 = (run step s ops).2.feed := by
    intro ops
    induction ops with
    | nil => exact fun s => ⟨[], List.nil_sublist _, fun _ => rfl, rfl, rfl⟩
    | cons op ops ih =>
      intro s
      obtain ⟨now, hsub, hall, hobs, hfeed⟩ := s.step_feed py ws cfg op
      obtain ⟨later, hsubLater, hallLater, hobsLater, hfeedLater⟩ := ih (s.step py ws cfg op).2
      refine ⟨now ++ later, ?_, fun ⟨hop, hops⟩ => ?_, ?_, ?_⟩
      · rw [List.flatMap_cons]
        exact hsub.append hsubLater
      · rw [List.flatMap_cons, hall hop, hallLater hops]
      · simp only [run_append, run_cons, List.flatten_append, List.flatten_cons, hfeed, hobs, hobsLater]
        rfl
      · simp only [run_append, run_cons, hfeed, hfeedLater]
        rfl
  obtain ⟨taken, hsub, hall, hobs, hfeed⟩ := hrun ops start
  exact ⟨taken, hsub, hall, hobs, congrArg Feed.client hfeed, congrArg Feed.pipeline hfeed⟩

/-- A trade on each of two connections: the loop takes both. -/
theorem the_loop_is_one_feed_through_all_connections_of_two :
    let trade (trade_id : Int) : Json := .object [("type", .str "match"), ("trade_id", .int trade_id),
      ("time", .str "2024-01-01T00:00:00Z"), ("product_id", .str "BTC-USD"), ("price", .str "100"),
      ("size", .str "1")]
    let ws : WsSettings := ⟨["BTC-USD"], "wss://feed", 1, 30⟩
    let ops : List (IngestOp Json) :=
      [.loop .start, .loop (.opened true), .loop (.sent true), .loop (.message (trade 1) 0),
        .consume_symbol "BTC-USD", .loop .ended, .loop .closed, .loop .woke, .loop (.opened true),
        .loop (.sent true), .loop (.message (trade 2) 0), .consume_symbol "BTC-USD"]
    let r := run (Ingest.step plainTexts ws settings) (Ingest.new plainTexts settings ["BTC-USD"] true) ops
    let f := run (Feed.step plainTexts settings) (Feed.new plainTexts settings ["BTC-USD"] true)
      (ops.flatMap IngestOp.feeds)
    r.2.loop.reconnect_count = 1 ∧ r.2.loop.client.messages_received = 2 ∧
      f.2.client = r.2.loop.client ∧ f.2.pipeline = r.2.pipeline := by
  intro trade ws ops r f
  have hstreams : Along (Ingest.step plainTexts ws settings) Streams
      (Ingest.new plainTexts settings ["BTC-USD"] true) ops := by
    refine ⟨?_, ?_, ?_, fun _ _ _ => by decide +kernel, ?_, ?_, ?_, ?_, ?_, ?_,
      fun _ _ _ => by decide +kernel, ?_, trivial⟩ <;> rintro _ _ ⟨⟩
  have hcounts : r.2.loop.reconnect_count = 1 ∧ r.2.loop.client.messages_received = 2 := by
    decide +kernel
  obtain ⟨taken, -, hall, -, hclient, hpipeline⟩ := the_loop_is_one_feed_through_all_connections
    plainTexts ws settings ["BTC-USD"] true ops
  rw [hall hstreams] at hclient hpipeline
  -- Compared as they stand: left folded, both runs would be evaluated.
  simp only [r, f] at hcounts ⊢
  exact ⟨hcounts.1, hcounts.2, hclient, hpipeline⟩

end tick_pipeline.coinbase_client
