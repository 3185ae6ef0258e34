-- The fan-out of `api/ws_broadcast.py`: one bounded queue and one sender task for
-- each connected client. A publish never waits, so what one client gets is a matter
-- between the publishers and its own sender.
import TickPipeline.Lib.DropOldest
import TickPipeline.Lib.Runs
import Mathlib.Data.List.AList

namespace tick_pipeline.ws_broadcast

open runs drop_oldest

/-! ## The code -/

/-- An `asyncio.Queue(maxsize)`: a bounded queue, without limit when `maxsize` is 0. -/
structure Queue (Event : Type) (maxsize : Nat) where
  items : List Event
  fits : 0 < maxsize → items.length ≤ maxsize

section queue

variable {Event : Type} {maxsize : Nat}

def Queue.new (Event : Type) (maxsize : Nat) : Queue Event maxsize := ⟨[], fun _ => Nat.zero_le _⟩

def Queue.Full (q : Queue Event maxsize) : Prop := 0 < maxsize ∧ maxsize ≤ q.items.length

instance (q : Queue Event maxsize) : Decidable q.Full := by unfold Queue.Full; infer_instance

theorem Queue.room {q : Queue Event maxsize} (h : ¬ q.Full) (event : Event) (hpos : 0 < maxsize) :
    (q.items ++ [event]).length ≤ maxsize := by
  have hlt : q.items.length < maxsize := not_le.mp (fun hle => h ⟨hpos, hle⟩)
  rw [List.length_append, List.length_singleton]
  omega

/-- Nothing when it raises `QueueFull`. -/
def Queue.put_nowait (q : Queue Event maxsize) (event : Event) : Option (Queue Event maxsize) :=
  if h : q.Full then none else some ⟨q.items ++ [event], q.room h event⟩

/-- Nothing when it raises `QueueEmpty`. -/
def Queue.get_nowait (q : Queue Event maxsize) : Option (Event × Queue Event maxsize) :=
  match q with
  | ⟨[], _⟩ => none
  | ⟨event :: rest, fits⟩ => some (event, ⟨rest, fun hpos => Nat.le_of_lt (fits hpos)⟩)

end queue

def CLIENT_QUEUE_MAXSIZE : Nat := 1000

structure Client (Event : Type) where
  queue : Queue Event CLIENT_QUEUE_MAXSIZE
  dropped : Nat

def Client.new (Event : Type) : Client Event := ⟨Queue.new Event CLIENT_QUEUE_MAXSIZE, 0⟩

/-- Where the `_sender_loop` of a client stands. -/
inductive Sender (Event : Type)
  | getting
  | sending (event : Event)
  | returned

/-- The dicts of the code. A websocket is a key, and what it sends is up to its sender. The task
of a client that was removed or replaced works on an object that is in no dict any more. -/
structure BroadcastManager (Ws Event : Type) where
  _clients : AList (fun _ : Ws => Client Event)
  _tasks : AList (fun _ : Ws => Sender Event)

section manager

variable {Ws Event : Type} [DecidableEq Ws]

def BroadcastManager.new (Ws Event : Type) : BroadcastManager Ws Event := ⟨∅, ∅⟩

/-- `connect`, from where `ws.accept()` has returned. -/
def BroadcastManager.connect (m : BroadcastManager Ws Event) (ws : Ws) : BroadcastManager Ws Event :=
  { _clients := m._clients.insert ws (Client.new Event)
    _tasks := m._tasks.insert ws .getting }

def BroadcastManager.disconnect (m : BroadcastManager Ws Event) (ws : Ws) :
    BroadcastManager Ws Event :=
  { _clients := m._clients.erase ws
    _tasks := m._tasks.erase ws }

/-- The body of the loop of `publish_nowait`. -/
def Client.publish (client : Client Event) (event : Event) : Client Event :=
  match client.queue.put_nowait event with
  | some queue => { client with queue }
  | none =>
    let queue := match client.queue.get_nowait with
      | some (_, queue) => queue
      | none => client.queue
    let client := { client with queue, dropped := client.dropped + 1 }
    match queue.put_nowait event with
    | some queue => { client with queue }
    | none => client

/-- A loop over the values of a dict. -/
def mapValues {β : Type} (f : β → β) (d : AList (fun _ : Ws => β)) : AList (fun _ : Ws => β) :=
  ⟨d.entries.map (fun x => ⟨x.1, f x.2⟩), d.nodupKeys.map₂ (fun _ => f) _⟩

def BroadcastManager.publish_nowait (m : BroadcastManager Ws Event) (event : Event) :
    BroadcastManager Ws Event :=
  { m with _clients := mapValues (fun client => client.publish event) m._clients }

def BroadcastManager.publish_many_nowait (m : BroadcastManager Ws Event) (events : List Event) :
    BroadcastManager Ws Event :=
  events.foldl BroadcastManager.publish_nowait m

/-- The sender of `ws` goes on from `queue.get()`, when there is an event. It gives the event. -/
def BroadcastManager.sender_get (m : BroadcastManager Ws Event) (ws : Ws) :
    List (Ws × Event) × BroadcastManager Ws Event :=
  match m._tasks.lookup ws, m._clients.lookup ws with
  | some .getting, some client =>
    match client.queue.get_nowait with
    | some (event, queue) =>
      ([(ws, event)],
        { _clients := m._clients.insert ws { client with queue }
          _tasks := m._tasks.insert ws (.sending event) })
    | none => ([], m)
  | _, _ => ([], m)

/-- The sender of `ws` goes on from `ws.send_json(event)`: it gets the next event, or it returns
when the send raised. -/
def BroadcastManager.sender_send (m : BroadcastManager Ws Event) (ws : Ws) (raised : Bool) :
    BroadcastManager Ws Event :=
  match m._tasks.lookup ws with
  | some (.sending _) =>
    { m with _tasks := m._tasks.insert ws (if raised then .returned else .getting) }
  | _ => m

end manager

/-! ## The machine -/

/-- What can happen between two awaits. A sender that stalls takes no step. -/
inductive Op (Ws Event : Type)
  | connect (ws : Ws)
  | disconnect (ws : Ws)
  | publish_nowait (event : Event)
  | publish_many_nowait (events : List Event)
  | sender_get (ws : Ws)
  | sender_send (ws : Ws) (raised : Bool)

section machine

variable {Ws Event : Type} [DecidableEq Ws]

/-- A step, with the event that a sender took in it. -/
def BroadcastManager.step (m : BroadcastManager Ws Event) :
    Op Ws Event → List (Ws × Event) × BroadcastManager Ws Event
  | .connect ws => ([], m.connect ws)
  | .disconnect ws => ([], m.disconnect ws)
  | .publish_nowait event => ([], m.publish_nowait event)
  | .publish_many_nowait events => ([], m.publish_many_nowait events)
  | .sender_get ws => m.sender_get ws
  | .sender_send ws raised => ([], m.sender_send ws raised)

/-- The events that an op publishes. -/
def Op.published : Op Ws Event → List Event
  | .publish_nowait event => [event]
  | .publish_many_nowait events => events
  | _ => []

/-- The op says something to the client of `ws`: a publish, or an op of its own. -/
def Op.concerns (ws : Ws) : Op Ws Event → Bool
  | .connect ws' => ws' = ws
  | .disconnect ws' => ws' = ws
  | .publish_nowait _ => true
  | .publish_many_nowait _ => true
  | .sender_get ws' => ws' = ws
  | .sender_send ws' _ => ws' = ws

/-- The events that the sender of `ws` took, out of all that senders took. -/
def takenBy (ws : Ws) (takes : List (Ws × Event)) : List Event :=
  (takes.filter (fun x => x.1 = ws)).map (·.2)

end machine

end tick_pipeline.ws_broadcast
