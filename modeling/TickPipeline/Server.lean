-- The server of `main.py` as its pages see it: the pipeline publishes the events of its
-- batches, the heartbeat its stats, and a sender for each page takes them to it.
import TickPipeline.BroadcastLaws
import TickPipeline.Dashboard

namespace tick_pipeline.main

open runs drop_oldest models pipeline ws_broadcast dashboard

/-! ## The code -/

/-- `Pipeline.snapshot_stats`. The keys of a dict stand where they first came. -/
def Pipeline.snapshot_stats (p : Pipeline) : List SymbolStats :=
  p.symbols.eraseDups.map (fun symbol => (p.stats symbol).to_dict)

structure Server (Ws : Type) where
  pipeline : Pipeline
  broadcast : BroadcastManager Ws Message

def Server.new (Ws : Type) (upper : Symbol → Symbol) (cfg : Settings) (symbols : List Symbol)
    (persistence : Bool) : Server Ws :=
  { pipeline := Pipeline.new upper cfg symbols persistence
    broadcast := BroadcastManager.new Ws Message }

/-- What can happen between two awaits. -/
inductive ServerOp (Ws : Type)
  | pipeline (op : pipeline.Op)
  /-- The loop of `_stats_heartbeat` goes on. -/
  | stats_heartbeat
  | connect (ws : Ws)
  | disconnect (ws : Ws)
  | sender_get (ws : Ws)
  | sender_send (ws : Ws) (raised : Bool)

/-- What a step gives out: of the pipeline, to all pages, and to the sender of one. -/
structure Given (Ws : Type) where
  obs : List Obs
  published : List Message
  taken : List (Ws × Message)

section server

variable {Ws : Type} [DecidableEq Ws]

/-- A step of the pipeline, and `_on_events` on what it returned. Nothing awaits between the two. -/
def Server.pipeline_step (cfg : Settings) (s : Server Ws) (op : pipeline.Op) :
    Given Ws × Server Ws :=
  let (obs, pipeline) := s.pipeline.step cfg op
  let events := (obs.flatMap Obs.events).map Message.event
  (⟨obs, events, []⟩, { pipeline, broadcast := s.broadcast.publish_many_nowait events })

/-- The body of the loop of `_stats_heartbeat`. -/
def Server.heartbeat (s : Server Ws) : Given Ws × Server Ws :=
  let msg := Message.stats (Pipeline.snapshot_stats s.pipeline)
  (⟨[], [msg], []⟩, { s with broadcast := s.broadcast.publish_nowait msg })

def Server.step (cfg : Settings) (s : Server Ws) : ServerOp Ws → Given Ws × Server Ws
  | .pipeline op => s.pipeline_step cfg op
  | .stats_heartbeat => s.heartbeat
  | .connect ws => (⟨[], [], []⟩, { s with broadcast := s.broadcast.connect ws })
  | .disconnect ws => (⟨[], [], []⟩, { s with broadcast := s.broadcast.disconnect ws })
  | .sender_get ws =>
    let (taken, broadcast) := s.broadcast.sender_get ws
    (⟨[], [], taken⟩, { s with broadcast })
  | .sender_send ws raised =>
    (⟨[], [], []⟩, { s with broadcast := s.broadcast.sender_send ws raised })

/-! ## The two parts of a run -/

def ServerOp.ofPipeline : ServerOp Ws → Option pipeline.Op
  | .pipeline op => some op
  | _ => none

/-- What a step is for the fan-out, when it publishes `messages`. -/
def ServerOp.fanOut (messages : List Message) : ServerOp Ws → ws_broadcast.Op Ws Message
  | .pipeline _ => .publish_many_nowait messages
  | .stats_heartbeat => .publish_many_nowait messages
  | .connect ws => .connect ws
  | .disconnect ws => .disconnect ws
  | .sender_get ws => .sender_get ws
  | .sender_send ws raised => .sender_send ws raised

/-- The op gives `ws` a new client, or takes its client away. -/
def ServerOp.turnover (ws : Ws) (op : ServerOp Ws) : Bool := (op.fanOut []).turnover ws

variable {cfg : Settings} {s : Server Ws}

/-- The pipeline of the server runs as it would on its own. -/
theorem run_server_pipeline (cfg : Settings) (s : Server Ws) (ops : List (ServerOp Ws)) :
    let r := run (Server.step cfg) s ops
    let p := run (Pipeline.step cfg) s.pipeline (ops.filterMap ServerOp.ofPipeline)
    r.1.flatMap Given.obs = p.1.flatten ∧ r.2.pipeline = p.2 := by
  induction ops generalizing s with
  | nil => exact ⟨rfl, rfl⟩
  | cons op ops ih =>
    obtain ⟨hobs, hstate⟩ := ih (Server.step cfg s op).2
    cases op with
    | pipeline op =>
      rw [List.filterMap_cons_some (by rfl), run_cons, run_cons]
      exact ⟨congrArg (_ ++ ·) hobs, hstate⟩
    | stats_heartbeat | connect ws | disconnect ws | sender_get ws | sender_send ws raised =>
      rw [List.filterMap_cons_none (by rfl), run_cons]
      exact ⟨hobs, hstate⟩

/-- A step is a step of the fan-out. -/
theorem step_broadcast (cfg : Settings) (s : Server Ws) (op : ServerOp Ws) :
    let r := Server.step cfg s op
    s.broadcast.step (op.fanOut r.1.published) = (r.1.taken, r.2.broadcast) ∧
      (op.fanOut r.1.published).published = r.1.published := by
  cases op <;> exact ⟨rfl, rfl⟩

theorem fanOut_turnover (messages : List Message) (op : ServerOp Ws) (ws : Ws) :
    (op.fanOut messages).turnover ws = op.turnover ws := by
  cases op <;> rfl

/-- Steps that keep the client of `ws`. -/
theorem run_feeds {ws : Ws} (ops : List (ServerOp Ws)) (hops : ∀ op ∈ ops, op.turnover ws = false)
    {client : Client Message}
    (h : (run (Server.step cfg) s ops).2.broadcast._clients.lookup ws = some client) :
    ∃ client₀, s.broadcast._clients.lookup ws = some client₀ ∧
      Feeds ((run (Server.step cfg) s ops).1.flatMap Given.published)
        (takenBy ws ((run (Server.step cfg) s ops).1.flatMap Given.taken)) client₀ client := by
  induction ops generalizing s with
  | nil => exact ⟨client, h, feeds_refl client⟩
  | cons op ops ih =>
    obtain ⟨client₁, h₁, hfeeds₁⟩ := ih (fun o ho => hops o (by simp [ho])) h
    obtain ⟨hstep, hpublished⟩ := step_broadcast cfg s op
    have hkept := (fanOut_turnover (Server.step cfg s op).1.published op ws).trans (hops op (by simp))
    have hnext : (s.broadcast.step (op.fanOut (Server.step cfg s op).1.published)).2._clients.lookup ws =
        some client₁ := by
      rw [hstep]
      exact h₁
    obtain ⟨client₀, h₀, hfeeds₀⟩ := ws_broadcast.step_feeds hkept hnext
    rw [hpublished, hstep] at hfeeds₀
    refine ⟨client₀, h₀, ?_⟩
    have htaken : takenBy ws ((run (Server.step cfg) s (op :: ops)).1.flatMap Given.taken) =
        takenBy ws (Server.step cfg s op).1.taken ++
          takenBy ws ((run (Server.step cfg) (Server.step cfg s op).2 ops).1.flatMap Given.taken) := by
      simp [takenBy]
    rw [htaken]
    exact hfeeds₀.trans hfeeds₁

/-- A client that dropped nothing and holds nothing was sent all that was published since it
connected. -/
theorem sent_all {ws : Ws} (ops : List (ServerOp Ws)) (hops : ∀ op ∈ ops, op.turnover ws = false)
    {client : Client Message}
    (h : (run (Server.step cfg) (Server.step cfg s (.connect ws)).2 ops).2.broadcast._clients.lookup ws
      = some client)
    (hdropped : client.dropped = 0) (hempty : client.queue.items = []) :
    takenBy ws ((run (Server.step cfg) (Server.step cfg s (.connect ws)).2 ops).1.flatMap Given.taken) =
      (run (Server.step cfg) (Server.step cfg s (.connect ws)).2 ops).1.flatMap Given.published := by
  obtain ⟨client₀, h₀, hfeeds⟩ := run_feeds ops hops h
  obtain rfl : Client.new Message = client₀ := by
    simpa [Server.step, BroadcastManager.connect] using h₀
  have hfed := hfeeds [] [] fed_empty
  rw [List.nil_append, List.nil_append] at hfed
  have htotal := hfed.total
  have hsub := hfed.in_order
  simp only [Client.fifo, hempty, hdropped, List.length_nil, Nat.add_zero, List.append_nil] at htotal hsub
  exact hsub.eq_of_length htotal

end server

end tick_pipeline.main
