-- The laws of the fan-out: each client stands on its own, and what it holds is a
-- queue that dropped its oldest events to make room.
import TickPipeline.Broadcast

namespace tick_pipeline.ws_broadcast

open runs drop_oldest

variable {Ws Event : Type}

/-! ## One client as a drop-oldest queue -/

/-- The queue of a client with its count of dropped events. -/
def Client.fifo (client : Client Event) : Fifo Event := ⟨client.queue.items, client.dropped⟩

theorem Client.fits (client : Client Event) : client.queue.items.length ≤ CLIENT_QUEUE_MAXSIZE :=
  client.queue.fits (by decide)

theorem put_nowait_room {maxsize : Nat} {q : Queue Event maxsize} (event : Event)
    (h : q.items.length < maxsize) :
    ∃ q', q.put_nowait event = some q' ∧ q'.items = q.items ++ [event] := by
  have hfull : ¬ q.Full := fun hf => absurd hf.2 (not_le.mpr h)
  exact ⟨_, dif_neg hfull, rfl⟩

/-- A publish is a push: on a full queue the oldest event makes room for the new one, and neither
of the inner exceptions is ever raised. -/
theorem publish_fifo (client : Client Event) (event : Event) :
    (client.publish event).fifo = (push CLIENT_QUEUE_MAXSIZE client.fifo event).2 := by
  rcases lt_or_eq_of_le client.fits with hlt | heq
  · obtain ⟨q', hput, hitems⟩ := put_nowait_room event hlt
    rw [push_room _ _ _ hlt]
    unfold Client.publish
    rw [hput]
    simp [Client.fifo, hitems]
  · have hfull : client.queue.Full := ⟨by decide, Nat.le_of_eq heq.symm⟩
    have hnone : client.queue.put_nowait event = none := dif_pos hfull
    rw [push_full _ _ _ heq]
    unfold Client.publish
    rw [hnone]
    obtain ⟨⟨items, fits⟩, dropped⟩ := client
    cases items with
    | nil => cases heq
    | cons oldest rest =>
      have hroom : rest.length < CLIENT_QUEUE_MAXSIZE := by
        rw [← heq]
        exact Nat.lt_succ_self rest.length
      obtain ⟨q', hput, hitems⟩ := put_nowait_room (q := ⟨rest, fun hpos => Nat.le_of_lt (fits hpos)⟩)
        event hroom
      simp only [Queue.get_nowait]
      rw [hput]
      simp [Client.fifo, hitems]

theorem get_nowait_fifo {client : Client Event} {event : Event} {queue : Queue Event CLIENT_QUEUE_MAXSIZE}
    (h : client.queue.get_nowait = some (event, queue)) :
    take client.fifo (some 1) = ([event], Client.fifo { client with queue }) := by
  obtain ⟨⟨items, fits⟩, dropped⟩ := client
  cases items with
  | nil => cases h
  | cons first rest =>
    simp only [Queue.get_nowait, Option.some.injEq, Prod.mk.injEq] at h
    obtain ⟨rfl, rfl⟩ := h
    rfl

/-! ## What there is of one websocket -/

structure Slot (Event : Type) where
  client : Option (Client Event)
  task : Option (Sender Event)

inductive SlotOp (Event : Type)
  | connect
  | disconnect
  | publish (event : Event)
  | sender_get
  | sender_send (raised : Bool)

def Slot.step (ws : Ws) (slot : Slot Event) : SlotOp Event → List (Ws × Event) × Slot Event
  | .connect => ([], ⟨some (Client.new Event), some .getting⟩)
  | .disconnect => ([], ⟨none, none⟩)
  | .publish event => ([], { slot with client := slot.client.map (fun client => client.publish event) })
  | .sender_get =>
    match slot.task, slot.client with
    | some .getting, some client =>
      match client.queue.get_nowait with
      | some (event, queue) => ([(ws, event)], ⟨some { client with queue }, some (.sending event)⟩)
      | none => ([], slot)
    | _, _ => ([], slot)
  | .sender_send raised =>
    match slot.task with
    | some (.sending _) => ([], { slot with task := some (if raised then .returned else .getting) })
    | _ => ([], slot)

theorem slot_get_cases (ws : Ws) (slot : Slot Event) :
    slot.step ws .sender_get = ([], slot) ∨
    ∃ client event queue, slot.client = some client ∧
      client.queue.get_nowait = some (event, queue) ∧
      slot.step ws .sender_get =
        ([(ws, event)], ⟨some { client with queue }, some (.sending event)⟩) := by
  obtain ⟨client, task⟩ := slot
  unfold Slot.step
  dsimp only
  rcases task with _ | (_ | event | _)
  · exact Or.inl rfl
  · rcases client with _ | client
    · exact Or.inl rfl
    · dsimp only
      rcases hget : client.queue.get_nowait with _ | ⟨event, queue⟩
      · exact Or.inl rfl
      · exact Or.inr ⟨client, event, queue, rfl, hget, rfl⟩
  · exact Or.inl rfl
  · exact Or.inl rfl

/-! ## What a client is fed -/

def SlotOp.published : SlotOp Event → List Event
  | .publish event => [event]
  | _ => []

/-- The slot gets a new client, or loses the one it has. -/
def SlotOp.turnover : SlotOp Event → Bool
  | .connect => true
  | .disconnect => true
  | _ => false

/-- From `client₀` to `client`: what was published was pushed, and what was taken was taken from
the front. -/
def Feeds (published taken : List Event) (client₀ client : Client Event) : Prop :=
  ∀ pushed gone, Fed pushed gone client₀.fifo → Fed (pushed ++ published) (gone ++ taken) client.fifo

theorem feeds_refl (client : Client Event) : Feeds [] [] client client := by
  intro pushed gone h
  rwa [List.append_nil, List.append_nil]

theorem Feeds.trans {p₁ p₂ t₁ t₂ : List Event} {a b c : Client Event} (h₁ : Feeds p₁ t₁ a b)
    (h₂ : Feeds p₂ t₂ b c) : Feeds (p₁ ++ p₂) (t₁ ++ t₂) a c := by
  intro pushed gone h
  rw [← List.append_assoc, ← List.append_assoc]
  exact h₂ _ _ (h₁ _ _ h)

theorem feeds_publish (client : Client Event) (event : Event) :
    Feeds [event] [] client (client.publish event) := by
  intro pushed gone h
  rw [publish_fifo, List.append_nil]
  exact h.push (by decide) client.fits event

theorem feeds_get {client : Client Event} {event : Event} {queue : Queue Event CLIENT_QUEUE_MAXSIZE}
    (h : client.queue.get_nowait = some (event, queue)) :
    Feeds [] [event] client { client with queue } := by
  intro pushed gone hfed
  have htake := hfed.take (some 1)
  rw [get_nowait_fifo h] at htake
  rwa [List.append_nil]

/-- One op of a slot that keeps its client. -/
theorem slot_step_feeds (ws : Ws) {slot : Slot Event} {op : SlotOp Event} {client : Client Event}
    (hop : op.turnover = false) (h : (slot.step ws op).2.client = some client) :
    ∃ client₀, slot.client = some client₀ ∧
      Feeds op.published ((slot.step ws op).1.map (·.2)) client₀ client := by
  cases op with
  | connect => cases hop
  | disconnect => cases hop
  | publish event =>
    obtain ⟨client₀, h₀, rfl⟩ := Option.map_eq_some_iff.mp h
    exact ⟨client₀, h₀, feeds_publish client₀ event⟩
  | sender_get =>
    obtain hnone | ⟨client₀, event, queue, hclient, hget, hsome⟩ := slot_get_cases ws slot
    · rw [hnone] at h ⊢
      exact ⟨client, h, feeds_refl client⟩
    · rw [hsome] at h ⊢
      obtain rfl := Option.some.inj h
      exact ⟨client₀, hclient, feeds_get hget⟩
  | sender_send raised =>
    unfold Slot.step at h ⊢
    dsimp only at h ⊢
    split at h <;> exact ⟨client, h, feeds_refl client⟩

/-- Any ops of a slot that keep its client. -/
theorem slot_run_feeds (ws : Ws) {slot : Slot Event} (ops : List (SlotOp Event)) {client : Client Event}
    (hops : ∀ op ∈ ops, op.turnover = false)
    (h : (run (Slot.step ws) slot ops).2.client = some client) :
    ∃ client₀, slot.client = some client₀ ∧ Feeds (ops.flatMap SlotOp.published)
      ((run (Slot.step ws) slot ops).1.flatten.map (·.2)) client₀ client := by
  induction ops generalizing slot with
  | nil => exact ⟨client, h, feeds_refl client⟩
  | cons op ops ih =>
    obtain ⟨client₁, h₁, hfeeds₁⟩ := ih (fun o ho => hops o (by simp [ho])) h
    obtain ⟨client₀, h₀, hfeeds₀⟩ := slot_step_feeds ws (hops op (by simp)) h₁
    refine ⟨client₀, h₀, ?_⟩
    rw [List.flatMap_cons, run_cons, List.flatten_cons, List.map_append]
    exact hfeeds₀.trans hfeeds₁

variable [DecidableEq Ws]

/-! ## What the manager holds for one websocket -/

def BroadcastManager.slot (m : BroadcastManager Ws Event) (ws : Ws) : Slot Event :=
  ⟨m._clients.lookup ws, m._tasks.lookup ws⟩

/-- What an op is for the slot of `ws`. -/
def Op.own (ws : Ws) : Op Ws Event → List (SlotOp Event)
  | .connect ws' => if ws' = ws then [.connect] else []
  | .disconnect ws' => if ws' = ws then [.disconnect] else []
  | .publish_nowait event => [.publish event]
  | .publish_many_nowait events => events.map .publish
  | .sender_get ws' => if ws' = ws then [.sender_get] else []
  | .sender_send ws' raised => if ws' = ws then [.sender_send raised] else []

theorem mapValues_lookup {β : Type} (f : β → β) (d : AList (fun _ : Ws => β)) (ws : Ws) :
    (mapValues f d).lookup ws = (d.lookup ws).map f :=
  List.dlookup_map₂ (f := fun _ => f) ws

theorem publish_slot (m : BroadcastManager Ws Event) (event : Event) (ws : Ws) :
    (m.publish_nowait event).slot ws = (Slot.step ws (m.slot ws) (.publish event)).2 := by
  simp [BroadcastManager.slot, BroadcastManager.publish_nowait, Slot.step, mapValues_lookup]

theorem publish_many_slot (m : BroadcastManager Ws Event) (events : List Event) (ws : Ws) :
    (run (Slot.step ws) (m.slot ws) (events.map .publish)).1.flatten = [] ∧
      (m.publish_many_nowait events).slot ws =
        (run (Slot.step ws) (m.slot ws) (events.map .publish)).2 := by
  induction events generalizing m with
  | nil => exact ⟨rfl, rfl⟩
  | cons event events ih =>
    have hnext := ih (m.publish_nowait event)
    rw [publish_slot] at hnext
    exact hnext

/-- A sender that gets an event, and one that cannot. -/
theorem sender_get_cases (m : BroadcastManager Ws Event) (ws : Ws) :
    (m.sender_get ws = ([], m) ∧ Slot.step ws (m.slot ws) .sender_get = ([], m.slot ws)) ∨
    ∃ client event queue, m._clients.lookup ws = some client ∧
      client.queue.get_nowait = some (event, queue) ∧
      m.sender_get ws = ([(ws, event)],
        { _clients := m._clients.insert ws { client with queue }
          _tasks := m._tasks.insert ws (.sending event) }) ∧
      Slot.step ws (m.slot ws) .sender_get =
        ([(ws, event)], ⟨some { client with queue }, some (.sending event)⟩) := by
  unfold BroadcastManager.sender_get Slot.step BroadcastManager.slot
  dsimp only
  rcases m._tasks.lookup ws with _ | (_ | event | _)
  · exact Or.inl ⟨rfl, rfl⟩
  · rcases m._clients.lookup ws with _ | client
    · exact Or.inl ⟨rfl, rfl⟩
    · dsimp only
      rcases hget : client.queue.get_nowait with _ | ⟨event, queue⟩
      · exact Or.inl ⟨rfl, rfl⟩
      · exact Or.inr ⟨client, event, queue, rfl, hget, rfl, rfl⟩
  · exact Or.inl ⟨rfl, rfl⟩
  · exact Or.inl ⟨rfl, rfl⟩

theorem sender_get_slot (m : BroadcastManager Ws Event) (ws' ws : Ws) :
    (m.sender_get ws').1.filter (fun x => x.1 = ws) =
        (run (Slot.step ws) (m.slot ws) (Op.own ws (.sender_get ws'))).1.flatten ∧
      (m.sender_get ws').2.slot ws =
        (run (Slot.step ws) (m.slot ws) (Op.own ws (.sender_get ws'))).2 := by
  unfold Op.own
  dsimp only
  by_cases hw : ws' = ws
  · subst hw
    rw [if_pos rfl, run_cons, run_nil]
    obtain ⟨hm, hslot⟩ | ⟨client, event, queue, _, _, hm, hslot⟩ := sender_get_cases m ws'
    · rw [hm, hslot]
      exact ⟨rfl, rfl⟩
    · rw [hm, hslot]
      simp [BroadcastManager.slot]
  · rw [if_neg hw, run_nil]
    obtain ⟨hm, _⟩ | ⟨client, event, queue, _, _, hm, _⟩ := sender_get_cases m ws'
    · rw [hm]
      exact ⟨rfl, rfl⟩
    · rw [hm]
      simp [BroadcastManager.slot, hw, Ne.symm hw]

theorem sender_send_slot (m : BroadcastManager Ws Event) (ws' ws : Ws) (raised : Bool) :
    (run (Slot.step ws) (m.slot ws) (Op.own ws (.sender_send ws' raised))).1.flatten = [] ∧
      (m.sender_send ws' raised).slot ws =
        (run (Slot.step ws) (m.slot ws) (Op.own ws (.sender_send ws' raised))).2 := by
  unfold Op.own BroadcastManager.sender_send
  dsimp only
  by_cases hw : ws' = ws
  · subst hw
    rw [if_pos rfl, run_cons, run_nil]
    unfold Slot.step BroadcastManager.slot
    dsimp only
    rcases htask : m._tasks.lookup ws' with _ | (_ | event | _)
    · simp [htask]
    · simp [htask]
    · simp
    · simp [htask]
  · rw [if_neg hw, run_nil]
    split
    · simp [BroadcastManager.slot, Ne.symm hw]
    · exact ⟨rfl, rfl⟩

/-- A slot goes by its own ops alone. -/
theorem step_slot (m : BroadcastManager Ws Event) (op : Op Ws Event) (ws : Ws) :
    (m.step op).1.filter (fun x => x.1 = ws) =
        (run (Slot.step ws) (m.slot ws) (op.own ws)).1.flatten ∧
      (m.step op).2.slot ws = (run (Slot.step ws) (m.slot ws) (op.own ws)).2 := by
  cases op with
  | connect ws' =>
    unfold Op.own BroadcastManager.step BroadcastManager.connect
    by_cases hw : ws' = ws
    · subst hw
      simp [BroadcastManager.slot, Slot.step]
    · simp [BroadcastManager.slot, hw, Ne.symm hw]
  | disconnect ws' =>
    unfold Op.own BroadcastManager.step BroadcastManager.disconnect
    by_cases hw : ws' = ws
    · subst hw
      simp [BroadcastManager.slot, Slot.step]
    · simp [BroadcastManager.slot, hw, Ne.symm hw]
  | publish_nowait event => exact ⟨rfl, publish_slot m event ws⟩
  | publish_many_nowait events =>
    obtain ⟨hnone, hslot⟩ := publish_many_slot m events ws
    exact ⟨hnone.symm, hslot⟩
  | sender_get ws' => exact sender_get_slot m ws' ws
  | sender_send ws' raised =>
    obtain ⟨hnone, hslot⟩ := sender_send_slot m ws' ws raised
    exact ⟨hnone.symm, hslot⟩

/-! ## What a client got since it connected -/

/-- The op gives `ws` a new client, or takes its client away. -/
def Op.turnover (ws : Ws) : Op Ws Event → Bool
  | .connect ws' => ws' = ws
  | .disconnect ws' => ws' = ws
  | _ => false

theorem own_published (ws : Ws) (op : Op Ws Event) :
    (op.own ws).flatMap SlotOp.published = op.published := by
  cases op with
  | publish_nowait event => rfl
  | publish_many_nowait events =>
    rw [Op.own, List.flatMap_map]
    exact List.flatMap_singleton' events
  | connect ws' | disconnect ws' | sender_get ws' | sender_send ws' raised =>
    unfold Op.own
    dsimp only
    split <;> rfl

theorem own_turnover {ws : Ws} {op : Op Ws Event} (h : op.turnover ws = false) :
    ∀ o ∈ op.own ws, o.turnover = false := by
  intro o ho
  cases op with
  | publish_nowait event =>
    obtain rfl := List.mem_singleton.mp ho
    rfl
  | publish_many_nowait events =>
    obtain ⟨event, _, rfl⟩ := List.mem_map.mp ho
    rfl
  | connect ws' | disconnect ws' =>
    have hne : ws' ≠ ws := by simpa [Op.turnover] using h
    rw [Op.own, if_neg hne] at ho
    cases ho
  | sender_get ws' | sender_send ws' raised =>
    unfold Op.own at ho
    dsimp only at ho
    split at ho
    · obtain rfl := List.mem_singleton.mp ho
      rfl
    · cases ho

/-- One op that keeps the client of `ws`. -/
theorem step_feeds {m : BroadcastManager Ws Event} {op : Op Ws Event} {ws : Ws} {client : Client Event}
    (hop : op.turnover ws = false) (h : (m.step op).2._clients.lookup ws = some client) :
    ∃ client₀, m._clients.lookup ws = some client₀ ∧
      Feeds op.published (takenBy ws (m.step op).1) client₀ client := by
  obtain ⟨houts, hslot⟩ := step_slot m op ws
  have hclient : (run (Slot.step ws) (m.slot ws) (op.own ws)).2.client = some client := by
    rw [← hslot]
    exact h
  obtain ⟨client₀, h₀, hfeeds⟩ := slot_run_feeds ws (op.own ws) (own_turnover hop) hclient
  rw [own_published, ← houts] at hfeeds
  exact ⟨client₀, h₀, hfeeds⟩

/-- The client that `ws` has after `ops`: it connected at the end of `before`, and what it holds
comes from what was published and taken after that. -/
def Served (ws : Ws) (ops : List (Op Ws Event)) (takes : List (List (Ws × Event)))
    (client : Client Event) : Prop :=
  ∃ before after, ops = before ++ .connect ws :: after ∧ (∀ op ∈ after, op.turnover ws = false) ∧
    Fed (after.flatMap Op.published) (takenBy ws (takes.drop (before.length + 1)).flatten) client.fifo

theorem Served.step {ws : Ws} {ops : List (Op Ws Event)} {takes : List (List (Ws × Event))}
    {client₀ client : Client Event} {op : Op Ws Event} {out : List (Ws × Event)}
    (h : Served ws ops takes client₀) (hlen : takes.length = ops.length)
    (hop : op.turnover ws = false) (hfeeds : Feeds op.published (takenBy ws out) client₀ client) :
    Served ws (ops ++ [op]) (takes ++ [out]) client := by
  obtain ⟨before, after, rfl, hafter, hfed⟩ := h
  refine ⟨before, after ++ [op], by simp, ?_, ?_⟩
  · intro o ho
    rcases List.mem_append.mp ho with ho | ho
    · exact hafter o ho
    · rw [List.mem_singleton.mp ho]
      exact hop
  · have hdrop : before.length + 1 ≤ takes.length := by
      rw [hlen, List.length_append, List.length_cons]
      omega
    rw [List.flatMap_append, List.flatMap_singleton, List.drop_append_of_le_length hdrop,
      List.flatten_append, List.flatten_singleton]
    unfold takenBy at hfeeds ⊢
    rw [List.filter_append, List.map_append]
    exact hfeeds _ _ hfed

theorem run_served (ops : List (Op Ws Event)) :
    let r := run BroadcastManager.step (BroadcastManager.new Ws Event) ops
    r.1.length = ops.length ∧
      ∀ ws client, r.2._clients.lookup ws = some client → Served ws ops r.1 client := by
  apply run_history BroadcastManager.step (P := fun ops takes m => takes.length = ops.length ∧
    ∀ ws client, m._clients.lookup ws = some client → Served ws ops takes client)
  · refine ⟨rfl, ?_⟩
    intro ws client h
    cases h
  · intro ops takes m op ⟨hlen, hserved⟩
    refine ⟨by simp [hlen], ?_⟩
    intro ws client h
    cases hop : op.turnover ws with
    | false =>
      obtain ⟨client₀, h₀, hfeeds⟩ := step_feeds hop h
      exact (hserved ws client₀ h₀).step hlen hop hfeeds
    | true =>
      cases op with
      | connect ws' =>
        obtain rfl : ws' = ws := by simpa [Op.turnover] using hop
        obtain rfl : Client.new Event = client := by
          simpa [BroadcastManager.step, BroadcastManager.connect] using h
        refine ⟨ops, [], rfl, by simp, ?_⟩
        rw [← hlen, List.drop_of_length_le (by simp)]
        exact fed_empty
      | disconnect ws' =>
        obtain rfl : ws' = ws := by simpa [Op.turnover] using hop
        simp [BroadcastManager.step, BroadcastManager.disconnect] at h
      | publish_nowait _ | publish_many_nowait _ | sender_get _ | sender_send _ _ => cases hop

/-! ## What concerns a client -/

theorem own_of_not_concerns {ws : Ws} {op : Op Ws Event} (h : op.concerns ws = false) :
    op.own ws = [] := by
  cases op with
  | publish_nowait event => cases h
  | publish_many_nowait events => cases h
  | connect ws' | disconnect ws' | sender_get ws' | sender_send ws' raised =>
    have hne : ws' ≠ ws := by simpa [Op.concerns] using h
    exact if_neg hne

theorem flatMap_own (ws : Ws) (ops : List (Op Ws Event)) :
    ops.flatMap (Op.own ws) = (ops.filter (Op.concerns ws)).flatMap (Op.own ws) := by
  induction ops with
  | nil => rfl
  | cons op ops ih =>
    cases hop : op.concerns ws with
    | true => rw [List.filter_cons_of_pos hop, List.flatMap_cons, List.flatMap_cons, ih]
    | false =>
      rw [List.filter_cons_of_neg (by simp [hop]), List.flatMap_cons, own_of_not_concerns hop, ih,
        List.nil_append]

/-- A run, seen from one websocket. -/
theorem run_slot (ops : List (Op Ws Event)) (ws : Ws) :
    let r := run BroadcastManager.step (BroadcastManager.new Ws Event) ops
    let own := run (Slot.step ws) ⟨none, none⟩ ((ops.filter (Op.concerns ws)).flatMap (Op.own ws))
    r.1.flatten.filter (fun x => x.1 = ws) = own.1.flatten ∧ r.2.slot ws = own.2 := by
  intro r own
  have h := run_projects BroadcastManager.step (Slot.step ws) (Op.own ws) (fun x => x.1 = ws)
    (R := fun m slot => m.slot ws = slot) ?_ (s := BroadcastManager.new Ws Event) rfl ops
  · rw [flatMap_own] at h
    exact h
  · rintro m slot op rfl
    exact step_slot m op ws

/-! ## The law -/

/-- Whatever connects, leaves, publishes, takes, stalls or fails, in whatever order: the queue of a
connected client holds the newest of the events published since it connected, no more than its
bound, what its sender took came out in order, and every event published since was taken, is in
the queue, or is counted as dropped. All of this is the same in every run that goes the same
for that client alone. -/
theorem each_client_has_its_own_drop_oldest_queue (ops : List (Op Ws Event)) :
    let r := run BroadcastManager.step (BroadcastManager.new Ws Event) ops
    (∀ ws client, r.2._clients.lookup ws = some client →
      ∃ before after, ops = before ++ .connect ws :: after ∧
        (∀ op ∈ after, op ≠ .connect ws ∧ op ≠ .disconnect ws) ∧
        let published := after.flatMap Op.published
        let taken := takenBy ws (r.1.drop (before.length + 1)).flatten
        client.queue.items <:+ published ∧
        client.queue.items.length ≤ CLIENT_QUEUE_MAXSIZE ∧
        taken.Sublist published ∧
        published.length = taken.length + client.queue.items.length + client.dropped) ∧
    ∀ (other : List (Op Ws Event)) (ws : Ws),
      other.filter (Op.concerns ws) = ops.filter (Op.concerns ws) →
      let r' := run BroadcastManager.step (BroadcastManager.new Ws Event) other
      r'.2._clients.lookup ws = r.2._clients.lookup ws ∧
        takenBy ws r'.1.flatten = takenBy ws r.1.flatten := by
  intro r
  refine ⟨?_, ?_⟩
  · intro ws client h
    obtain ⟨before, after, hops, hafter, hfed⟩ := (run_served ops).2 ws client h
    refine ⟨before, after, hops, ?_, hfed.newest, client.fits, ?_, hfed.total.symm⟩
    · intro op hop
      constructor
      · rintro rfl
        simpa [Op.turnover] using hafter _ hop
      · rintro rfl
        simpa [Op.turnover] using hafter _ hop
    · exact (List.sublist_append_left _ _).trans hfed.in_order
  · intro other ws hsame r'
    obtain ⟨htakes, hslot⟩ := run_slot ops ws
    obtain ⟨htakes', hslot'⟩ := run_slot other ws
    rw [hsame, ← hslot] at hslot'
    rw [hsame, ← htakes] at htakes'
    refine ⟨congrArg Slot.client hslot', ?_⟩
    unfold takenBy
    rw [htakes']

/-- Two clients, of which one stalls and goes. -/
theorem each_client_has_its_own_drop_oldest_queue_of_two :
    let ops : List (Op String Nat) :=
      [.connect "a", .publish_nowait 1, .connect "b", .publish_many_nowait [2, 3], .sender_get "a",
        .sender_get "b", .sender_send "b" true, .disconnect "b", .sender_send "a" false]
    let alone : List (Op String Nat) :=
      [.connect "a", .publish_nowait 1, .publish_many_nowait [2, 3], .sender_get "a",
        .sender_send "a" false]
    takenBy "a" (run BroadcastManager.step (BroadcastManager.new String Nat) alone).1.flatten =
      takenBy "a" (run BroadcastManager.step (BroadcastManager.new String Nat) ops).1.flatten := by
  intro ops alone
  exact ((each_client_has_its_own_drop_oldest_queue ops).2 alone "a" rfl).2

end tick_pipeline.ws_broadcast
