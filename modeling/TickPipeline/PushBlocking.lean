-- The ring buffer under many tasks: its three methods that await share one lock and one
-- condition, and the calls that do not await come in between at any point. A blocking
-- push looks for space again after each wake-up, and nothing runs between its last look
-- and its push: it loses no item, its own or another's.
import TickPipeline.RingBuffer
import Mathlib.Logic.Function.Basic
import Mathlib.Data.Rat.Init

namespace tick_pipeline.ring_buffer

open runs drop_oldest

variable {α : Type}

/-! ## The code -/

/-- A call of a method that awaits. Between any two turns any time may pass, so of a timeout it
matters only whether there is one. -/
inductive AsyncCall (α : Type)
  | push (item : α)
  | push_blocking (item : α) (timeout : Option ℚ)
  | drain (max_items : Option Int) (wait_timeout : Option ℚ)

/-- The await that a call is at. -/
inductive Phase
  /-- It has not had the lock yet. -/
  | pending
  /-- In `wait_for`, and `wait` has not run yet: the call has the lock. -/
  | entering
  /-- In `wait`, without the lock. -/
  | waiting
  /-- It wants the lock back, after a notification or after its timeout. -/
  | woken (late : Bool)
  /-- It has the lock back. -/
  | resuming (late : Bool)
  | returned
  /-- It raised `TimeoutError`. -/
  | raised
  deriving DecidableEq

/-- A ring buffer, the task that has its lock, and where the call of each task is. -/
structure Shared (α : Type) where
  buf : RingBuffer α
  owner : Option Nat
  phase : Nat → Phase

def Shared.new (α : Type) (capacity : Nat) : Shared α :=
  { buf := RingBuffer.new α capacity
    owner := none
    phase := fun _ => .pending }

/-- A synchronous call on the buffer, with the task it was made in. -/
structure Entry (α : Type) where
  task : Option Nat
  call : BufferCall α
  answer : Answer α

def Phase.notified : Phase → Phase
  | .waiting => .woken false
  | phase => phase

/-- `notify_all` -/
def notify_all (phase : Nat → Phase) (i : Nat) : Phase := (phase i).notified

/-- A push notifies, and so does a drain that has items to give. -/
def Answer.notifies : Answer α → Bool
  | .pushed _ => true
  | .drained items => !items.isEmpty

/-- Goes into `wait_for`. -/
def Shared.wait (s : Shared α) (i : Nat) : List (Entry α) × Shared α :=
  ([], { s with owner := some i, phase := Function.update s.phase i .entering })

/-- The end of a method: the synchronous call, the notification, and the lock is free. -/
def Shared.finish (s : Shared α) (i : Nat) (call : BufferCall α) : List (Entry α) × Shared α :=
  let (answer, buf) := s.buf.call call
  let phase := if answer.notifies then notify_all s.phase else s.phase
  ([⟨some i, call, answer⟩],
    { buf, owner := none, phase := Function.update phase i .returned })

/-- `push_blocking` with the lock, at the head of its loop. -/
def Shared.push_blocking (s : Shared α) (i : Nat) (item : α) : List (Entry α) × Shared α :=
  if s.buf.size = s.buf.capacity then s.wait i else s.finish i (.push_nowait item)

/-- A method from the lock on. -/
def Shared.begin (s : Shared α) (i : Nat) : AsyncCall α → List (Entry α) × Shared α
  | .push item => s.finish i (.push_nowait item)
  | .push_blocking item _ => s.push_blocking i item
  | .drain max_items wait_timeout =>
    if s.buf.size = 0 ∧ wait_timeout.isSome then s.wait i else s.finish i (.drain_nowait max_items)

/-- A method from its `wait_for` on. A drain goes on after a timeout. -/
def Shared.resume (s : Shared α) (i : Nat) (late : Bool) : AsyncCall α → List (Entry α) × Shared α
  | .push _ => ([], s)
  | .push_blocking item _ =>
    if late then ([], { s with owner := none, phase := Function.update s.phase i .raised })
    else s.push_blocking i item
  | .drain max_items _ => s.finish i (.drain_nowait max_items)

/-- The task runs to its next await. It cannot while it waits, or wants a lock that another has. -/
def Shared.advance (s : Shared α) (i : Nat) (call : AsyncCall α) : List (Entry α) × Shared α :=
  match s.phase i with
  | .pending => if s.owner.isNone then s.begin i call else ([], s)
  | .entering => ([], { s with owner := none, phase := Function.update s.phase i .waiting })
  | .woken late =>
    if s.owner.isNone then
      ([], { s with owner := some i, phase := Function.update s.phase i (.resuming late) })
    else ([], s)
  | .resuming late => s.resume i late call
  | .waiting | .returned | .raised => ([], s)

def AsyncCall.timed : AsyncCall α → Bool
  | .push _ => false
  | .push_blocking _ timeout => timeout.isSome
  | .drain _ wait_timeout => wait_timeout.isSome

/-- The timeout of `wait_for`. A `wait` that has not run yet has not given the lock up. -/
def Phase.timed_out : Phase → Phase
  | .entering => .resuming true
  | .waiting | .woken _ => .woken true
  | phase => phase

/-- A synchronous call from outside the tasks; or a task runs; or its timeout comes. -/
inductive Turn (α : Type)
  | call (call : BufferCall α)
  | advance (i : Nat)
  | time_out (i : Nat)

/-- One turn, with the calls that it makes on the buffer. Task `i` runs the `i`th call. -/
def Shared.step (calls : List (AsyncCall α)) (s : Shared α) : Turn α → List (Entry α) × Shared α
  | .call c =>
    let (answer, buf) := s.buf.call c
    ([⟨none, c, answer⟩], { s with buf })
  | .advance i =>
    match calls[i]? with
    | none => ([], s)
    | some call => s.advance i call
  | .time_out i =>
    match calls[i]? with
    | none => ([], s)
    | some call =>
      if call.timed then
        ([], { s with phase := Function.update s.phase i (s.phase i).timed_out })
      else ([], s)

/-! ## What a turn can do -/

/-- The call that a method ends in. A blocking push ends only where there is space. -/
def Performs (b : RingBuffer α) : AsyncCall α → BufferCall α → Prop
  | .push item, c => c = .push_nowait item
  | .push_blocking item _, c => c = .push_nowait item ∧ b.size ≠ b.capacity
  | .drain max_items _, c => c = .drain_nowait max_items

def Phase.ended : Phase → Bool
  | .returned | .raised => true
  | .pending | .entering | .waiting | .woken _ | .resuming _ => false

/-- A turn does not touch the buffer and returns from no call; or it makes one call from outside the
tasks; or it makes the one call of a task, which returns. A call that has ended stays as it is. -/
inductive Move (calls : List (AsyncCall α)) (s : Shared α) :
    Turn α → List (Entry α) → Shared α → Prop
  | quiet (turn : Turn α) (s' : Shared α) (hbuf : s'.buf = s.buf)
      (hended : ∀ j, (s.phase j).ended → s'.phase j = s.phase j)
      (hreturned : ∀ j, s'.phase j = .returned → s.phase j = .returned) : Move calls s turn [] s'
  | outside (c : BufferCall α) :
      Move calls s (.call c) [⟨none, c, (s.buf.call c).1⟩] { s with buf := (s.buf.call c).2 }
  | inside (turn : Turn α) (i : Nat) (call : AsyncCall α) (c : BufferCall α) (s' : Shared α)
      (hcall : calls[i]? = some call) (hperforms : Performs s.buf call c)
      (hopen : (s.phase i).ended = false) (hbuf : s'.buf = (s.buf.call c).2)
      (hi : s'.phase i = .returned)
      (hended : ∀ j, (s.phase j).ended → s'.phase j = s.phase j)
      (hreturned : ∀ j, s'.phase j = .returned → s.phase j = .returned ∨ j = i) :
      Move calls s turn [⟨some i, c, (s.buf.call c).1⟩] s'

theorem notified_ended {phase : Phase} (h : phase.ended) : phase.notified = phase := by
  cases phase <;> first | rfl | cases h

theorem notified_returned {phase : Phase} (h : phase.notified = .returned) : phase = .returned := by
  cases phase <;> first | rfl | cases h

theorem ended_of_returned {phase : Phase} (h : phase = .returned) : phase.ended := by
  rw [h]
  rfl

theorem timed_out_ended {phase : Phase} (h : phase.ended) : phase.timed_out = phase := by
  cases phase <;> first | rfl | cases h

theorem timed_out_returned {phase : Phase} (h : phase.timed_out = .returned) :
    phase = .returned := by
  cases phase <;> first | rfl | cases h

section move

variable {calls : List (AsyncCall α)} {s : Shared α} {turn : Turn α} {i : Nat}
  {call : AsyncCall α}

theorem idle_move : Move calls s turn [] s := .quiet turn s rfl (fun _ _ => rfl) (fun _ h => h)

/-- A call that has not ended comes to another await. -/
theorem update_move (hopen : (s.phase i).ended = false) (owner : Option Nat) {p : Phase}
    (hp : p ≠ .returned) :
    Move calls s turn [] { s with owner, phase := Function.update s.phase i p } := by
  refine .quiet turn _ rfl (fun j hj => ?_) (fun j hj => ?_)
  · exact Function.update_of_ne (by rintro rfl; simp [hopen] at hj) _ _
  · by_cases hji : j = i
    · subst hji
      simp [hp] at hj
    · exact (Function.update_of_ne hji _ _).symm.trans hj

theorem wait_move (hopen : (s.phase i).ended = false) :
    Move calls s turn (s.wait i).1 (s.wait i).2 := update_move hopen _ (by decide)

theorem finish_move (hcall : calls[i]? = some call) (hopen : (s.phase i).ended = false)
    {c : BufferCall α} (hperforms : Performs s.buf call c) :
    Move calls s turn (s.finish i c).1 (s.finish i c).2 := by
  -- The other tasks are notified, or not.
  have hothers : ∀ j, j ≠ i → (s.finish i c).2.phase j = s.phase j ∨
      (s.finish i c).2.phase j = (s.phase j).notified := by
    intro j hj
    have hphase : (s.finish i c).2.phase j =
        (if (s.buf.call c).1.notifies then notify_all s.phase else s.phase) j :=
      Function.update_of_ne hj _ _
    rw [hphase]
    split
    · exact Or.inr rfl
    · exact Or.inl rfl
  refine .inside turn i call c _ hcall hperforms hopen rfl (Function.update_self ..) ?_ ?_
  · intro j hj
    rcases hothers j (by rintro rfl; simp [hopen] at hj) with h | h
    · exact h
    · exact h.trans (notified_ended hj)
  · intro j hj
    by_cases hji : j = i
    · exact Or.inr hji
    · rcases hothers j hji with h | h
      · exact Or.inl (h.symm.trans hj)
      · exact Or.inl (notified_returned (h.symm.trans hj))

theorem push_blocking_move {item : α} {timeout : Option ℚ}
    (hcall : calls[i]? = some (.push_blocking item timeout)) (hopen : (s.phase i).ended = false) :
    Move calls s turn (s.push_blocking i item).1 (s.push_blocking i item).2 := by
  unfold Shared.push_blocking
  split
  · exact wait_move hopen
  · rename_i hspace
    exact finish_move hcall hopen ⟨rfl, hspace⟩

theorem begin_move (hcall : calls[i]? = some call) (hopen : (s.phase i).ended = false) :
    Move calls s turn (s.begin i call).1 (s.begin i call).2 := by
  cases call with
  | push item => exact finish_move hcall hopen rfl
  | push_blocking item timeout => exact push_blocking_move hcall hopen
  | drain max_items wait_timeout =>
    unfold Shared.begin
    dsimp only
    split
    · exact wait_move hopen
    · exact finish_move hcall hopen rfl

theorem resume_move (hcall : calls[i]? = some call) (hopen : (s.phase i).ended = false) (late : Bool) :
    Move calls s turn (s.resume i late call).1 (s.resume i late call).2 := by
  cases call with
  | push item => exact idle_move
  | push_blocking item timeout =>
    unfold Shared.resume
    dsimp only
    split
    · exact update_move hopen _ (by decide)
    · exact push_blocking_move hcall hopen
  | drain max_items wait_timeout => exact finish_move hcall hopen rfl

theorem advance_move (hcall : calls[i]? = some call) :
    Move calls s turn (s.advance i call).1 (s.advance i call).2 := by
  unfold Shared.advance
  cases hphase : s.phase i with
  | pending =>
    dsimp only
    split
    · exact begin_move hcall (by rw [hphase]; rfl)
    · exact idle_move
  | entering => exact update_move (by rw [hphase]; rfl) _ (by decide)
  | woken late =>
    dsimp only
    split
    · exact update_move (by rw [hphase]; rfl) _ (by simp)
    · exact idle_move
  | resuming late => exact resume_move hcall (by rw [hphase]; rfl) late
  | waiting => exact idle_move
  | returned => exact idle_move
  | raised => exact idle_move

theorem step_move (calls : List (AsyncCall α)) (s : Shared α) (turn : Turn α) :
    Move calls s turn (s.step calls turn).1 (s.step calls turn).2 := by
  cases turn with
  | call c => exact .outside c
  | advance i =>
    unfold Shared.step
    dsimp only
    cases hcall : calls[i]? with
    | none => exact idle_move
    | some call => exact advance_move hcall
  | time_out i =>
    unfold Shared.step
    dsimp only
    cases hcall : calls[i]? with
    | none => exact idle_move
    | some call =>
      dsimp only
      split
      · refine .quiet _ _ rfl (fun j hj => ?_) (fun j hj => ?_)
        · by_cases hji : j = i
          · subst hji
            exact (Function.update_self ..).trans (timed_out_ended hj)
          · exact Function.update_of_ne hji _ _
        · by_cases hji : j = i
          · subst hji
            exact timed_out_returned ((Function.update_self ..).symm.trans hj)
          · exact (Function.update_of_ne hji _ _).symm.trans hj
      · exact idle_move

end move

/-! ## The lock

While a call is at an await inside its lock no other call runs, but a synchronous one still may. -/

def Phase.locked : Phase → Bool
  | .entering | .resuming _ => true
  | .pending | .waiting | .woken _ | .returned | .raised => false

/-- The task that has the lock is the one whose call is at an await inside it. -/
def Locked (s : Shared α) : Prop := ∀ i, (s.phase i).locked ↔ s.owner = some i

/-- No other task has the lock. -/
def Alone (s : Shared α) (i : Nat) : Prop := ∀ j, j ≠ i → (s.phase j).locked = false

section lock

variable {s : Shared α} {i : Nat} {call : AsyncCall α}

theorem Locked.alone (h : Locked s) (hi : s.owner = none ∨ s.owner = some i) : Alone s i := by
  intro j hj
  by_contra hlocked
  have howner := (h j).mp (by simpa using hlocked)
  rcases hi with hi | hi
  · simp [hi] at howner
  · exact hj (Option.some.inj (howner.symm.trans hi))

/-- The task takes the lock or gives it up, and its phase says so. -/
theorem Alone.update (h : Alone s i) (buf : RingBuffer α) {owner : Option Nat} {p : Phase}
    {phase : Nat → Phase} (howner : owner = if p.locked then some i else none)
    (hphase : ∀ j, (phase j).locked = (s.phase j).locked) :
    Locked { buf, owner, phase := Function.update phase i p } := by
  intro j
  dsimp only
  by_cases hj : j = i
  · subst hj
    rw [Function.update_self, howner]
    cases p.locked <;> simp
  · rw [Function.update_of_ne hj, hphase, h j hj, howner]
    cases p.locked <;> simp [Ne.symm hj]

theorem notified_locked (phase : Phase) : phase.notified.locked = phase.locked := by
  cases phase <;> rfl

theorem Alone.wait (h : Alone s i) : Locked (s.wait i).2 :=
  h.update s.buf (p := .entering) rfl (fun _ => rfl)

theorem Alone.finish (h : Alone s i) (c : BufferCall α) : Locked (s.finish i c).2 := by
  have hphase : ∀ j, ((if (s.buf.call c).1.notifies then notify_all s.phase else s.phase) j).locked =
      (s.phase j).locked := by
    intro j
    split
    · exact notified_locked _
    · rfl
  exact h.update (s.buf.call c).2 (p := .returned) rfl hphase

theorem Alone.push_blocking (h : Alone s i) (item : α) : Locked (s.push_blocking i item).2 := by
  unfold Shared.push_blocking
  split
  · exact h.wait
  · exact h.finish _

theorem Alone.begin (h : Alone s i) : Locked (s.begin i call).2 := by
  cases call with
  | push item => exact h.finish _
  | push_blocking item timeout => exact h.push_blocking item
  | drain max_items wait_timeout =>
    unfold Shared.begin
    dsimp only
    split
    · exact h.wait
    · exact h.finish _

theorem Alone.resume (h : Alone s i) (hlocked : Locked s) (late : Bool) :
    Locked (s.resume i late call).2 := by
  cases call with
  | push item => exact hlocked
  | push_blocking item timeout =>
    unfold Shared.resume
    dsimp only
    split
    · exact h.update s.buf (p := .raised) rfl (fun _ => rfl)
    · exact h.push_blocking item
  | drain max_items wait_timeout => exact h.finish _

theorem Locked.advance (h : Locked s) : Locked (s.advance i call).2 := by
  unfold Shared.advance
  cases hphase : s.phase i with
  | pending =>
    dsimp only
    split
    · rename_i hfree
      exact (h.alone (Or.inl (Option.isNone_iff_eq_none.mp hfree))).begin
    · exact h
  | entering =>
    have halone := h.alone (Or.inr ((h i).mp (by rw [hphase]; rfl)))
    exact halone.update s.buf (p := .waiting) rfl (fun _ => rfl)
  | woken late =>
    dsimp only
    split
    · rename_i hfree
      have halone := h.alone (i := i) (Or.inl (Option.isNone_iff_eq_none.mp hfree))
      exact halone.update s.buf (p := .resuming late) rfl (fun _ => rfl)
    · exact h
  | resuming late => exact (h.alone (Or.inr ((h i).mp (by rw [hphase]; rfl)))).resume h late
  | waiting => exact h
  | returned => exact h
  | raised => exact h

theorem timed_out_locked (phase : Phase) : phase.timed_out.locked = phase.locked := by
  cases phase <;> rfl

theorem Locked.step (calls : List (AsyncCall α)) (h : Locked s) (turn : Turn α) :
    Locked (s.step calls turn).2 := by
  cases turn with
  | call c => exact h
  | advance i =>
    unfold Shared.step
    dsimp only
    split
    · exact h
    · exact h.advance
  | time_out i =>
    unfold Shared.step
    dsimp only
    split
    · exact h
    split
    · intro j
      rw [← h j]
      by_cases hj : j = i
      · subst hj
        simp [timed_out_locked]
      · simp [Function.update_of_ne hj]
    · exact h

end lock

/-- In every run the lock has one holder, from each of its acquires to the next release. -/
theorem run_locked (capacity : Nat) (calls : List (AsyncCall α)) (turns : List (Turn α)) :
    Locked (run (Shared.step calls) (Shared.new α capacity) turns).2 :=
  run_invariant (Shared.step calls) (fun _ turn h => h.step calls turn)
    (fun _ => by simp [Shared.new, Phase.locked]) turns

/-! ## What the log says -/

/-- The buffer is what the calls of the log make of a new one, with the answers of the log. -/
def Replays (capacity : Nat) (log : List (Entry α)) (b : RingBuffer α) : Prop :=
  run RingBuffer.call (RingBuffer.new α capacity) (log.map Entry.call) = (log.map Entry.answer, b)

/-- Task `i` called nothing. -/
def Absent (i : Nat) (log : List (Entry α)) : Prop := ∀ e ∈ log, e.task ≠ some i

/-- Task `i` made one call. It found a buffer `b` with space, and put the item behind the items that
were in it; none of them was dropped. -/
def Appended (capacity i : Nat) (item : α) (log : List (Entry α)) : Prop :=
  ∃ (before after : List (Entry α)) (b : RingBuffer α) (q : Fifo α),
    log = before ++ ⟨some i, .push_nowait item, .pushed true⟩ :: after ∧
      Absent i before ∧ Absent i after ∧ Replays capacity before b ∧ Holds b q ∧
      Holds (b.push_nowait item).2 ⟨q.items ++ [item], q.dropped⟩

/-- The drains of a task or of a turn ask for no negative number. -/
def AsyncCall.Counted : AsyncCall α → Prop
  | .drain max_items _ => ring_buffer.Counted (.drain_nowait max_items : BufferCall α)
  | .push _ | .push_blocking _ _ => True

def Turn.Counted : Turn α → Prop
  | .call c => ring_buffer.Counted c
  | .advance _ | .time_out _ => True

section log

variable {capacity i : Nat} {item : α} {log : List (Entry α)} {e : Entry α} {b : RingBuffer α}

theorem Replays.snoc (h : Replays capacity log b) (task : Option Nat) (c : BufferCall α) :
    Replays capacity (log ++ [⟨task, c, (b.call c).1⟩]) (b.call c).2 := by
  unfold Replays at h ⊢
  rw [List.map_append, List.map_append, List.map_singleton, List.map_singleton, run_snoc, h]

theorem Replays.holds (h : Replays capacity log b) (hpos : 0 < capacity)
    (hcounted : ∀ e ∈ log, Counted e.call) : ∃ q, Holds b q := by
  obtain ⟨-, -, hholds⟩ := run_holds capacity hpos (log.map Entry.call) (by simpa using hcounted)
  unfold Replays at h
  rw [h] at hholds
  exact ⟨_, hholds⟩

theorem absent_nil (i : Nat) : Absent i ([] : List (Entry α)) := by
  simp [Absent]

theorem Absent.snoc (h : Absent i log) (he : e.task ≠ some i) : Absent i (log ++ [e]) := by
  intro e' he'
  rcases List.mem_append.mp he' with he' | he'
  · exact h e' he'
  · rw [List.mem_singleton.mp he']
    exact he

theorem Appended.snoc (h : Appended capacity i item log) (he : e.task ≠ some i) :
    Appended capacity i item (log ++ [e]) := by
  obtain ⟨before, after, b, q, rfl, hbefore, hafter, hreplays, hholds, hpushed⟩ := h
  exact ⟨before, after ++ [e], b, q, by simp, hbefore, hafter.snoc he, hreplays, hholds, hpushed⟩

/-- A push where there is space. -/
theorem Replays.appended (h : Replays capacity log b) (hpos : 0 < capacity)
    (hcounted : ∀ e ∈ log, Counted e.call) (habsent : Absent i log) (hspace : b.size ≠ b.capacity) :
    Appended capacity i item
      (log ++ [⟨some i, .push_nowait item, (b.call (.push_nowait item)).1⟩]) := by
  obtain ⟨q, hholds⟩ := h.holds hpos hcounted
  have hok : (b.call (.push_nowait item)).1 = .pushed true := by
    simp [RingBuffer.call, RingBuffer.push_nowait, hspace]
  rw [hok]
  exact ⟨log, [], b, q, rfl, habsent, absent_nil i, h, hholds, push_nowait_room b q item hholds hspace⟩

end log

/-- What every run keeps: the buffer is the work of the log, a call that has not returned is not in
it, and a blocking push that has returned appended its item. -/
structure Lossless (capacity : Nat) (calls : List (AsyncCall α)) (log : List (Entry α))
    (s : Shared α) : Prop where
  replays : Replays capacity log s.buf
  counted : ∀ e ∈ log, Counted e.call
  absent : ∀ i, s.phase i ≠ .returned → Absent i log
  appended : ∀ i item timeout, calls[i]? = some (.push_blocking item timeout) →
    s.phase i = .returned → Appended capacity i item log

theorem lossless_new (capacity : Nat) (calls : List (AsyncCall α)) :
    Lossless capacity calls [] (Shared.new α capacity) := by
  refine ⟨rfl, by simp, fun i _ => absent_nil i, fun i item timeout _ hreturned => ?_⟩
  cases hreturned

theorem Performs.counted {b : RingBuffer α} {call : AsyncCall α} {c : BufferCall α}
    (h : Performs b call c) (hcall : call.Counted) : Counted c := by
  cases call with
  | push item => exact h ▸ trivial
  | push_blocking item timeout => exact h.1 ▸ trivial
  | drain max_items wait_timeout => exact h ▸ hcall

theorem Lossless.move {capacity : Nat} (hpos : 0 < capacity) {calls : List (AsyncCall α)}
    (hcalls : ∀ call ∈ calls, call.Counted) {log out : List (Entry α)} {s s' : Shared α}
    {turn : Turn α} (hturn : turn.Counted) (h : Lossless capacity calls log s)
    (hmove : Move calls s turn out s') : Lossless capacity calls (log ++ out) s' := by
  cases hmove with
  | quiet _ _ hbuf hended hreturned =>
    rw [List.append_nil]
    refine ⟨hbuf ▸ h.replays, h.counted, fun i hi => h.absent i ?_, fun i item timeout hcall hi => ?_⟩
    · exact fun hs => hi ((hended i (ended_of_returned hs)).trans hs)
    · exact h.appended i item timeout hcall (hreturned i hi)
  | outside c =>
    have hnone (i : Nat) : (none : Option Nat) ≠ some i := by simp
    refine ⟨h.replays.snoc none c, ?_, fun i hi => (h.absent i hi).snoc (hnone i),
      fun i item timeout hcall hi => (h.appended i item timeout hcall hi).snoc (hnone i)⟩
    intro e he
    rcases List.mem_append.mp he with he | he
    · exact h.counted e he
    · rw [List.mem_singleton.mp he]
      exact hturn
  | inside _ i call c _ hcall hperforms hopen hbuf hi hended hreturned =>
    refine ⟨hbuf ▸ h.replays.snoc (some i) c, ?_, fun j hj => ?_, fun j item timeout hj hjr => ?_⟩
    · intro e he
      rcases List.mem_append.mp he with he | he
      · exact h.counted e he
      · rw [List.mem_singleton.mp he]
        exact hperforms.counted (hcalls call (List.mem_of_getElem? hcall))
    · have hji : i ≠ j := by
        rintro rfl
        exact hj hi
      have hs : s.phase j ≠ .returned := fun hs => hj ((hended j (ended_of_returned hs)).trans hs)
      exact (h.absent j hs).snoc (by simp [hji])
    · by_cases hji : j = i
      · subst hji
        obtain rfl : call = .push_blocking item timeout := Option.some.inj (hcall.symm.trans hj)
        obtain ⟨rfl, hspace⟩ := hperforms
        have hs : s.phase j ≠ .returned := by
          intro hs
          simp [ended_of_returned hs] at hopen
        exact h.replays.appended hpos h.counted (h.absent j hs) hspace
      · have hs : s.phase j = .returned := (hreturned j hjr).resolve_right hji
        exact (h.appended j item timeout hj hs).snoc (by simp [Ne.symm hji])

theorem run_lossless {capacity : Nat} (hpos : 0 < capacity) {calls : List (AsyncCall α)}
    (hcalls : ∀ call ∈ calls, call.Counted) (turns : List (Turn α))
    (hturns : ∀ turn ∈ turns, turn.Counted) :
    let r := run (Shared.step calls) (Shared.new α capacity) turns
    Lossless capacity calls r.1.flatten r.2 := by
  refine run_history (Shared.step calls)
    (P := fun turns out s => (∀ turn ∈ turns, turn.Counted) →
      Lossless capacity calls out.flatten s) ?_ ?_ turns hturns
  · intro _
    exact lossless_new capacity calls
  · intro turns out s turn ih hturns
    have hlog := ih (fun t ht => hturns t (by simp [ht]))
    rw [List.flatten_concat]
    exact hlog.move hpos hcalls (hturns turn (by simp)) (step_move calls s turn)

theorem Move.ended {calls : List (AsyncCall α)} {s s' : Shared α} {turn : Turn α}
    {out : List (Entry α)} (h : Move calls s turn out s') {i : Nat} (hi : (s.phase i).ended) :
    s'.phase i = s.phase i := by
  cases h with
  | quiet _ _ _ hended _ => exact hended i hi
  | outside c => rfl
  | inside _ _ _ _ _ _ _ _ _ _ hended _ => exact hended i hi

/-- What has ended stays as it ended. -/
theorem run_ended (calls : List (AsyncCall α)) {s : Shared α} {i : Nat} (h : (s.phase i).ended)
    (turns : List (Turn α)) : (run (Shared.step calls) s turns).2.phase i = s.phase i := by
  refine run_invariant (Shared.step calls) (P := fun t => t.phase i = s.phase i) ?_ rfl turns
  intro t turn ht
  have hended : (t.phase i).ended := ht ▸ h
  exact ((step_move calls t turn).ended hended).trans ht

/-- `push_blocking` loses no data. For every capacity, every list of tasks that push, block on a push
or drain, and every order of their turns with synchronous pushes and drains, counted ones: the
buffer is what the logged calls make of a new one. A blocking push that has returned is in the log
once, where there was space: its item came last and nothing was dropped. A blocking push that has
not returned is not in the log, and one that raised `TimeoutError` never returns. -/
theorem push_blocking_never_loses_data (capacity : Nat) (hpos : 1 ≤ capacity)
    (calls : List (AsyncCall α)) (hcalls : ∀ call ∈ calls, call.Counted) (turns : List (Turn α))
    (hturns : ∀ turn ∈ turns, turn.Counted) :
    let r := run (Shared.step calls) (Shared.new α capacity) turns
    let log := r.1.flatten
    Replays capacity log r.2.buf ∧
      ∀ i item timeout, calls[i]? = some (.push_blocking item timeout) →
        (r.2.phase i = .returned → Appended capacity i item log) ∧
          (r.2.phase i ≠ .returned → Absent i log) ∧
          (r.2.phase i = .raised → ∀ more, (run (Shared.step calls) r.2 more).2.phase i = .raised) := by
  intro r log
  have h : Lossless capacity calls log r.2 := run_lossless hpos hcalls turns hturns
  refine ⟨h.replays, fun i item timeout hcall => ⟨h.appended i item timeout hcall, h.absent i, ?_⟩⟩
  intro hraised more
  have hended : (r.2.phase i).ended := by rw [hraised]; rfl
  exact (run_ended calls hended more).trans hraised

/-- A full buffer of one, two blocking pushes and a drain: the drain wakes both, the first takes the
space, and the second waits again until its timeout. -/
theorem push_blocking_never_loses_data_of_two :
    let calls : List (AsyncCall Nat) :=
      [.push_blocking 2 none, .push_blocking 3 (some 1), .drain (some 1) none]
    let turns : List (Turn Nat) :=
      [.call (.push_nowait 1), .advance 0, .advance 0, .advance 1, .advance 1, .advance 2, .advance 0,
        .advance 0, .advance 1, .advance 1, .advance 1, .time_out 1, .advance 1, .advance 1]
    let r := run (Shared.step calls) (Shared.new Nat 1) turns
    let log := r.1.flatten
    r.2.phase 0 = .returned ∧ Appended 1 0 2 log ∧ r.2.phase 1 = .raised ∧ Absent 1 log := by
  intro calls turns r log
  have h0 : r.2.phase 0 = .returned := by decide
  have h1 : r.2.phase 1 = .raised := by decide
  obtain ⟨-, h⟩ := push_blocking_never_loses_data 1 (by decide) calls
    (by simp [calls, AsyncCall.Counted, Counted]) turns (by simp [turns, Turn.Counted, Counted])
  exact ⟨h0, (h 0 2 none rfl).1 h0, h1, (h 1 3 (some 1) rfl).2.1 (by rw [h1]; decide)⟩

end tick_pipeline.ring_buffer
