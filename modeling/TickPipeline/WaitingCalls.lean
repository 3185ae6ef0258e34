-- The calls that wait in the ring buffer: they come to rest, none is left asleep by a
-- wake-up that another call missed, and blocking pushes alone hand everything on in order.
import TickPipeline.PushBlocking
import TickPipeline.DrainArguments
import TickPipeline.Lib.Progress
import Mathlib.Algebra.Order.BigOperators.Group.Finset

namespace tick_pipeline.ring_buffer

open runs drop_oldest

variable {α : Type}

/-! ## What a task's turn can do -/

/-- The condition that a call waits on. -/
def AsyncCall.Blocked (b : RingBuffer α) : AsyncCall α → Prop
  | .push _ => False
  | .push_blocking _ _ => b.size = b.capacity
  | .drain _ wait_timeout => b.size = 0 ∧ wait_timeout.isSome

/-- The turn of task `i` leaves everything as it was, or takes its call to the next await, or to its
end. -/
inductive TaskTurn (s : Shared α) (i : Nat) (call : AsyncCall α) : Shared α → Prop
  | idle : TaskTurn s i call s
  | waits (hfrom : s.phase i = .pending ∨ s.phase i = .resuming false)
      (hblocked : call.Blocked s.buf) : TaskTurn s i call (s.wait i).2
  | sleeps (hfrom : s.phase i = .entering) :
      TaskTurn s i call { s with owner := none, phase := Function.update s.phase i .waiting }
  | wakes (late : Bool) (hfrom : s.phase i = .woken late) : TaskTurn s i call
      { s with owner := some i, phase := Function.update s.phase i (.resuming late) }
  | raises (item : α) (timeout : Option ℚ) (hcall : call = .push_blocking item timeout)
      (hfrom : s.phase i = .resuming true) :
      TaskTurn s i call { s with owner := none, phase := Function.update s.phase i .raised }
  | times_out (htimed : call.timed) (hfrom : (s.phase i).timed_out ≠ s.phase i) :
      TaskTurn s i call { s with phase := Function.update s.phase i (s.phase i).timed_out }
  | finishes (c : BufferCall α) (hperforms : Performs s.buf call c)
      (hfrom : s.phase i = .pending ∧ s.owner = none ∨ ∃ late, s.phase i = .resuming late) :
      TaskTurn s i call (s.finish i c).2

/-- The task whose turn it is. -/
def Turn.task : Turn α → Option Nat
  | .call _ => none
  | .advance i | .time_out i => some i

section turn

variable {s : Shared α} {i : Nat} {call : AsyncCall α}

theorem push_blocking_turn {item : α} {timeout : Option ℚ}
    (hfrom : s.phase i = .pending ∧ s.owner = none ∨ s.phase i = .resuming false) :
    TaskTurn s i (.push_blocking item timeout) (s.push_blocking i item).2 := by
  unfold Shared.push_blocking
  split
  · rename_i hfull
    exact .waits (hfrom.imp_left And.left) hfull
  · rename_i hspace
    refine .finishes _ ⟨rfl, hspace⟩ ?_
    rcases hfrom with h | h
    · exact Or.inl h
    · exact Or.inr ⟨_, h⟩

theorem begin_turn (hfrom : s.phase i = .pending) (hfree : s.owner = none) :
    TaskTurn s i call (s.begin i call).2 := by
  cases call with
  | push item => exact .finishes _ rfl (Or.inl ⟨hfrom, hfree⟩)
  | push_blocking item timeout => exact push_blocking_turn (Or.inl ⟨hfrom, hfree⟩)
  | drain max_items wait_timeout =>
    unfold Shared.begin
    dsimp only
    split
    · rename_i hempty
      exact .waits (Or.inl hfrom) hempty
    · exact .finishes _ rfl (Or.inl ⟨hfrom, hfree⟩)

theorem resume_turn {late : Bool} (hfrom : s.phase i = .resuming late) :
    TaskTurn s i call (s.resume i late call).2 := by
  cases call with
  | push item => exact .idle
  | push_blocking item timeout =>
    cases late with
    | true => exact .raises item timeout rfl hfrom
    | false => exact push_blocking_turn (Or.inr hfrom)
  | drain max_items wait_timeout => exact .finishes _ rfl (Or.inr ⟨late, hfrom⟩)

theorem advance_turn : TaskTurn s i call (s.advance i call).2 := by
  unfold Shared.advance
  cases hphase : s.phase i with
  | pending =>
    dsimp only
    split
    · rename_i hfree
      exact begin_turn hphase (Option.isNone_iff_eq_none.mp hfree)
    · exact .idle
  | entering => exact .sleeps hphase
  | woken late =>
    dsimp only
    split
    · exact .wakes late hphase
    · exact .idle
  | resuming late => exact resume_turn hphase
  | waiting => exact .idle
  | returned => exact .idle
  | raised => exact .idle

theorem time_out_turn (htimed : call.timed) :
    TaskTurn s i call { s with phase := Function.update s.phase i (s.phase i).timed_out } := by
  by_cases hsame : (s.phase i).timed_out = s.phase i
  · rw [hsame, Function.update_eq_self]
    exact .idle
  · exact .times_out htimed hsame

/-- A turn of a task without a call does nothing. -/
theorem step_none {calls : List (AsyncCall α)} {turn : Turn α} (htask : turn.task = some i)
    (hcall : calls[i]? = none) : (s.step calls turn).2 = s := by
  cases turn with
  | call c => cases htask
  | advance j =>
    obtain rfl : j = i := Option.some.inj htask
    unfold Shared.step
    simp [hcall]
  | time_out j =>
    obtain rfl : j = i := Option.some.inj htask
    unfold Shared.step
    simp [hcall]

theorem step_turn {calls : List (AsyncCall α)} {turn : Turn α} (htask : turn.task = some i)
    (hcall : calls[i]? = some call) : TaskTurn s i call (s.step calls turn).2 := by
  cases turn with
  | call c => cases htask
  | advance j =>
    obtain rfl : j = i := Option.some.inj htask
    unfold Shared.step
    simp only [hcall]
    exact advance_turn
  | time_out j =>
    obtain rfl : j = i := Option.some.inj htask
    unfold Shared.step
    simp only [hcall]
    split
    · rename_i htimed
      exact time_out_turn htimed
    · exact .idle

end turn

/-! ## Coming to rest -/

def Turn.own (turn : Turn α) : Bool := turn.task.isSome

/-- How far a call is from its end, when nobody notifies it. -/
def Phase.distance : Phase → Nat
  | .pending => 7
  | .woken false => 6
  | .resuming false => 5
  | .entering => 4
  | .waiting => 3
  | .woken true => 2
  | .resuming true => 1
  | .returned | .raised => 0

/-- A call that ends may notify all others, so a call that has not ended counts for that as well. -/
def Phase.rank (n : Nat) (phase : Phase) : Nat :=
  if phase.ended then 0 else phase.distance + 3 * n

/-- The rank of the first `n` calls. -/
def Shared.rank (n : Nat) (s : Shared α) : Nat := ∑ i ∈ Finset.range n, (s.phase i).rank n

theorem rank_le (n : Nat) (phase : Phase) : phase.rank n ≤ 7 + 3 * n := by
  have hdistance : phase.distance ≤ 7 := by cases phase <;> simp [Phase.distance] <;> split <;> omega
  unfold Phase.rank
  split <;> omega

theorem notified_rank (n : Nat) (phase : Phase) : phase.notified.rank n ≤ phase.rank n + 3 := by
  cases phase with
  | waiting => simp [Phase.notified, Phase.rank, Phase.distance, Phase.ended]; omega
  | _ => simp [Phase.notified]

/-- Each other term grows by `c` at most, and one falls by as much for each of them. -/
theorem sum_lt_of_one_falls {n i c : Nat} (hi : i < n) {f g : Nat → Nat}
    (hothers : ∀ j, j ≠ i → g j ≤ f j + c) (hone : g i + c * n < f i + c) :
    ∑ j ∈ Finset.range n, g j < ∑ j ∈ Finset.range n, f j := by
  have hmem : i ∈ Finset.range n := Finset.mem_range.mpr hi
  have hrest : ∑ j ∈ (Finset.range n).erase i, g j ≤ ∑ j ∈ (Finset.range n).erase i, (f j + c) :=
    Finset.sum_le_sum fun j hj => hothers j (Finset.ne_of_mem_erase hj)
  rw [Finset.sum_add_distrib, Finset.sum_const, Finset.card_erase_of_mem hmem, Finset.card_range,
    Nat.nsmul_eq_mul, Nat.sub_mul, Nat.one_mul, Nat.mul_comm n c] at hrest
  rw [← Finset.sum_erase_add _ _ hmem, ← Finset.sum_erase_add _ f hmem]
  have hc : c ≤ c * n := Nat.le_mul_of_pos_right c (by omega)
  omega

section rank

variable {s s' : Shared α} {i n : Nat} {call : AsyncCall α} {calls : List (AsyncCall α)}

theorem update_rank (hi : i < n) (buf : RingBuffer α) (owner : Option Nat) {p : Phase}
    (hp : p.rank n < (s.phase i).rank n) :
    Shared.rank n { buf, owner, phase := Function.update s.phase i p } < s.rank n := by
  refine sum_lt_of_one_falls (c := 0) hi (fun j hj => ?_) ?_
  · exact (congrArg (Phase.rank n) (Function.update_of_ne hj _ _)).le
  · simpa using hp

theorem finish_rank (hi : i < n) (hopen : (s.phase i).ended = false) (c : BufferCall α) :
    (s.finish i c).2.rank n < s.rank n := by
  refine sum_lt_of_one_falls (c := 3) hi (fun j hj => ?_) ?_
  · have hphase : (s.finish i c).2.phase j =
        (if (s.buf.call c).1.notifies then notify_all s.phase else s.phase) j :=
      Function.update_of_ne hj _ _
    rw [hphase]
    split
    · exact notified_rank n (s.phase j)
    · omega
  · have hend : (s.finish i c).2.phase i = .returned := Function.update_self ..
    have hstart : (s.phase i).rank n = (s.phase i).distance + 3 * n := by simp [Phase.rank, hopen]
    have hzero : Phase.rank n .returned = 0 := rfl
    rw [hend, hstart, hzero]
    omega

theorem TaskTurn.rank (hi : i < n) (h : TaskTurn s i call s') : s' = s ∨ s'.rank n < s.rank n := by
  cases h with
  | idle => exact Or.inl rfl
  | waits hfrom _ =>
    refine Or.inr (update_rank hi _ _ ?_)
    rcases hfrom with h | h <;> simp [h, Phase.rank, Phase.distance, Phase.ended]
  | sleeps hfrom => exact Or.inr (update_rank hi _ _ (by simp [hfrom, Phase.rank, Phase.distance, Phase.ended]))
  | wakes late hfrom =>
    refine Or.inr (update_rank hi _ _ ?_)
    cases late <;> simp [hfrom, Phase.rank, Phase.distance, Phase.ended]
  | raises item timeout hcall hfrom =>
    exact Or.inr (update_rank hi _ _ (by simp [hfrom, Phase.rank, Phase.distance, Phase.ended]))
  | times_out htimed hfrom =>
    refine Or.inr (update_rank hi _ _ ?_)
    generalize s.phase i = p at *
    cases p with
    | woken late => cases late <;> simp [Phase.timed_out, Phase.rank, Phase.distance, Phase.ended] at *
    | _ => simp [Phase.timed_out, Phase.rank, Phase.distance, Phase.ended] at *
  | finishes c hperforms hfrom =>
    refine Or.inr (finish_rank hi ?_ c)
    rcases hfrom with ⟨h, -⟩ | ⟨late, h⟩ <;> rw [h] <;> rfl

theorem step_rank (calls : List (AsyncCall α)) (s : Shared α) (turn : Turn α) (hown : turn.own) :
    (s.step calls turn).2 = s ∨ (s.step calls turn).2.rank calls.length < s.rank calls.length := by
  obtain ⟨i, hi⟩ := Option.isSome_iff_exists.mp hown
  cases hcall : calls[i]? with
  | none => exact Or.inl (step_none hi hcall)
  | some call => exact (step_turn hi hcall).rank (List.getElem?_eq_some_iff.mp hcall).1

theorem call_rank (calls : List (AsyncCall α)) (s : Shared α) (turn : Turn α)
    (hown : turn.own = false) : (s.step calls turn).2.rank n = s.rank n := by
  cases turn with
  | call c => rfl
  | advance i => cases hown
  | time_out i => cases hown

theorem shared_rank_le (n : Nat) (s : Shared α) : s.rank n ≤ n * (7 + 3 * n) := by
  have h := Finset.sum_le_card_nsmul (Finset.range n) (fun i => (s.phase i).rank n) (7 + 3 * n)
    (fun i _ => rank_le n (s.phase i))
  rw [Finset.card_range, Nat.nsmul_eq_mul] at h
  exact h

end rank

/-- The tasks come to rest, whatever they call and however their turns and the synchronous calls
interleave. In a run of `n` tasks where each turn of a task does something there are at most
`n * (7 + 3 * n)` of these turns: no two calls wake each other for ever. And from the end of every
run, as many turns of the tasks at most lead to a state where none of them can do anything. -/
theorem the_tasks_of_the_ring_buffer_come_to_rest (capacity : Nat) (calls : List (AsyncCall α))
    (turns : List (Turn α)) :
    let step := Shared.step calls
    let bound := calls.length * (7 + 3 * calls.length)
    (Busy step Turn.own (Shared.new α capacity) turns → turns.countP Turn.own ≤ bound) ∧
      ∃ more, (∀ turn ∈ more, turn.own) ∧ more.length ≤ bound ∧
        Resting step Turn.own (run step (Shared.new α capacity) (turns ++ more)).2 := by
  intro step bound
  refine ⟨fun hbusy => ?_, ?_⟩
  · have hrank := run_rank step (I := fun _ => True) (fun _ _ _ => trivial)
      (fun s turn _ hown => (call_rank (n := calls.length) calls s turn hown).le)
      (fun s turn _ hown => step_rank calls s turn hown) trivial hbusy
    have hbound := shared_rank_le calls.length (Shared.new α capacity)
    omega
  · obtain ⟨more, hown, hlen, hrest⟩ := exists_run_resting step (I := fun _ => True) (fun _ _ _ => trivial)
      (fun s turn _ hown => step_rank calls s turn hown) (s := (run step (Shared.new α capacity) turns).2)
      trivial
    refine ⟨more, hown, hlen.trans (shared_rank_le _ _), ?_⟩
    rw [run_append]
    exact hrest

/-! ## Who is left asleep -/

/-- The phases after a timeout. -/
def Phase.late : Phase → Bool
  | .woken late | .resuming late => late
  | .raised => true
  | .pending | .entering | .waiting | .returned => false

/-- The methods that may wait. -/
def AsyncCall.waits : AsyncCall α → Bool
  | .push _ => false
  | .push_blocking _ _ => true
  | .drain _ wait_timeout => wait_timeout.isSome

/-- Where the call of a task can be. -/
structure Placed (call : AsyncCall α) (phase : Phase) : Prop where
  plain : call.waits = false → phase = .pending ∨ phase = .returned
  prompt : call.timed = false → phase.late = false
  raised : phase = .raised → ∃ item timeout, call = .push_blocking item timeout

/-- What every run keeps of its tasks. -/
structure Tasks (calls : List (AsyncCall α)) (s : Shared α) : Prop where
  locked : Locked s
  placed : ∀ i call, calls[i]? = some call → Placed call (s.phase i)
  absent : ∀ i, calls[i]? = none → s.phase i = .pending

section tasks

variable {s s' : Shared α} {i : Nat} {call : AsyncCall α} {calls : List (AsyncCall α)}

theorem Placed.waits {phase : Phase} (h : Placed call phase) (hpending : phase ≠ .pending)
    (hreturned : phase ≠ .returned) : call.waits := by
  by_contra hplain
  rcases h.plain (by simpa using hplain) with h | h
  · exact hpending h
  · exact hreturned h

/-- A method that may wait can be in any phase that its timeout allows. -/
theorem placed_of_waits {phase : Phase} (hwaits : call.waits)
    (hprompt : call.timed = false → phase.late = false)
    (hraised : phase = .raised → ∃ item timeout, call = .push_blocking item timeout) :
    Placed call phase :=
  ⟨fun hplain => by simp [hwaits] at hplain, hprompt, hraised⟩

theorem Placed.notified {phase : Phase} (h : Placed call phase) : Placed call phase.notified := by
  cases phase with
  | waiting =>
    have hwaits := h.waits (by decide) (by decide)
    exact placed_of_waits hwaits (fun _ => rfl) (fun hraised => by cases hraised)
  | _ => exact h

theorem AsyncCall.Blocked.waits {b : RingBuffer α} (h : call.Blocked b) : call.waits := by
  cases call with
  | push item => exact h.elim
  | push_blocking item timeout => rfl
  | drain max_items wait_timeout => exact h.2

/-- The other tasks stay where they are, or are notified. -/
theorem TaskTurn.others (h : TaskTurn s i call s') {j : Nat} (hj : j ≠ i) :
    s'.phase j = s.phase j ∨ s'.phase j = (s.phase j).notified := by
  cases h with
  | idle => exact Or.inl rfl
  | finishes c _ _ =>
    have hphase : (s.finish i c).2.phase j =
        (if (s.buf.call c).1.notifies then notify_all s.phase else s.phase) j :=
      Function.update_of_ne hj _ _
    rw [hphase]
    split
    · exact Or.inr rfl
    · exact Or.inl rfl
  | _ => exact Or.inl (Function.update_of_ne hj _ _)

theorem TaskTurn.placed (h : TaskTurn s i call s') (hplaced : Placed call (s.phase i)) :
    Placed call (s'.phase i) := by
  cases h with
  | idle => exact hplaced
  | waits _ hblocked =>
    rw [show (s.wait i).2.phase i = .entering from Function.update_self ..]
    exact placed_of_waits hblocked.waits (fun _ => rfl) (fun h => by cases h)
  | sleeps hfrom =>
    rw [hfrom] at hplaced
    dsimp only
    rw [Function.update_self]
    exact placed_of_waits (hplaced.waits (by decide) (by decide)) (fun _ => rfl) (fun h => by cases h)
  | wakes late hfrom =>
    rw [hfrom] at hplaced
    dsimp only
    rw [Function.update_self]
    exact placed_of_waits (hplaced.waits (by simp) (by simp)) hplaced.prompt (fun h => by cases h)
  | raises item timeout hcall hfrom =>
    rw [hfrom] at hplaced
    dsimp only
    rw [Function.update_self]
    exact placed_of_waits (hplaced.waits (by simp) (by simp)) hplaced.prompt
      (fun _ => ⟨item, timeout, hcall⟩)
  | times_out htimed hfrom =>
    dsimp only
    rw [Function.update_self]
    have hwaits : call.waits := by
      refine hplaced.waits (fun h => ?_) (fun h => ?_) <;> simp [h, Phase.timed_out] at hfrom
    refine placed_of_waits hwaits (fun h => by simp [htimed] at h) (fun h => ?_)
    generalize s.phase i = p at *
    cases p <;> cases h
    exact hplaced.raised rfl
  | finishes c _ _ =>
    rw [show (s.finish i c).2.phase i = .returned from Function.update_self ..]
    exact ⟨fun _ => Or.inr rfl, fun _ => rfl, fun h => by cases h⟩

theorem Tasks.step (h : Tasks calls s) (turn : Turn α) : Tasks calls (s.step calls turn).2 := by
  refine ⟨h.locked.step calls turn, ?_, ?_⟩
  · intro j call hj
    cases hown : turn.task with
    | none =>
      cases turn with
      | call c => exact h.placed j call hj
      | advance i => cases hown
      | time_out i => cases hown
    | some i =>
      cases hcall : calls[i]? with
      | none =>
        rw [step_none hown hcall]
        exact h.placed j call hj
      | some own =>
        have hturn := step_turn (s := s) hown hcall
        by_cases hji : j = i
        · subst hji
          obtain rfl : own = call := Option.some.inj (hcall.symm.trans hj)
          exact hturn.placed (h.placed j own hj)
        · rcases hturn.others hji with h' | h' <;> rw [h']
          · exact h.placed j call hj
          · exact (h.placed j call hj).notified
  · intro j hj
    cases hown : turn.task with
    | none =>
      cases turn with
      | call c => exact h.absent j hj
      | advance i => cases hown
      | time_out i => cases hown
    | some i =>
      cases hcall : calls[i]? with
      | none =>
        rw [step_none hown hcall]
        exact h.absent j hj
      | some own =>
        have hji : j ≠ i := by
          rintro rfl
          simp [hcall] at hj
        rcases (step_turn (s := s) hown hcall).others hji with h' | h' <;> rw [h', h.absent j hj]
        rfl

theorem run_tasks (capacity : Nat) (calls : List (AsyncCall α)) (turns : List (Turn α)) :
    Tasks calls (run (Shared.step calls) (Shared.new α capacity) turns).2 := by
  refine run_invariant (Shared.step calls) (fun _ turn h => h.step turn) ?_ turns
  refine ⟨run_locked capacity calls [], fun i call _ => ?_, fun _ _ => rfl⟩
  exact ⟨fun _ => Or.inl rfl, fun _ => rfl, fun h => by cases h⟩

theorem wait_phase : (s.wait i).2.phase i = .entering := Function.update_self ..

theorem finish_phase (c : BufferCall α) : (s.finish i c).2.phase i = .returned :=
  Function.update_self ..

theorem push_blocking_phase (item : α) : (s.push_blocking i item).2.phase i = .entering ∨
    (s.push_blocking i item).2.phase i = .returned := by
  unfold Shared.push_blocking
  split
  · exact Or.inl wait_phase
  · exact Or.inr (finish_phase _)

theorem begin_phase (call : AsyncCall α) :
    (s.begin i call).2.phase i = .entering ∨ (s.begin i call).2.phase i = .returned := by
  cases call with
  | push item => exact Or.inr (finish_phase _)
  | push_blocking item timeout => exact push_blocking_phase item
  | drain max_items wait_timeout =>
    unfold Shared.begin
    dsimp only
    split
    · exact Or.inl wait_phase
    · exact Or.inr (finish_phase _)

theorem resume_phase (hwaits : call.waits) (late : Bool) :
    (s.resume i late call).2.phase i = .entering ∨ ((s.resume i late call).2.phase i).ended := by
  cases call with
  | push item => cases hwaits
  | push_blocking item timeout =>
    unfold Shared.resume
    dsimp only
    split
    · dsimp only
      rw [Function.update_self]
      exact Or.inr rfl
    · rcases push_blocking_phase (s := s) (i := i) item with h | h
      · exact Or.inl h
      · exact Or.inr (ended_of_returned h)
  | drain max_items wait_timeout => exact Or.inr (ended_of_returned (finish_phase _))

/-- A task at rest: running it changes nothing. -/
theorem Resting.advance (h : Resting (Shared.step calls) Turn.own s) (hcall : calls[i]? = some call) :
    (s.advance i call).2 = s := by
  have hstep := h (.advance i) rfl
  unfold Shared.step at hstep
  simpa only [hcall] using hstep

theorem Tasks.unlocked (h : Tasks calls s) (hrest : Resting (Shared.step calls) Turn.own s) :
    s.owner = none := by
  by_contra howner
  obtain ⟨j, hj⟩ := Option.ne_none_iff_exists'.mp howner
  have hlocked : (s.phase j).locked := (h.locked j).mpr hj
  cases hcall : calls[j]? with
  | none =>
    rw [h.absent j hcall] at hlocked
    cases hlocked
  | some call =>
    -- The holder of the lock is never stuck.
    have hsame := congrArg (fun s => s.phase j) (Resting.advance hrest hcall)
    have hplaced := h.placed j call hcall
    unfold Shared.advance at hsame
    cases hphase : s.phase j with
    | entering => simp [hphase] at hsame
    | resuming late =>
      rw [hphase] at hplaced
      have hwaits := hplaced.waits (by simp) (by simp)
      simp only [hphase] at hsame
      rcases resume_phase (s := s) (i := j) hwaits late with h | h <;> rw [hsame] at h <;> cases h
    | _ => simp [hphase, Phase.locked] at hlocked

theorem Tasks.resting (h : Tasks calls s) (hrest : Resting (Shared.step calls) Turn.own s)
    (hcall : calls[i]? = some call) :
    (s.phase i).ended ∨ ∃ item, call = .push_blocking item none ∧ s.phase i = .waiting := by
  have hfree := h.unlocked hrest
  have hplaced := h.placed i call hcall
  have hunlocked : (s.phase i).locked = false := by
    by_contra hlocked
    have howner := (h.locked i).mp (by simpa using hlocked)
    simp [hfree] at howner
  have hsame := congrArg (fun s => s.phase i) (Resting.advance hrest hcall)
  unfold Shared.advance at hsame
  cases hphase : s.phase i with
  | pending =>
    simp only [hphase, hfree, Option.isNone_none, if_true] at hsame
    rcases begin_phase (s := s) (i := i) call with h | h <;> rw [hsame] at h <;> cases h
  | woken late => simp [hphase, hfree] at hsame
  | entering => simp [hphase, Phase.locked] at hunlocked
  | resuming late => simp [hphase, Phase.locked] at hunlocked
  | waiting =>
    rw [hphase] at hplaced
    have hwaits := hplaced.waits (by decide) (by decide)
    have htimed : call.timed = false := by
      by_contra htimed
      have htimed : call.timed := by simpa using htimed
      have hstep := congrArg (fun s => s.phase i) (hrest (.time_out i) rfl)
      unfold Shared.step at hstep
      simp [hcall, htimed, hphase, Phase.timed_out] at hstep
    cases call with
    | push item => cases hwaits
    | push_blocking item timeout =>
      cases timeout with
      | none => exact Or.inr ⟨item, rfl, rfl⟩
      | some d => cases htimed
    | drain max_items wait_timeout =>
      have hsame : (AsyncCall.drain max_items wait_timeout : AsyncCall α).waits =
        (AsyncCall.drain max_items wait_timeout : AsyncCall α).timed := rfl
      rw [hsame, htimed] at hwaits
      cases hwaits
  | returned => exact Or.inl rfl
  | raised => exact Or.inl rfl

end tasks

/-! ## No wake-up is lost

Nobody notifies for a synchronous call. But as long as no synchronous call brings what a call waits
for, that call does not sleep on: all that can bring it in the tasks wakes it. -/

def Phase.asleep : Phase → Bool
  | .entering | .waiting => true
  | .pending | .woken _ | .resuming _ | .returned | .raised => false

/-- This synchronous call may bring what the other one waits for. -/
def BufferCall.brings : BufferCall α → AsyncCall α → Bool
  | .push_nowait _, .drain _ _ => true
  | .drain_nowait _, .push_blocking _ _ => true
  | _, _ => false

/-- No turn is a synchronous call that may bring what the call waits for. -/
def Unaided (call : AsyncCall α) (turns : List (Turn α)) : Prop :=
  ∀ c, Turn.call c ∈ turns → c.brings call = false

section asleep

variable {s s' : Shared α} {i j : Nat} {call own : AsyncCall α} {calls : List (AsyncCall α)}
  {b : RingBuffer α}

/-- A counted drain that hands out nothing leaves the buffer as it was. -/
theorem drain_nothing {m : Option Int} (hm : ∀ k, m = some k → 0 ≤ k)
    (h : (b.drain_nowait m).1 = []) : (b.drain_nowait m).2 = b := by
  have hcount : 0 ≤ b.drain_count m := by
    cases m with
    | none => exact Int.natCast_nonneg _
    | some k =>
      have := hm k rfl
      simp only [RingBuffer.drain_count]
      omega
  unfold RingBuffer.drain_nowait at h ⊢
  dsimp only at h ⊢
  split
  · rfl
  · rename_i hn
    obtain ⟨n, hn⟩ : ∃ n, (b.drain_count m).toNat = n + 1 := ⟨(b.drain_count m).toNat - 1, by omega⟩
    rw [if_neg (by omega), hn] at h
    cases h

theorem silent_call {c : BufferCall α} (hc : Counted c) (h : (b.call c).1.notifies = false) :
    (b.call c).2 = b := by
  cases c with
  | push_nowait item => cases h
  | drain_nowait m =>
    refine drain_nothing hc ?_
    simpa [RingBuffer.call, Answer.notifies] using h

theorem blocked_call (h : call.Blocked b) {c : BufferCall α} (hc : Counted c)
    (hbrings : c.brings call = false) : call.Blocked (b.call c).2 := by
  cases call with
  | push item => exact h.elim
  | push_blocking item timeout =>
    cases c with
    | push_nowait x =>
      have hfull : b.size = b.capacity := h
      simp [AsyncCall.Blocked, RingBuffer.call, RingBuffer.push_nowait, hfull]
    | drain_nowait m => cases hbrings
  | drain max_items wait_timeout =>
    cases c with
    | push_nowait x => cases hbrings
    | drain_nowait m =>
      have hcount : b.drain_count m = 0 := by
        cases m with
        | none => simp [RingBuffer.drain_count, h.1]
        | some k =>
          have := hc k rfl
          simp only [RingBuffer.drain_count, h.1]
          omega
      simpa [AsyncCall.Blocked, RingBuffer.call, RingBuffer.drain_nowait, hcount] using h

theorem timed_out_asleep {phase : Phase} (h : phase.timed_out.asleep) : phase.timed_out = phase := by
  cases phase <;> first | rfl | cases h

/-- The turn of another task. -/
theorem TaskTurn.blocked_other (hlocked : Locked s) (hown : own.Counted)
    (hturn : TaskTurn s j own s') (hij : i ≠ j)
    (h : (s.phase i).asleep → call.Blocked s.buf) (hasleep : (s'.phase i).asleep) :
    call.Blocked s'.buf := by
  cases hturn with
  | idle => exact h hasleep
  | finishes c hperforms hfrom =>
    have hphase : (s.finish j c).2.phase i =
        (if (s.buf.call c).1.notifies then notify_all s.phase else s.phase) i :=
      Function.update_of_ne hij _ _
    rw [hphase] at hasleep
    split at hasleep
    · -- Only a call that has the lock sleeps through a notification, and here another has it.
      have hunlocked : (s.phase i).locked = false := by
        refine hlocked.alone (i := j) ?_ i hij
        rcases hfrom with ⟨-, hfree⟩ | ⟨late, hphase⟩
        · exact Or.inl hfree
        · exact Or.inr ((hlocked j).mp (by rw [hphase]; rfl))
      unfold notify_all at hasleep
      generalize s.phase i = p at *
      cases p <;> first | exact absurd hunlocked (by decide) | exact absurd hasleep (by simp [Phase.notified, Phase.asleep])
    · rename_i hsilent
      have hsame := silent_call (b := s.buf) (hperforms.counted hown) (by simpa using hsilent)
      have hbuf : (s.finish j c).2.buf = s.buf := hsame
      rw [hbuf]
      exact h hasleep
  | _ =>
    refine h ?_
    dsimp only [Shared.wait] at hasleep
    rwa [Function.update_of_ne hij] at hasleep

/-- The turn of the task itself. -/
theorem TaskTurn.blocked_self (hturn : TaskTurn s i call s')
    (h : (s.phase i).asleep → call.Blocked s.buf) (hasleep : (s'.phase i).asleep) :
    call.Blocked s'.buf := by
  cases hturn with
  | idle => exact h hasleep
  | waits hfrom hblocked => exact hblocked
  | sleeps hfrom => exact h (by rw [hfrom]; rfl)
  | times_out htimed hfrom =>
    dsimp only at hasleep
    rw [Function.update_self] at hasleep
    exact absurd (timed_out_asleep hasleep) hfrom
  | finishes c hperforms hfrom =>
    rw [finish_phase] at hasleep
    cases hasleep
  | _ =>
    dsimp only at hasleep
    rw [Function.update_self] at hasleep
    cases hasleep

/-- What a call waits for is not there. -/
def Sleeps (calls : List (AsyncCall α)) (i : Nat) (call : AsyncCall α) (s : Shared α) : Prop :=
  Tasks calls s ∧ ((s.phase i).asleep → call.Blocked s.buf)

theorem Sleeps.step (hcalls : ∀ call ∈ calls, call.Counted) (hcall : calls[i]? = some call)
    (h : Sleeps calls i call s) {turn : Turn α} (hturn : turn.Counted)
    (hunaided : ∀ c, turn = .call c → c.brings call = false) :
    Sleeps calls i call (s.step calls turn).2 := by
  refine ⟨h.1.step turn, fun hasleep => ?_⟩
  cases htask : turn.task with
  | none =>
    cases turn with
    | call c => exact blocked_call (h.2 hasleep) hturn (hunaided c rfl)
    | advance j => cases htask
    | time_out j => cases htask
  | some j =>
    cases hown : calls[j]? with
    | none =>
      rw [step_none htask hown] at hasleep ⊢
      exact h.2 hasleep
    | some own =>
      have htaskTurn := step_turn (s := s) htask hown
      by_cases hij : i = j
      · subst hij
        obtain rfl : own = call := Option.some.inj (hown.symm.trans hcall)
        exact htaskTurn.blocked_self h.2 hasleep
      · exact htaskTurn.blocked_other h.1.locked (hcalls own (List.mem_of_getElem? hown)) hij h.2 hasleep

theorem run_sleeps (capacity : Nat) (hcalls : ∀ call ∈ calls, call.Counted)
    (hcall : calls[i]? = some call) (turns : List (Turn α)) (hturns : ∀ turn ∈ turns, turn.Counted)
    (hunaided : Unaided call turns) :
    Sleeps calls i call (run (Shared.step calls) (Shared.new α capacity) turns).2 := by
  refine run_history (Shared.step calls)
    (P := fun turns _ s => (∀ turn ∈ turns, turn.Counted) → Unaided call turns → Sleeps calls i call s)
    ?_ ?_ turns hturns hunaided
  · intro _ _
    exact ⟨run_tasks capacity calls [], fun h => by cases h⟩
  · intro turns _ s turn ih hturns hunaided
    have hbefore := ih (fun t ht => hturns t (by simp [ht])) (fun c hc => hunaided c (by simp [hc]))
    exact hbefore.step hcalls hcall (hturns turn (by simp)) (fun c hc => hunaided c (by simp [hc]))

end asleep

/-- No wake-up is lost among the tasks, and nothing hangs but a blocking push without a timeout. For
every capacity, list of calls and order of turns: as long as no synchronous call brings what a call
waits for, a blocking push that sleeps has a full buffer before it and a drain an empty one. A call
without a timeout is never late and never raises. And where the tasks have come to rest, every call
has ended, except blocking pushes without a timeout; these still wait, and the buffer is full if
nobody drained it synchronously. -/
theorem no_wake_up_is_lost_among_the_tasks (capacity : Nat) (calls : List (AsyncCall α))
    (hcalls : ∀ call ∈ calls, call.Counted) (turns : List (Turn α))
    (hturns : ∀ turn ∈ turns, turn.Counted) :
    let s := (run (Shared.step calls) (Shared.new α capacity) turns).2
    ∀ i call, calls[i]? = some call →
      (Unaided call turns → (s.phase i).asleep → call.Blocked s.buf) ∧
        (call.timed = false → (s.phase i).late = false) ∧
        (Resting (Shared.step calls) Turn.own s → (s.phase i).ended ∨
          ∃ item, call = .push_blocking item none ∧ s.phase i = .waiting ∧
            (Unaided call turns → s.buf.size = s.buf.capacity)) := by
  intro s i call hcall
  have htasks : Tasks calls s := run_tasks capacity calls turns
  have hblocked (hunaided : Unaided call turns) (hasleep : (s.phase i).asleep) : call.Blocked s.buf :=
    (run_sleeps capacity hcalls hcall turns hturns hunaided).2 hasleep
  refine ⟨hblocked, (htasks.placed i call hcall).prompt, fun hrest => ?_⟩
  rcases htasks.resting hrest hcall with hended | ⟨item, rfl, hwaiting⟩
  · exact Or.inl hended
  · refine Or.inr ⟨item, rfl, hwaiting, fun hunaided => hblocked hunaided ?_⟩
    rw [hwaiting]
    rfl

/-- A full buffer, a drain that waits for none, two blocking pushes and two drains: at rest all but
the last push have ended. -/
theorem no_wake_up_is_lost_among_the_tasks_of_three :
    let calls : List (AsyncCall Nat) :=
      [.push_blocking 2 none, .drain (some 1) (some 1), .push_blocking 3 none]
    let turns : List (Turn Nat) :=
      [.call (.push_nowait 1), .advance 0, .advance 0, .advance 2, .advance 2, .advance 1, .advance 0,
        .advance 0, .advance 2, .advance 2, .advance 2]
    let s := (run (Shared.step calls) (Shared.new Nat 1) turns).2
    s.phase 0 = .returned ∧ s.phase 2 = .waiting ∧ s.buf.size = s.buf.capacity := by
  intro calls turns s
  have h2 : s.phase 2 = .waiting := by decide
  have h := no_wake_up_is_lost_among_the_tasks 1 calls (by simp [calls, AsyncCall.Counted, Counted])
    turns (by simp [turns, Turn.Counted, Counted]) 2 (.push_blocking 3 none) rfl
  refine ⟨by decide, h2, h.1 ?_ (by rw [h2]; rfl)⟩
  intro c hc
  obtain rfl : c = .push_nowait 1 := by simpa [turns] using hc
  rfl

/-! ## Blocking pushes alone -/

/-- A call that may drop an item is `push`; a blocking push waits for space. -/
def AsyncCall.waits_for_space : AsyncCall α → Prop
  | .push _ => False
  | .push_blocking _ _ | .drain _ _ => True

/-- Outside the tasks there are drains only. -/
def Turn.drains : Turn α → Prop
  | .call (.push_nowait _) => False
  | .call (.drain_nowait _) | .advance _ | .time_out _ => True

def AsyncCall.blocking_item : AsyncCall α → Option α
  | .push_blocking item _ => some item
  | .push _ | .drain _ _ => none

/-- The items of these blocking pushes. -/
def itemsOf (calls : List (AsyncCall α)) (order : List Nat) : List α :=
  order.filterMap fun i => calls[i]?.bind AsyncCall.blocking_item

/-- Task `i` made a blocking push, and it has returned. -/
def Through (calls : List (AsyncCall α)) (s : Shared α) (i : Nat) : Prop :=
  ∃ item timeout, calls[i]? = some (.push_blocking item timeout) ∧ s.phase i = .returned

/-- The blocking pushes that have returned came through in an order, and all their items were handed
out or are in the buffer, in this order. -/
structure InOrder (calls : List (AsyncCall α)) (log : List (Entry α)) (s : Shared α)
    (order : List Nat) (taken : List α) (q : Fifo α) : Prop where
  nodup : order.Nodup
  through : ∀ i, i ∈ order ↔ Through calls s i
  holds : Holds s.buf q
  kept : q.dropped = 0
  returned : returnedValues (log.map Entry.answer) = taken.map some
  items : taken ++ q.items = itemsOf calls order

section in_order

variable {calls : List (AsyncCall α)} {log out : List (Entry α)} {s s' : Shared α} {turn : Turn α}
  {order : List Nat} {taken : List α} {q : Fifo α}

/-- A drain, of a task or of none. -/
theorem InOrder.drain (h : InOrder calls log s order taken q) {m : Option Int}
    (hm : Counted (.drain_nowait m : BufferCall α)) (task : Option Nat)
    (hbuf : s'.buf = (s.buf.call (.drain_nowait m)).2)
    (hthrough : ∀ i, Through calls s' i ↔ Through calls s i) :
    ∃ taken q, InOrder calls (log ++ [⟨task, .drain_nowait m, (s.buf.call (.drain_nowait m)).1⟩]) s'
      order taken q := by
  obtain ⟨hanswer, hholds⟩ := call.spec s.buf q (.drain_nowait m) h.holds hm
  refine ⟨taken ++ (take q (m.map Int.toNat)).1, (take q (m.map Int.toNat)).2, h.nodup, ?_, ?_, ?_, ?_, ?_⟩
  · exact fun i => (h.through i).trans (hthrough i).symm
  · rw [hbuf]
    exact hholds
  · rw [take_dropped]
    exact h.kept
  · rw [List.map_append, List.map_singleton, returnedValues_snoc, h.returned, List.map_append]
    congr 1
    rw [hanswer]
    simp [returnedValues, fifoCall]
  · rw [List.append_assoc, take_append, h.items]

theorem InOrder.move (hcalls : ∀ call ∈ calls, call.Counted)
    (hspace : ∀ call ∈ calls, call.waits_for_space) (hturn : turn.Counted) (hdrains : turn.drains)
    (h : InOrder calls log s order taken q) (hmove : Move calls s turn out s') :
    ∃ order taken q, InOrder calls (log ++ out) s' order taken q := by
  cases hmove with
  | quiet _ _ hbuf hended hreturned =>
    refine ⟨order, taken, q, h.nodup, fun i => ?_, hbuf ▸ h.holds, h.kept, ?_, h.items⟩
    · rw [h.through]
      refine exists_congr fun item => exists_congr fun timeout => and_congr_right fun _ => ?_
      exact ⟨fun hs => (hended i (ended_of_returned hs)).trans hs, hreturned i⟩
    · rw [List.append_nil]
      exact h.returned
  | outside c =>
    cases c with
    | push_nowait item => exact hdrains.elim
    | drain_nowait m => exact ⟨order, h.drain hturn none rfl (fun _ => Iff.rfl)⟩
  | inside _ i call c _ hcall hperforms hopen hbuf hi hended hreturned =>
    have hmem := List.mem_of_getElem? hcall
    cases call with
    | push item => exact (hspace _ hmem).elim
    | push_blocking item timeout =>
      obtain ⟨rfl, hroom⟩ := hperforms
      have hnew : i ∉ order := by
        intro hi
        obtain ⟨-, -, -, hs⟩ := (h.through i).mp hi
        simp [ended_of_returned hs] at hopen
      refine ⟨order ++ [i], taken, ⟨q.items ++ [item], q.dropped⟩, ?_, fun j => ?_, ?_, h.kept, ?_, ?_⟩
      · exact h.nodup.append (by simp) (by simpa using hnew)
      · rw [List.mem_append, List.mem_singleton, h.through]
        constructor
        · rintro (⟨x, t, hj, hs⟩ | rfl)
          · exact ⟨x, t, hj, (hended j (ended_of_returned hs)).trans hs⟩
          · exact ⟨item, timeout, hcall, hi⟩
        · rintro ⟨x, t, hj, hs⟩
          exact (hreturned j hs).imp_left fun hs => ⟨x, t, hj, hs⟩
      · rw [hbuf]
        exact push_nowait_room s.buf q item h.holds hroom
      · rw [List.map_append, List.map_singleton, returnedValues_snoc, h.returned]
        exact List.append_nil _
      · have hone : itemsOf calls [i] = [item] := by simp [itemsOf, hcall, AsyncCall.blocking_item]
        have hsplit : itemsOf calls (order ++ [i]) = itemsOf calls order ++ itemsOf calls [i] :=
          List.filterMap_append
        rw [hsplit, hone, ← h.items, List.append_assoc]
    | drain max_items wait_timeout =>
      obtain rfl : c = .drain_nowait max_items := hperforms
      refine ⟨order, h.drain (hcalls _ hmem) (some i) hbuf fun j => ?_⟩
      refine exists_congr fun x => exists_congr fun t => and_congr_right fun hj => ?_
      have hji : j ≠ i := by
        rintro rfl
        simp [hcall] at hj
      exact ⟨fun hs => (hreturned j hs).resolve_right hji,
        fun hs => (hended j (ended_of_returned hs)).trans hs⟩

end in_order

/-- With blocking pushes alone the buffer passes on everything, in order: true backpressure. For
every capacity, list of tasks that block on a push or drain, and order of their turns with
synchronous drains, nothing is ever dropped. The blocking pushes that have returned came through in
an order in which what the drains handed out, followed by what is in the buffer, is just their
items, each once; a push that still waits or that timed out left nothing. -/
theorem blocking_pushes_pass_everything_on_in_order (capacity : Nat) (hpos : 1 ≤ capacity)
    (calls : List (AsyncCall α)) (hcalls : ∀ call ∈ calls, call.Counted ∧ call.waits_for_space)
    (turns : List (Turn α)) (hturns : ∀ turn ∈ turns, turn.Counted ∧ turn.drains) :
    let r := run (Shared.step calls) (Shared.new α capacity) turns
    r.2.buf.dropped = 0 ∧
      ∃ order : List Nat, order.Nodup ∧ (∀ i, i ∈ order ↔ Through calls r.2 i) ∧
        ∃ q : Fifo α, Holds r.2.buf q ∧
          returnedValues (r.1.flatten.map Entry.answer) ++ q.items.map some =
            (itemsOf calls order).map some := by
  intro r
  have hrun : ∃ order taken q, InOrder calls r.1.flatten r.2 order taken q := by
    refine run_history (Shared.step calls)
      (P := fun turns out s => (∀ turn ∈ turns, turn.Counted ∧ turn.drains) →
        ∃ order taken q, InOrder calls out.flatten s order taken q) ?_ ?_ turns hturns
    · intro _
      refine ⟨[], [], empty, List.nodup_nil, fun i => ?_, holds_new capacity hpos, rfl, rfl, rfl⟩
      simp [Through, Shared.new]
    · intro turns out s turn ih hturns
      obtain ⟨order, taken, q, h⟩ := ih (fun t ht => hturns t (by simp [ht]))
      obtain ⟨hturn, hdrains⟩ := hturns turn (by simp)
      rw [List.flatten_concat]
      exact h.move (fun call hcall => (hcalls call hcall).1) (fun call hcall => (hcalls call hcall).2)
        hturn hdrains (step_move calls s turn)
  obtain ⟨order, taken, q, h⟩ := hrun
  refine ⟨h.holds.dropped_eq.trans h.kept, order, h.nodup, h.through, q, h.holds, ?_⟩
  rw [h.returned, ← List.map_append, h.items]

/-- Two blocking pushes into a buffer of one, and a drain that lets the second in. -/
theorem blocking_pushes_pass_everything_on_in_order_of_two :
    let calls : List (AsyncCall Nat) := [.push_blocking 2 none, .push_blocking 3 none, .drain none none]
    let turns : List (Turn Nat) :=
      [.advance 1, .advance 0, .advance 0, .advance 2, .advance 0, .advance 0]
    let r := run (Shared.step calls) (Shared.new Nat 1) turns
    Through calls r.2 0 ∧ Through calls r.2 1 ∧ r.2.buf.dropped = 0 ∧
      returnedValues (r.1.flatten.map Entry.answer) = [some 3] := by
  intro calls turns r
  have h := blocking_pushes_pass_everything_on_in_order 1 (by decide) calls
    (by simp [calls, AsyncCall.Counted, AsyncCall.waits_for_space, Counted]) turns
    (by simp [turns, Turn.Counted, Turn.drains])
  exact ⟨⟨2, none, rfl, by decide⟩, ⟨3, none, rfl, by decide⟩, h.1, by decide⟩

end tick_pipeline.ring_buffer
