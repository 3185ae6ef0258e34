-- The ring buffer and the arguments of its drains: with counts from 0 on it keeps its
-- books, and a single negative one breaks them.
import TickPipeline.RingBuffer
import Mathlib.Data.List.Perm.Subperm

namespace tick_pipeline.ring_buffer

open runs drop_oldest

variable {α : Type}

/-- The items pushed, in order. -/
def pushedItems (calls : List (BufferCall α)) : List α :=
  calls.flatMap fun | .push_nowait x => [x] | .drain_nowait _ => []

/-- The values that the drains handed out, in order. -/
def returnedValues (answers : List (Answer α)) : List (Option α) :=
  answers.flatMap fun | .pushed _ => [] | .drained items => items

theorem pushedItems_snoc (calls : List (BufferCall α)) (c : BufferCall α) :
    pushedItems (calls ++ [c]) = pushedItems calls ++ pushedItems [c] := by
  simp [pushedItems]

theorem returnedValues_snoc (answers : List (Answer α)) (a : Answer α) :
    returnedValues (answers ++ [a]) = returnedValues answers ++ returnedValues [a] := by
  simp [returnedValues]

/-- The books of a buffer: its size and its head are in bounds, each value handed out is an item
that was pushed and not handed out before, and the size is what the counters leave. -/
structure Sound (capacity : Nat) (calls : List (BufferCall α)) (answers : List (Answer α))
    (b : RingBuffer α) : Prop where
  size_le : b.size ≤ capacity
  head_lt : b.head < capacity
  returned : ∃ items : List α,
    returnedValues answers = items.map some ∧ items.Subperm (pushedItems calls)
  size_eq : (b.size : Int) = b.pushed_total - b.dropped - (returnedValues answers).length

/-- What counted calls keep: the buffer holds a queue that was fed what was pushed. -/
structure FedBuffer (capacity : Nat) (calls : List (BufferCall α)) (answers : List (Answer α))
    (b : RingBuffer α) (taken : List α) (q : Fifo α) : Prop where
  capacity_eq : b.capacity = capacity
  holds : Holds b q
  fed : Fed (pushedItems calls) taken q
  returned : returnedValues answers = taken.map some
  pushed : b.pushed_total = (pushedItems calls).length

section fed

variable {capacity : Nat} {calls : List (BufferCall α)} {answers : List (Answer α)}
  {b : RingBuffer α} {taken : List α} {q : Fifo α}

theorem FedBuffer.sound (h : FedBuffer capacity calls answers b taken q) :
    Sound capacity calls answers b := by
  have hfits := h.holds.fits
  have hsize := h.holds.size_eq
  have hhead := h.holds.head_lt
  have htotal := h.fed.total
  rw [h.capacity_eq] at hfits hhead
  refine ⟨by omega, hhead, ⟨taken, h.returned, ?_⟩, ?_⟩
  · exact ((List.sublist_append_left taken q.items).trans h.fed.in_order).subperm
  · rw [h.returned, List.length_map, h.pushed, h.holds.dropped_eq]
    omega

theorem FedBuffer.call (h : FedBuffer capacity calls answers b taken q) (c : BufferCall α)
    (hc : Counted c) :
    ∃ taken q, FedBuffer capacity (calls ++ [c]) (answers ++ [(b.call c).1]) (b.call c).2 taken q := by
  obtain ⟨hanswer, hholds⟩ := call.spec b q c h.holds hc
  have hcap := (call_capacity b c).trans h.capacity_eq
  have hfits : q.items.length ≤ b.capacity := h.holds.fits
  cases c with
  | push_nowait x =>
    have hfed := h.fed.push h.holds.capacity_pos hfits x
    refine ⟨taken, _, hcap, hholds, ?_, ?_, ?_⟩
    · rw [pushedItems_snoc]
      exact hfed
    · rw [returnedValues_snoc, h.returned, hanswer]
      exact List.append_nil _
    · rw [pushedItems_snoc, List.length_append, ← h.pushed]
      rfl
  | drain_nowait m =>
    have hfed := h.fed.take (m.map Int.toNat)
    refine ⟨taken ++ (take q (m.map Int.toNat)).1, _, hcap, hholds, ?_, ?_, ?_⟩
    · have hnone : pushedItems ([.drain_nowait m] : List (BufferCall α)) = [] := rfl
      rw [pushedItems_snoc, hnone, List.append_nil]
      exact hfed
    · rw [returnedValues_snoc, h.returned, hanswer, List.map_append]
      simp [returnedValues, fifoCall]
    · rw [pushedItems_snoc, List.length_append, ← h.pushed]
      exact drain_nowait_pushed_total b m

end fed

theorem run_fed (capacity : Nat) (hpos : 0 < capacity) (calls : List (BufferCall α))
    (hcalls : ∀ c ∈ calls, Counted c) :
    let r := run RingBuffer.call (RingBuffer.new α capacity) calls
    ∃ taken q, FedBuffer capacity calls r.1 r.2 taken q := by
  refine run_history RingBuffer.call
    (P := fun calls answers b => (∀ c ∈ calls, Counted c) →
      ∃ taken q, FedBuffer capacity calls answers b taken q) ?_ ?_ calls hcalls
  · intro _
    exact ⟨[], empty, rfl, holds_new capacity hpos, fed_empty, rfl, rfl⟩
  · intro calls answers b c ih hcalls
    obtain ⟨taken, q, h⟩ := ih (fun d hd => hcalls d (by simp [hd]))
    exact h.call c (hcalls c (by simp))

/-- A drain of a negative count adds to the size, and to nothing else. -/
theorem Sound.not_negative {capacity : Nat} {calls : List (BufferCall α)} {answers : List (Answer α)}
    {b : RingBuffer α} (h : Sound capacity calls answers b) {m : Int} (hm : m < 0) :
    ¬ Sound capacity (calls ++ [.drain_nowait (some m)])
      (answers ++ [(b.call (.drain_nowait (some m))).1]) (b.call (.drain_nowait (some m))).2 := by
  intro h'
  have hcall : b.call (.drain_nowait (some m)) =
      (.drained [], { b with size := (b.size - m).toNat }) := by
    simp only [RingBuffer.call, drain_nowait_negative b hm]
  have hbefore := h.size_eq
  have hafter := h'.size_eq
  have hnone : returnedValues ([.drained []] : List (Answer α)) = [] := rfl
  rw [hcall, returnedValues_snoc, hnone, List.append_nil] at hafter
  simp only at hafter
  omega

/-- The ring buffer keeps its books through the calls just when no drain asks for a negative number
of items. For every capacity and every list of pushes and drains, its size and its head are in
bounds at every point, each value handed out is an item that was pushed and not handed out before,
and the size is what was pushed less what was dropped and handed out, if and only if every drain
asks for everything or for a number from 0 on. -/
theorem the_ring_buffer_keeps_its_books_iff_no_drain_is_negative (capacity : Nat) (hpos : 1 ≤ capacity)
    (calls : List (BufferCall α)) :
    (∀ before, before <+: calls →
        let r := run RingBuffer.call (RingBuffer.new α capacity) before
        Sound capacity before r.1 r.2) ↔
      ∀ c ∈ calls, Counted c := by
  constructor
  · intro h c hc
    obtain ⟨before, rest, rfl⟩ := List.append_of_mem hc
    have hbefore := h before (List.prefix_append _ _)
    have hafter := h (before ++ [c]) ⟨rest, by simp⟩
    rw [run_snoc] at hafter
    cases c with
    | push_nowait x => trivial
    | drain_nowait m =>
      rintro k rfl
      by_contra hk
      exact hbefore.not_negative (not_le.mp hk) hafter
  · rintro h before ⟨rest, rfl⟩
    obtain ⟨taken, q, hfed⟩ := run_fed capacity hpos before (fun c hc => h c (by simp [hc]))
    exact hfed.sound

/-- A full buffer, and drains of none, of more than there are, and of all. -/
theorem the_ring_buffer_keeps_its_books_iff_no_drain_is_negative_of_five :
    let calls : List (BufferCall Nat) :=
      [.push_nowait 1, .push_nowait 2, .push_nowait 3, .drain_nowait (some 0), .drain_nowait (some 9),
        .drain_nowait none]
    let r := run RingBuffer.call (RingBuffer.new Nat 2) calls
    Sound 2 calls r.1 r.2 :=
  (the_ring_buffer_keeps_its_books_iff_no_drain_is_negative 2 (by decide) _).mpr (by simp [Counted]) _
    (List.prefix_refl _)

/-- `BATCH_MAX_SIZE=-1`: after one push and one drain the size is 2, in a buffer of 1. -/
theorem a_negative_drain_breaks_the_books :
    ¬ ∀ (capacity : Nat) (calls : List (BufferCall Nat)), 1 ≤ capacity →
      ∀ before, before <+: calls →
        let r := run RingBuffer.call (RingBuffer.new Nat capacity) before
        Sound capacity before r.1 r.2 := by
  intro h
  have hsize := (h 1 [.push_nowait 7, .drain_nowait (some (-1))] (by decide) _
    (List.prefix_refl _)).size_le
  exact absurd hsize (by decide)

end tick_pipeline.ring_buffer
