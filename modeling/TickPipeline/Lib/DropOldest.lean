-- A bounded queue that drops its oldest element to make room: the plain-list
-- meaning of every buffer that prefers a loss to a wait, and what it keeps of all
-- that it was fed.
import Mathlib.Data.List.Basic

namespace drop_oldest

variable {α : Type*}

/-- The queue, oldest element first, and how many elements it dropped. -/
structure Fifo (α : Type*) where
  items : List α
  dropped : Nat

def empty : Fifo α := ⟨[], 0⟩

/-- Appends `x`. A full queue first drops its front, and the answer is then `false`. -/
def push (capacity : Nat) (q : Fifo α) (x : α) : Bool × Fifo α :=
  if q.items.length = capacity then (false, ⟨q.items.drop 1 ++ [x], q.dropped + 1⟩)
  else (true, ⟨q.items ++ [x], q.dropped⟩)

/-- Removes the first `m` elements, or all of them for `none`. -/
def take (q : Fifo α) (m : Option Nat) : List α × Fifo α :=
  match m with
  | none => (q.items, ⟨[], q.dropped⟩)
  | some m => (q.items.take m, ⟨q.items.drop m, q.dropped⟩)

theorem take_length (q : Fifo α) (m : Option Nat) :
    (take q m).1.length + (take q m).2.items.length = q.items.length := by
  cases m with
  | none => simp [take]
  | some m => simp [take]; omega

@[simp] theorem take_dropped (q : Fifo α) (m : Option Nat) : (take q m).2.dropped = q.dropped := by
  cases m <;> rfl

theorem push_room (capacity : Nat) (q : Fifo α) (x : α) (h : q.items.length < capacity) :
    push capacity q x = (true, ⟨q.items ++ [x], q.dropped⟩) := by
  rw [push, if_neg (Nat.ne_of_lt h)]

theorem push_full (capacity : Nat) (q : Fifo α) (x : α) (h : q.items.length = capacity) :
    push capacity q x = (false, ⟨q.items.drop 1 ++ [x], q.dropped + 1⟩) := by
  rw [push, if_pos h]

theorem push_length (capacity : Nat) (q : Fifo α) (x : α) (hpos : 0 < capacity)
    (h : q.items.length ≤ capacity) :
    (push capacity q x).2.items.length ≤ capacity ∧
      (push capacity q x).2.dropped + (push capacity q x).2.items.length =
        q.dropped + q.items.length + 1 := by
  unfold push
  split
  · simp; omega
  · simp; omega

/-- What is pushed comes last, and what is dropped comes out of the middle. -/
theorem push_in_order {capacity : Nat} {pushed taken : List α} {q : Fifo α}
    (h : (taken ++ q.items).Sublist pushed) (x : α) :
    (taken ++ (push capacity q x).2.items).Sublist (pushed ++ [x]) := by
  unfold push
  split
  · rw [← List.append_assoc]
    exact (((List.drop_sublist 1 q.items).append_left taken).trans h).append (List.Sublist.refl [x])
  · rw [← List.append_assoc]
    exact h.append (List.Sublist.refl [x])

theorem take_append (q : Fifo α) (m : Option Nat) : (take q m).1 ++ (take q m).2.items = q.items := by
  cases m with
  | none => simp [take]
  | some m => exact List.take_append_drop m q.items

/-! ## What a queue keeps of what it was fed -/

/-- The queue after `pushed` came in and `taken` was taken out: it holds the newest of what came
in, what was taken came out in order, and nothing is unaccounted for. -/
structure Fed (pushed taken : List α) (q : Fifo α) : Prop where
  newest : q.items <:+ pushed
  in_order : (taken ++ q.items).Sublist pushed
  total : taken.length + q.items.length + q.dropped = pushed.length

theorem fed_empty : Fed ([] : List α) [] empty := ⟨List.suffix_refl [], List.Sublist.refl [], rfl⟩

theorem Fed.push {capacity : Nat} {pushed taken : List α} {q : Fifo α} (h : Fed pushed taken q)
    (hpos : 0 < capacity) (hfits : q.items.length ≤ capacity) (x : α) :
    Fed (pushed ++ [x]) taken (push capacity q x).2 := by
  have hlen := (push_length capacity q x hpos hfits).2
  have htotal := h.total
  refine ⟨?_, push_in_order h.in_order x, ?_⟩
  · unfold drop_oldest.push
    split
    · exact List.suffix_append_self_iff.mpr ((List.drop_suffix 1 q.items).trans h.newest)
    · exact List.suffix_append_self_iff.mpr h.newest
  · rw [List.length_append, List.length_singleton]
    omega

theorem Fed.take {pushed taken : List α} {q : Fifo α} (h : Fed pushed taken q) (m : Option Nat) :
    Fed pushed (taken ++ (take q m).1) (take q m).2 := by
  have hsplit := take_append q m
  have hlen := take_length q m
  have htotal := h.total
  refine ⟨?_, ?_, ?_⟩
  · have hsuffix : (drop_oldest.take q m).2.items <:+ q.items := ⟨_, hsplit⟩
    exact hsuffix.trans h.newest
  · rw [List.append_assoc, hsplit]
    exact h.in_order
  · rw [take_dropped, List.length_append]
    omega

end drop_oldest
