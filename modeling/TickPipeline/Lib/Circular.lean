-- Circular arrays: a list of cells read from a starting cell, around its end.
-- `l.rotate k` is the array as a reader sees it who starts at cell `k`.
import Mathlib.Data.List.Rotate
import Mathlib.Data.Nat.ModEq

namespace circular

variable {α : Type*}

theorem rotate_congr {l : List α} {j k : Nat} (h : j % l.length = k % l.length) :
    l.rotate j = l.rotate k := by
  rw [← List.rotate_mod l j, h, List.rotate_mod]

/-- A write at distance `i` from the start is a write of cell `i` of the view. -/
theorem rotate_set (l : List α) (k i : Nat) (x : α) (hi : i < l.length) :
    (l.set ((k + i) % l.length) x).rotate k = (l.rotate k).set i x := by
  apply List.ext_getElem?
  intro j
  rcases Nat.lt_or_ge j l.length with hj | hj
  · have hjs : j < (l.set ((k + i) % l.length) x).length := by simpa using hj
    have hlt : (k + i) % l.length < l.length := Nat.mod_lt _ (by omega)
    rw [List.getElem?_rotate hjs, List.length_set, List.getElem?_set, List.getElem?_set]
    by_cases hij : i = j
    · subst hij
      rw [if_pos (by rw [Nat.add_comm]), if_pos rfl, if_pos hlt, List.length_rotate, if_pos hi]
    · have hne : (k + i) % l.length ≠ (j + k) % l.length := by
        intro he
        rw [Nat.add_comm j k] at he
        have hm : i ≡ j [MOD l.length] := Nat.ModEq.add_left_cancel' k he
        rw [Nat.ModEq, Nat.mod_eq_of_lt hi, Nat.mod_eq_of_lt hj] at hm
        exact hij hm
      rw [if_neg hne, if_neg hij, List.getElem?_rotate hj]
  · rw [List.getElem?_eq_none (by simpa using hj), List.getElem?_eq_none (by simpa using hj)]

end circular
