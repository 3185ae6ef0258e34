-- Exponential smoothing: each new number moves the last value a fixed share of
-- the way. The closed form of the value, and the bounds that the numbers give it.
import TickPipeline.Lib.WeightedMean
import Mathlib.Algebra.BigOperators.Intervals
import Mathlib.Algebra.BigOperators.Ring.Finset
import Mathlib.Data.List.GetD

namespace smoothing

open weighted_mean

variable {K : Type*} [Field K]

/-- One step: the first number stands as it is. -/
def smooth (a : K) : Option K → K → K
  | none, x => x
  | some v, x => a * x + (1 - a) * v

/-- The value after some numbers. -/
def smoothed (a : K) (xs : List K) : Option K := xs.foldl (fun v x => some (smooth a v x)) none

theorem smoothed_snoc (a : K) (xs : List K) (x : K) :
    smoothed a (xs ++ [x]) = some (smooth a (smoothed a xs) x) := by
  simp [smoothed]

/-- The `i`-th number, counted from 1. -/
def nth (xs : List K) (i : Nat) : K := xs.getD (i - 1) 0

/-- The first number and the later ones, each with the share that is left of it at the end. -/
def closedForm (a : K) (xs : List K) : K :=
  (1 - a) ^ (xs.length - 1) * nth xs 1 +
    ∑ i ∈ Finset.Icc 2 xs.length, a * (1 - a) ^ (xs.length - i) * nth xs i

theorem nth_snoc_of_le {xs : List K} {i : Nat} (h1 : 1 ≤ i) (h : i ≤ xs.length) (x : K) :
    nth (xs ++ [x]) i = nth xs i := by
  unfold nth
  rw [List.getD_append _ _ _ _ (by omega)]

theorem nth_snoc_last (xs : List K) (x : K) : nth (xs ++ [x]) (xs.length + 1) = x := by
  simp [nth]

theorem closedForm_singleton (a x : K) : closedForm a [x] = x := by
  simp [closedForm, nth]

/-- One more number leaves of each share what the step leaves of the value. -/
theorem closedForm_snoc (a : K) {xs : List K} (hne : xs ≠ []) (x : K) :
    closedForm a (xs ++ [x]) = a * x + (1 - a) * closedForm a xs := by
  have hpos : 1 ≤ xs.length := List.length_pos_iff.mpr hne
  have hfirst : (1 - a) ^ (xs.length + 1 - 1) * nth (xs ++ [x]) 1 =
      (1 - a) * ((1 - a) ^ (xs.length - 1) * nth xs 1) := by
    rw [nth_snoc_of_le le_rfl hpos, ← mul_assoc, ← pow_succ']
    congr 2
    omega
  have hrest : ∑ i ∈ Finset.Icc 2 xs.length, a * (1 - a) ^ (xs.length + 1 - i) * nth (xs ++ [x]) i =
      (1 - a) * ∑ i ∈ Finset.Icc 2 xs.length, a * (1 - a) ^ (xs.length - i) * nth xs i := by
    rw [Finset.mul_sum]
    apply Finset.sum_congr rfl
    intro i hi
    obtain ⟨h2, hle⟩ := Finset.mem_Icc.mp hi
    rw [nth_snoc_of_le (by omega) hle, show xs.length + 1 - i = xs.length - i + 1 by omega, pow_succ']
    ring
  unfold closedForm
  rw [List.length_append, List.length_singleton, Finset.sum_Icc_succ_top (by omega), hfirst, hrest,
    nth_snoc_last]
  simp only [Nat.sub_self, pow_zero]
  ring

/-- The value is the closed form of the numbers. -/
theorem smoothed_eq_closedForm (a : K) {xs : List K} (hne : xs ≠ []) :
    smoothed a xs = some (closedForm a xs) := by
  induction xs using List.reverseRecOn with
  | nil => exact absurd rfl hne
  | append_singleton xs x ih =>
    rw [smoothed_snoc]
    rcases eq_or_ne xs [] with rfl | hxs
    · simp [closedForm_singleton, smoothed, smooth]
    · rw [ih hxs, closedForm_snoc a hxs, smooth]

section bounds

variable [LinearOrder K] [IsStrictOrderedRing K] {a lo hi : K} {xs : List K}

theorem le_closedForm (h0 : 0 ≤ a) (h1 : a ≤ 1) (hne : xs ≠ []) (hlo : ∀ x ∈ xs, lo ≤ x) :
    lo ≤ closedForm a xs := by
  induction xs using List.reverseRecOn with
  | nil => exact absurd rfl hne
  | append_singleton xs x ih =>
    have hx : lo ≤ x := hlo x (by simp)
    rcases eq_or_ne xs [] with rfl | hxs
    · simpa [closedForm_singleton] using hx
    · rw [closedForm_snoc a hxs]
      exact le_blend h0 h1 hx (ih hxs (fun y hy => hlo y (by simp [hy])))

theorem closedForm_le (h0 : 0 ≤ a) (h1 : a ≤ 1) (hne : xs ≠ []) (hhi : ∀ x ∈ xs, x ≤ hi) :
    closedForm a xs ≤ hi := by
  induction xs using List.reverseRecOn with
  | nil => exact absurd rfl hne
  | append_singleton xs x ih =>
    have hx : x ≤ hi := hhi x (by simp)
    rcases eq_or_ne xs [] with rfl | hxs
    · simpa [closedForm_singleton] using hx
    · rw [closedForm_snoc a hxs]
      exact blend_le h0 h1 hx (ih hxs (fun y hy => hhi y (by simp [hy])))

end bounds

end smoothing
