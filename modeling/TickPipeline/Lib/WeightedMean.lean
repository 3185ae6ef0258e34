-- Weighted sums over a list, and the means they give: a mean with positive
-- weights lies where its terms lie, and so does a blend of two numbers.
import Mathlib.Algebra.BigOperators.Group.List.Basic
import Mathlib.Algebra.Order.Field.Basic
import Mathlib.Data.Finset.Max
import Mathlib.Tactic.Linarith
import Mathlib.Tactic.Ring

namespace weighted_mean

section extremes

variable {α β : Type*} [LinearOrder β] (f : α → β) {xs : List α}

theorem exists_least (hne : xs ≠ []) : ∃ x ∈ xs, ∀ y ∈ xs, f x ≤ f y :=
  Multiset.exists_min_image f (s := (xs : Multiset α)) (by simpa using hne)

theorem exists_greatest (hne : xs ≠ []) : ∃ x ∈ xs, ∀ y ∈ xs, f y ≤ f x :=
  Multiset.exists_max_image f (s := (xs : Multiset α)) (by simpa using hne)

end extremes

variable {α K : Type*} [Field K]

section sums

variable (term weight : α → K)

/-- The sum of the weights. -/
def total (xs : List α) : K := (xs.map weight).sum

/-- The sum of the terms, each times its weight. -/
def weighted (xs : List α) : K := (xs.map (fun x => term x * weight x)).sum

variable {term weight} {xs : List α}

theorem weighted_neg : weighted (fun x => -term x) weight xs = -weighted term weight xs := by
  induction xs with
  | nil => simp [weighted]
  | cons x xs ih =>
    simp only [weighted, List.map_cons, List.sum_cons] at ih ⊢
    rw [ih]
    ring

end sums

variable [LinearOrder K] [IsStrictOrderedRing K]

section mean

variable {term weight : α → K} {xs : List α}

theorem total_pos (hw : ∀ x ∈ xs, 0 < weight x) (hne : xs ≠ []) : 0 < total weight xs := by
  induction xs with
  | nil => exact absurd rfl hne
  | cons x xs ih =>
    have hx : 0 < weight x := hw x (by simp)
    have hcons : total weight (x :: xs) = weight x + total weight xs := List.sum_cons
    rw [hcons]
    rcases eq_or_ne xs [] with rfl | hxs
    · simpa [total] using hx
    · exact add_pos hx (ih (fun y hy => hw y (by simp [hy])) hxs)

theorem le_weighted {lo : K} (hw : ∀ x ∈ xs, 0 ≤ weight x) (hlo : ∀ x ∈ xs, lo ≤ term x) :
    lo * total weight xs ≤ weighted term weight xs := by
  induction xs with
  | nil => simp [total, weighted]
  | cons x xs ih =>
    have hrest := ih (fun y hy => hw y (by simp [hy])) (fun y hy => hlo y (by simp [hy]))
    have hx : lo * weight x ≤ term x * weight x :=
      mul_le_mul_of_nonneg_right (hlo x (by simp)) (hw x (by simp))
    calc lo * total weight (x :: xs) = lo * weight x + lo * total weight xs := by
          simp [total, mul_add]
      _ ≤ term x * weight x + weighted term weight xs := add_le_add hx hrest
      _ = weighted term weight (x :: xs) := by simp [weighted]

theorem weighted_le {hi : K} (hw : ∀ x ∈ xs, 0 ≤ weight x) (hhi : ∀ x ∈ xs, term x ≤ hi) :
    weighted term weight xs ≤ hi * total weight xs := by
  have h := le_weighted hw
    (fun x hx => neg_le_neg (hhi x hx))
  rw [weighted_neg, neg_mul] at h
  exact neg_le_neg_iff.mp h

/-- A mean lies above what lies below all its terms. -/
theorem le_mean {lo : K} (hw : ∀ x ∈ xs, 0 < weight x) (hne : xs ≠ [])
    (hlo : ∀ x ∈ xs, lo ≤ term x) : lo ≤ weighted term weight xs / total weight xs := by
  rw [le_div_iff₀ (total_pos hw hne)]
  exact le_weighted (fun x hx => (hw x hx).le) hlo

/-- A mean lies below what lies above all its terms. -/
theorem mean_le {hi : K} (hw : ∀ x ∈ xs, 0 < weight x) (hne : xs ≠ [])
    (hhi : ∀ x ∈ xs, term x ≤ hi) : weighted term weight xs / total weight xs ≤ hi := by
  rw [div_le_iff₀ (total_pos hw hne)]
  exact weighted_le (fun x hx => (hw x hx).le) hhi

end mean

section blend

variable {a lo hi x y : K}

theorem le_blend (h0 : 0 ≤ a) (h1 : a ≤ 1) (hx : lo ≤ x) (hy : lo ≤ y) :
    lo ≤ a * x + (1 - a) * y := by
  have hax : a * lo ≤ a * x := mul_le_mul_of_nonneg_left hx h0
  have hay : (1 - a) * lo ≤ (1 - a) * y := mul_le_mul_of_nonneg_left hy (by linarith)
  linarith

theorem blend_le (h0 : 0 ≤ a) (h1 : a ≤ 1) (hx : x ≤ hi) (hy : y ≤ hi) :
    a * x + (1 - a) * y ≤ hi := by
  have hax : a * x ≤ a * hi := mul_le_mul_of_nonneg_left hx h0
  have hay : (1 - a) * y ≤ (1 - a) * hi := mul_le_mul_of_nonneg_left hy (by linarith)
  linarith

end blend

end weighted_mean
