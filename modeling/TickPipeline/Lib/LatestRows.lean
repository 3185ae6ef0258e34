-- Reading the latest rows of a table: sorted down by a rank, cut at a limit, and
-- turned round. When the table holds the rows of a cache, and all its other rows
-- rank below them, the read ends with what the cache ends with.
import TickPipeline.Lib.StrictMaxima
import Mathlib.Data.List.Sort

namespace latest_rows

open last_n

variable {ρ κ : Type*} [LinearOrder κ] (rank : ρ → κ)

/-- `a` comes no later than `b` in the order down by rank. -/
abbrev Down (a b : ρ) : Prop := rank b ≤ rank a

instance : Std.Total (Down rank) := ⟨fun a b => le_total (rank b) (rank a)⟩

instance : IsTrans ρ (Down rank) := ⟨fun _ _ _ hab hbc => le_trans hbc hab⟩

/-- The rows in order up by rank, as a reversed read of the order down. -/
def upward (rows : List ρ) : List ρ := (rows.insertionSort (Down rank)).reverse

variable {rank}

theorem upward_perm (rows : List ρ) : (upward rank rows).Perm rows :=
  (List.reverse_perm _).trans (List.perm_insertionSort _ rows)

/-- With no two rows of one rank, the order is strict. -/
theorem upward_sorted {rows : List ρ} (h : (rows.map rank).Nodup) :
    (upward rank rows).Pairwise (fun a b => rank a < rank b) := by
  have hle : (upward rank rows).Pairwise (fun a b => rank a ≤ rank b) := by
    unfold upward
    rw [List.pairwise_reverse]
    exact List.pairwise_insertionSort _ rows
  have hne : (upward rank rows).Pairwise (fun a b => rank a ≠ rank b) := by
    rw [← List.pairwise_map]
    exact ((upward_perm rows).map rank).nodup_iff.mpr h
  exact (hle.and hne).imp (fun hab => lt_of_le_of_ne hab.1 hab.2)

/-- A cut of the order down, turned round, is the end of the order up. -/
theorem take_reverse (rows : List ρ) (n : Nat) :
    ((rows.insertionSort (Down rank)).take n).reverse = (upward rank rows).rtake n := by
  rw [List.rtake_eq_reverse_take_reverse, upward, List.reverse_reverse]

/-- Rows that are sorted up, and above all others, stand at the end. -/
theorem upward_split [DecidableEq ρ] {rows top : List ρ} (hnodup : (rows.map rank).Nodup)
    (hsorted : top.Pairwise (fun a b => rank a < rank b)) (hsub : ∀ r ∈ top, r ∈ rows)
    (hbelow : ∀ r ∈ rows, r ∉ top → ∀ r' ∈ top, rank r < rank r') :
    upward rank rows = upward rank (rows.filter (· ∉ top)) ++ top := by
  have hrows : rows.Nodup := List.Nodup.of_map rank hnodup
  have hmem : ∀ r ∈ upward rank (rows.filter (· ∉ top)), r ∈ rows ∧ r ∉ top := by
    intro r hr
    simpa using List.mem_filter.mp ((upward_perm _).mem_iff.mp hr)
  have hsplit : (upward rank (rows.filter (· ∉ top)) ++ top).Pairwise
      (fun a b => rank a < rank b) := by
    rw [List.pairwise_append]
    refine ⟨upward_sorted (hnodup.sublist (List.filter_sublist.map rank)), hsorted, ?_⟩
    intro r hr r' hr'
    exact hbelow r (hmem r hr).1 (hmem r hr).2 r' hr'
  have hperm : (upward rank rows).Perm (upward rank (rows.filter (· ∉ top)) ++ top) := by
    rw [List.perm_ext_iff_of_nodup ((upward_perm rows).nodup_iff.mpr hrows)
      (hsplit.imp (fun h heq => absurd h (by rw [heq]; exact lt_irrefl _)))]
    intro r
    rw [(upward_perm rows).mem_iff, List.mem_append, (upward_perm _).mem_iff, List.mem_filter]
    constructor
    · intro hr
      by_cases ht : r ∈ top
      · exact Or.inr ht
      · exact Or.inl ⟨hr, by simpa using ht⟩
    · rintro (hr | hr)
      · exact hr.1
      · exact hsub r hr
  exact List.Perm.eq_of_pairwise (fun a b _ _ hab hba => absurd hab (lt_asymm hba))
    (upward_sorted hnodup) hsplit hperm

/-- The end of a list that ends in `top`, cut at `n`: it ends as `top` does, and what stands
before that is of the other part. -/
theorem rtake_append_end (older top : List ρ) (n : Nat) :
    ((older ++ top).rtake n).rtake (min n top.length) = top.rtake (min n top.length) ∧
      ∀ r ∈ ((older ++ top).rtake n).rdrop (min n top.length), r ∈ older := by
  have hlen : ((older ++ top).rtake n).length = min n (older.length + top.length) := by
    simp only [List.rtake, List.length_drop, List.length_append]
    omega
  refine ⟨?_, ?_⟩
  · rw [List.rtake, hlen]
    simp only [List.rtake, List.drop_drop, List.drop_append, List.length_append]
    rw [List.drop_eq_nil_of_le (by omega), List.nil_append]
    congr 1
    rw [List.length_drop]
    omega
  · intro r hr
    rw [List.rdrop, hlen] at hr
    simp only [List.rtake, List.drop_append, List.length_append] at hr
    rcases le_total n top.length with hn | hn
    · have hz : min n (older.length + top.length) - min n top.length = 0 := by omega
      rw [hz, List.take_zero] at hr
      simp at hr
    · have hz : older.length + top.length - n - older.length = 0 := by omega
      rw [hz, List.drop_zero, List.take_append_of_le_length
        (by rw [List.length_drop]; omega)] at hr
      exact List.mem_of_mem_drop (List.mem_of_mem_take hr)

end latest_rows
