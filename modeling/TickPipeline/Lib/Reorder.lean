-- Reordering with a heap: entries carry a key to sort by and a tag that says
-- who came first. The heap is kept as the sorted list that its pops walk
-- through. A watermark lets entries out up to a bound, and an entry that comes
-- in at or above every bound used so far comes out in order.
import Mathlib.Data.List.Sort
import Mathlib.Order.Basic

namespace reorder

variable {ε α κ : Type*} [LinearOrder κ] (key : ε → κ) (tag : ε → Nat)

/-- The order of the heap: by key, and the earlier tag first among equal keys. -/
def Before (a b : ε) : Prop := key a < key b ∨ (key a = key b ∧ tag a < tag b)

instance : DecidableRel (Before key tag) := fun a b => by unfold Before; infer_instance

variable {key tag}

theorem Before.trans {a b c : ε} (h1 : Before key tag a b) (h2 : Before key tag b c) :
    Before key tag a c := by
  rcases h1 with h1 | ⟨h1, t1⟩ <;> rcases h2 with h2 | ⟨h2, t2⟩
  · exact Or.inl (h1.trans h2)
  · exact Or.inl (h2 ▸ h1)
  · exact Or.inl (h1 ▸ h2)
  · exact Or.inr ⟨h1.trans h2, t1.trans t2⟩

theorem Before.asymm {a b : ε} (h1 : Before key tag a b) : ¬ Before key tag b a := by
  rintro h2
  rcases h1 with h1 | ⟨h1, t1⟩ <;> rcases h2 with h2 | ⟨h2, t2⟩
  · exact lt_asymm h1 h2
  · exact h1.ne' h2
  · exact h2.ne' h1
  · exact Nat.lt_asymm t1 t2

theorem Before.key_le {a b : ε} (h : Before key tag a b) : key a ≤ key b := by
  rcases h with h | ⟨h, _⟩
  · exact h.le
  · exact h.le

theorem before_or_before {a b : ε} (h : tag a ≠ tag b) : Before key tag a b ∨ Before key tag b a := by
  rcases lt_trichotomy (key a) (key b) with hk | hk | hk
  · exact Or.inl (Or.inl hk)
  · rcases Nat.lt_or_gt_of_ne h with ht | ht
    · exact Or.inl (Or.inr ⟨hk, ht⟩)
    · exact Or.inr (Or.inr ⟨hk.symm, ht⟩)
  · exact Or.inr (Or.inl hk)

variable (key tag)

/-! ## The heap -/

def heappush (heap : List ε) (x : ε) : List ε := heap.orderedInsert (Before key tag) x

theorem heappush_perm (heap : List ε) (x : ε) : (heappush key tag heap x).Perm (x :: heap) :=
  List.perm_orderedInsert _ x heap

theorem heappush_sorted (heap : List ε) (x : ε) (h : heap.Pairwise (Before key tag))
    (hx : ∀ y ∈ heap, tag x ≠ tag y) : (heappush key tag heap x).Pairwise (Before key tag) := by
  induction heap with
  | nil => simp [heappush]
  | cons y ys ih =>
    rw [List.pairwise_cons] at h
    unfold heappush at ih ⊢
    rw [List.orderedInsert_cons]
    split
    · rename_i hxy
      refine List.pairwise_cons.mpr ⟨?_, List.pairwise_cons.mpr h⟩
      intro z hz
      rcases List.mem_cons.mp hz with rfl | hz
      · exact hxy
      · exact hxy.trans (h.1 z hz)
    · rename_i hxy
      have hyx : Before key tag y x :=
        (before_or_before (hx y (by simp))).resolve_left hxy
      refine List.pairwise_cons.mpr ⟨?_, ih h.2 (fun z hz => hx z (by simp [hz]))⟩
      intro z hz
      rcases (List.mem_orderedInsert _).mp hz with rfl | hz
      · exact hyx
      · exact h.1 z hz

/-- Pops the entries up to a bound: what came out, and what stays. -/
def popUpTo (bound : κ) : List ε → List ε × List ε
  | [] => ([], [])
  | e :: heap =>
    if key e ≤ bound then
      let (out, rest) := popUpTo bound heap
      (e :: out, rest)
    else ([], e :: heap)

theorem popUpTo_append (bound : κ) (heap : List ε) :
    (popUpTo key bound heap).1 ++ (popUpTo key bound heap).2 = heap := by
  induction heap with
  | nil => rfl
  | cons e heap ih =>
    unfold popUpTo
    split
    · simpa using ih
    · rfl

theorem popUpTo_out (bound : κ) (heap : List ε) :
    ∀ e ∈ (popUpTo key bound heap).1, key e ≤ bound := by
  induction heap with
  | nil => simp [popUpTo]
  | cons e heap ih =>
    unfold popUpTo
    split
    · rename_i he
      intro x hx
      rcases List.mem_cons.mp hx with rfl | hx
      · exact he
      · exact ih x hx
    · simp

theorem popUpTo_rest (bound : κ) (heap : List ε) (h : heap.Pairwise (Before key tag)) :
    ∀ e ∈ (popUpTo key bound heap).2, bound < key e := by
  induction heap with
  | nil => simp [popUpTo]
  | cons e heap ih =>
    rw [List.pairwise_cons] at h
    unfold popUpTo
    split
    · exact ih h.2
    · rename_i he
      intro x hx
      rcases List.mem_cons.mp hx with rfl | hx
      · exact not_le.mp he
      · exact (not_le.mp he).trans_le (h.1 x hx).key_le

/-- What comes out is exactly what stands at or below the bound. -/
theorem popUpTo_eq_filter (bound : κ) (heap : List ε) (h : heap.Pairwise (Before key tag)) :
    (popUpTo key bound heap).1 = heap.filter (fun e => key e ≤ bound) := by
  conv_rhs => rw [← popUpTo_append key bound heap]
  rw [List.filter_append, List.filter_eq_self.mpr, List.filter_eq_nil_iff.mpr, List.append_nil]
  · intro e he
    simpa using popUpTo_rest key tag bound heap h e he
  · intro e he
    simpa using popUpTo_out key bound heap e he

/-! ## The watermark -/

/-- What a heap and the entries it let out keep, for entries that `OnTime` holds of: each
stands after everything that was out before it. -/
structure InOrder (OnTime : ε → Prop) (out heap : List ε) : Prop where
  heap_sorted : heap.Pairwise (Before key tag)
  out_sorted : out.Pairwise (fun a b => OnTime b → Before key tag a b)
  heap_after : ∀ e ∈ heap, OnTime e → ∀ a ∈ out, Before key tag a e

variable {key tag}

theorem inOrder_empty (OnTime : ε → Prop) : InOrder key tag OnTime [] [] :=
  ⟨List.Pairwise.nil, List.Pairwise.nil, by simp⟩

theorem InOrder.congr {OnTime OnTime' : ε → Prop} {out heap : List ε}
    (h : InOrder key tag OnTime out heap) (he : ∀ e ∈ out ++ heap, OnTime' e → OnTime e) :
    InOrder key tag OnTime' out heap := by
  obtain ⟨h1, h2, h3⟩ := h
  refine ⟨h1, ?_, fun e hm ht => h3 e hm (he e (by simp [hm]) ht)⟩
  exact h2.imp_of_mem fun {a b} _ hb hab ht => hab (he b (by simp [hb]) ht)

/-- An entry comes in. When it is on time, it stands after all that is out. -/
theorem InOrder.push {OnTime : ε → Prop} {out heap : List ε} (h : InOrder key tag OnTime out heap)
    (x : ε) (htag : ∀ y ∈ heap, tag x ≠ tag y) (hx : OnTime x → ∀ a ∈ out, Before key tag a x) :
    InOrder key tag OnTime out (heappush key tag heap x) := by
  refine ⟨heappush_sorted key tag heap x h.heap_sorted htag, h.out_sorted, ?_⟩
  intro e he ht
  rcases (List.mem_orderedInsert _).mp he with rfl | he
  · exact hx ht
  · exact h.heap_after e he ht

/-- The entries up to a bound come out. -/
theorem InOrder.pop {OnTime : ε → Prop} {out heap : List ε} (h : InOrder key tag OnTime out heap)
    (bound : κ) :
    InOrder key tag OnTime (out ++ (popUpTo key bound heap).1) (popUpTo key bound heap).2 := by
  have happ := popUpTo_append key bound heap
  generalize (popUpTo key bound heap).1 = ready at *
  generalize (popUpTo key bound heap).2 = rest at *
  subst happ
  obtain ⟨h1, h2, h3⟩ := h
  rw [List.pairwise_append] at h1
  refine ⟨h1.2.1, ?_, ?_⟩
  · rw [List.pairwise_append]
    refine ⟨h2, h1.1.imp (fun {_ b} hab (_ : OnTime b) => hab), ?_⟩
    intro a ha b hb ht
    exact h3 b (by simp [hb]) ht a ha
  · intro e he ht a ha
    rcases List.mem_append.mp ha with ha | ha
    · exact h3 e (by simp [he]) ht a ha
    · exact h1.2.2 a ha e he

/-- All that is out, and then the heap: on-time entries stand in order. -/
theorem InOrder.flush {OnTime : ε → Prop} {out heap : List ε} (h : InOrder key tag OnTime out heap) :
    (out ++ heap).Pairwise (fun a b => OnTime b → Before key tag a b) := by
  rw [List.pairwise_append]
  exact ⟨h.out_sorted, h.heap_sorted.imp (fun {_ b} hab (_ : OnTime b) => hab),
    fun a ha b hb ht => h.heap_after b hb ht a ha⟩

/-! ## The stable sort -/

/-- A stable sort of entries in tag order puts them in heap order. -/
theorem mergeSort_before (l : List ε) (htag : l.Pairwise (fun a b => tag a < tag b)) :
    (l.mergeSort (fun a b => decide (key a ≤ key b))).Pairwise (Before key tag) := by
  have htrans : ∀ a b c : ε, decide (key a ≤ key b) → decide (key b ≤ key c) →
      decide (key a ≤ key c) := by
    intro a b c hab hbc
    simp only [decide_eq_true_eq] at *
    exact hab.trans hbc
  have htotal : ∀ a b : ε, (decide (key a ≤ key b) || decide (key b ≤ key a)) = true := by
    intro a b
    simp only [Bool.or_eq_true, decide_eq_true_eq]
    exact le_total _ _
  have hsorted := List.pairwise_mergeSort (List.zipIdxLE_trans htrans) (List.zipIdxLE_total htotal)
    l.zipIdx
  have hnodup : (l.zipIdx.mergeSort (List.zipIdxLE (fun a b => decide (key a ≤ key b)))).Pairwise
      (fun a b => a.2 ≠ b.2) := by
    have hperm := List.mergeSort_perm l.zipIdx (List.zipIdxLE (fun a b => decide (key a ≤ key b)))
    rw [hperm.pairwise_iff (fun h => h.symm), ← List.pairwise_map (f := Prod.snd) (R := (· ≠ ·))]
    rw [List.zipIdx_map_snd]
    exact List.nodup_range' 1
  rw [← List.mergeSort_zipIdx, List.pairwise_map]
  refine (hsorted.and hnodup).imp_of_mem ?_
  rintro ⟨a, i⟩ ⟨b, j⟩ ha hb ⟨hle, hne⟩
  rw [List.mem_mergeSort, List.mk_mem_zipIdx_iff_getElem?] at ha hb
  simp only [List.zipIdxLE, decide_eq_true_eq] at hle
  split at hle
  · rename_i hab
    split at hle
    · rename_i hba
      have hij : i < j := lt_of_le_of_ne (by simpa using hle) hne
      obtain ⟨hi, rfl⟩ := List.getElem?_eq_some_iff.mp ha
      obtain ⟨hj, rfl⟩ := List.getElem?_eq_some_iff.mp hb
      exact Or.inr ⟨le_antisymm hab hba, List.pairwise_iff_getElem.mp htag i j hi hj hij⟩
    · rename_i hba
      exact Or.inl (not_le.mp hba)
  · simp at hle

/-- Entries in heap order are the stable sort of the same entries in tag order. -/
theorem eq_mergeSort {out l : List ε} (hout : out.Pairwise (Before key tag))
    (htag : l.Pairwise (fun a b => tag a < tag b)) (hperm : out.Perm l) :
    out = l.mergeSort (fun a b => decide (key a ≤ key b)) := by
  refine @List.Perm.eq_of_pairwise _ (Before key tag) _ _ ?_ ?_ ?_ ?_
  · intro a b _ _ hab hba
    exact absurd hba hab.asymm
  · exact hout
  · exact mergeSort_before l htag
  · exact hperm.trans (List.mergeSort_perm l _).symm

/-- The same, for what the entries hold: the values come out as the stable sort of the values
that went in. -/
theorem map_eq_mergeSort {out l : List ε} (value : ε → α) (rank : α → κ)
    (hout : out.Pairwise (Before key tag)) (htag : l.Pairwise (fun a b => tag a < tag b))
    (hperm : out.Perm l) (hrank : ∀ e ∈ l, key e = rank (value e)) :
    out.map value = (l.map value).mergeSort (fun a b => decide (rank a ≤ rank b)) := by
  rw [eq_mergeSort hout htag hperm]
  apply List.map_mergeSort
  intro a ha b hb
  rw [hrank a ha, hrank b hb]

end reorder
