-- Windows that slide along a stream: each new element names a lower edge, and
-- the elements in front that lie below it go. Nothing is looked at behind the
-- first element that stays, so what stands in the window is all that lies above
-- the edge only when the stream is in order.
import Mathlib.Data.List.DropRight
import Mathlib.Data.List.Induction
import Mathlib.Order.Lattice

namespace sliding_window

variable {α β : Type*} [LinearOrder β] (key : α → β) (edge : α → β)

/-- Drops the elements in front that lie below `lo`. -/
def expire (lo : β) (xs : List α) : List α := xs.dropWhile (fun x => key x < lo)

/-- The window after a stream. -/
def slide (xs : List α) : List α :=
  xs.foldl (fun win x => expire key (edge x) (win ++ [x])) []

theorem slide_snoc (xs : List α) (x : α) :
    slide key edge (xs ++ [x]) = expire key (edge x) (slide key edge xs ++ [x]) := by
  simp [slide]

variable {key edge}

/-! ## In any order -/

theorem expire_append (lo : β) (xs ys : List α) :
    expire key lo (xs ++ ys) =
      if expire key lo xs = [] then expire key lo ys else expire key lo xs ++ ys := by
  unfold expire
  simp [List.dropWhile_append, List.isEmpty_iff]

/-- A higher bound takes what a lower one takes first, and more. -/
theorem expire_expire {lo hi : β} (h : lo ≤ hi) (xs : List α) :
    expire key hi (expire key lo xs) = expire key hi xs := by
  induction xs with
  | nil => rfl
  | cons x xs ih =>
    by_cases hx : key x < lo
    · have hxhi : key x < hi := lt_of_lt_of_le hx h
      unfold expire at ih ⊢
      rw [List.dropWhile_cons_of_pos (by simpa using hx), ih,
        List.dropWhile_cons_of_pos (by simpa using hxhi)]
    · unfold expire
      rw [List.dropWhile_cons_of_neg (by simpa using hx)]

/-- The window is a run of the stream that ends where the stream ends. -/
theorem slide_suffix (xs : List α) : slide key edge xs <:+ xs := by
  induction xs using List.reverseRecOn with
  | nil => exact List.suffix_rfl
  | append_singleton xs x ih =>
    rw [slide_snoc]
    have hgone : expire key (edge x) (slide key edge xs ++ [x]) <:+ slide key edge xs ++ [x] :=
      List.dropWhile_suffix _
    obtain ⟨gone, hxs⟩ := ih
    refine hgone.trans ⟨gone, ?_⟩
    rw [← List.append_assoc, hxs]

/-- An element that does not lie below its own edge stands last in the window. -/
theorem slide_getLast? (xs : List α) {x : α} (hx : edge x ≤ key x) :
    (slide key edge (xs ++ [x])).getLast? = some x := by
  have hkeep : expire key (edge x) [x] = [x] := by simp [expire, hx]
  rw [slide_snoc, expire_append, hkeep]
  split <;> simp

/-- The edges so far take nothing that a bound above them all would leave. -/
theorem expire_slide {lo : β} {xs : List α} (h : ∀ x ∈ xs, edge x ≤ lo) :
    expire key lo (slide key edge xs) = expire key lo xs := by
  induction xs using List.reverseRecOn with
  | nil => rfl
  | append_singleton xs x ih =>
    have hx : edge x ≤ lo := h x (by simp)
    rw [slide_snoc, expire_expire hx, expire_append, expire_append,
      ih (fun y hy => h y (by simp [hy]))]

/-- A lower bound finds nothing to take after a higher one. -/
theorem expire_of_le {lo hi : β} (h : lo ≤ hi) (xs : List α) :
    expire key lo (expire key hi xs) = expire key hi xs := by
  induction xs with
  | nil => rfl
  | cons x xs ih =>
    by_cases hx : key x < hi
    · unfold expire at ih ⊢
      rw [List.dropWhile_cons_of_pos (p := fun x => decide (key x < hi)) (by simpa using hx), ih]
    · have hxlo : ¬ key x < lo := fun hlt => hx (lt_of_lt_of_le hlt h)
      unfold expire
      rw [List.dropWhile_cons_of_neg (p := fun x => decide (key x < hi)) (by simpa using hx),
        List.dropWhile_cons_of_neg (by simpa using hxlo)]

theorem expire_ne_nil {lo : β} {xs : List α} {x : α} (hx : x ∈ xs) (h : lo ≤ key x) :
    expire key lo xs ≠ [] := by
  intro hnil
  have hlt := List.dropWhile_eq_nil_iff.mp hnil x hx
  simp [not_lt.mpr h] at hlt

/-- In any order, the window is what the highest edge leaves of the stream. -/
theorem slide_eq_expire {lo : β} {xs : List α} (hself : ∀ x ∈ xs, edge x ≤ key x)
    (hle : ∀ x ∈ xs, edge x ≤ lo) (hlo : ∃ x ∈ xs, edge x = lo) :
    slide key edge xs = expire key lo xs := by
  induction xs using List.reverseRecOn with
  | nil => simp at hlo
  | append_singleton xs x ih =>
    have hle' : ∀ y ∈ xs, edge y ≤ lo := fun y hy => hle y (by simp [hy])
    rw [slide_snoc, expire_append]
    by_cases hx : edge x = lo
    · rw [hx, expire_slide hle', expire_append]
    · -- The highest edge came before: it left its own element, so nothing is looked at here.
      obtain ⟨y, hy, hylo⟩ : ∃ y ∈ xs, edge y = lo := by
        obtain ⟨y, hy, hylo⟩ := hlo
        rcases List.mem_append.mp hy with hy | hy
        · exact ⟨y, hy, hylo⟩
        · exact absurd (List.mem_singleton.mp hy ▸ hylo) hx
      have hne : expire key lo xs ≠ [] :=
        expire_ne_nil hy (hylo ▸ hself y (by simp [hy]))
      rw [ih (fun z hz => hself z (by simp [hz])) hle' ⟨y, hy, hylo⟩,
        expire_of_le (hle x (by simp)), if_neg hne, expire_append, if_neg hne]

/-- What is left lies above the bound just when no element below it stands behind one above. -/
theorem expire_all_iff (lo : β) (xs : List α) :
    (∀ x ∈ expire key lo xs, lo ≤ key x) ↔
      xs.Pairwise (fun x y => key y < lo → key x < lo) := by
  induction xs with
  | nil => simp [expire]
  | cons x xs ih =>
    rw [List.pairwise_cons]
    by_cases hx : key x < lo
    · have hdrop : expire key lo (x :: xs) = expire key lo xs := by simp [expire, hx]
      rw [hdrop, ih]
      exact ⟨fun h => ⟨fun _ _ _ => hx, h⟩, fun h => h.2⟩
    · have hkeep : expire key lo (x :: xs) = x :: xs := by simp [expire, hx]
      rw [hkeep]
      constructor
      · intro h
        have hxs : ∀ y ∈ xs, lo ≤ key y := fun y hy => h y (by simp [hy])
        refine ⟨fun y hy hlt => absurd hlt (not_lt.mpr (hxs y hy)), ?_⟩
        exact List.pairwise_of_forall_mem_list
          (fun y _ z hz hlt => absurd hlt (not_lt.mpr (hxs z hz)))
      · rintro ⟨hall, -⟩ y hy
        rcases List.mem_cons.mp hy with rfl | hy
        · exact not_lt.mp hx
        · exact not_lt.mp (fun hlt => hx (hall y hy hlt))

/-! ## In order -/

/-- In order, what goes is all that lies below. -/
theorem expire_ordered {xs : List α} (h : xs.Pairwise (fun x y => key x ≤ key y)) (lo : β) :
    expire key lo xs = xs.filter (fun x => lo ≤ key x) := by
  unfold expire
  induction xs with
  | nil => rfl
  | cons x xs ih =>
    obtain ⟨hx, hxs⟩ := List.pairwise_cons.mp h
    rcases lt_or_ge (key x) lo with hlt | hge
    · rw [List.dropWhile_cons_of_pos (by simpa using hlt), ih hxs,
        List.filter_cons_of_neg (by simpa using hlt)]
    · have hall : ∀ y ∈ x :: xs, lo ≤ key y := by
        intro y hy
        rcases List.mem_cons.mp hy with rfl | hy
        · exact hge
        · exact le_trans hge (hx y hy)
      rw [List.dropWhile_cons_of_neg (by simpa using hge),
        List.filter_eq_self.mpr (fun y hy => by simpa using hall y hy)]

/-- On a stream in order, whose edges are then in order too, the window is what lies
above the last edge. -/
theorem slide_ordered (hedge : ∀ x y, key x ≤ key y → edge x ≤ edge y) {xs : List α} {x : α}
    (h : (xs ++ [x]).Pairwise (fun a b => key a ≤ key b)) :
    slide key edge (xs ++ [x]) = (xs ++ [x]).filter (fun y => edge x ≤ key y) := by
  induction xs using List.reverseRecOn generalizing x with
  | nil => exact expire_ordered h (edge x)
  | append_singleton xs u ih =>
    obtain ⟨hxs, -, hlast⟩ := List.pairwise_append.mp h
    have hux : edge u ≤ edge x := hedge u x (hlast u (by simp) x (by simp))
    -- What an earlier edge took would go now as well.
    have hwin : slide key edge (xs ++ [u]) ++ [x] =
        (xs ++ [u]).filter (fun y => edge u ≤ key y) ++ [x] := by rw [ih hxs]
    have hsub : ((xs ++ [u]).filter (fun y => edge u ≤ key y) ++ [x]).Sublist (xs ++ [u] ++ [x]) :=
      List.filter_sublist.append_right [x]
    rw [slide_snoc, hwin, expire_ordered (h.sublist hsub), List.filter_append _ [x],
      List.filter_filter, List.filter_append (xs ++ [u])]
    congr 1
    refine List.filter_congr (fun y _ => ?_)
    simpa using fun hy : edge x ≤ key y => le_trans hux hy

end sliding_window
