-- Lists as bags of items: a step that moves items from one place to another keeps
-- the whole bag, and so does a sort of its items by a key.
import Mathlib.Data.List.ReduceOption
import Mathlib.Data.List.Perm.Basic

namespace bags

variable {α κ : Type*}

theorem append_swap (xs ys zs : List α) : (xs ++ ys ++ zs).Perm (xs ++ zs ++ ys) := by
  rw [List.append_assoc, List.append_assoc]
  exact List.perm_append_comm.append_left xs

/-- What is held moves on: the whole stays what came in. -/
theorem perm_of_move {held held' out into rest all : List α}
    (hmove : (held' ++ out).Perm (held ++ into)) (hall : (held ++ rest).Perm all) :
    (held' ++ (rest ++ out)).Perm (all ++ into) := by
  rw [← List.append_assoc]
  calc List.Perm (held' ++ rest ++ out) (held' ++ out ++ rest) := append_swap _ _ _
    List.Perm _ (held ++ into ++ rest) := hmove.append_right rest
    List.Perm _ (held ++ rest ++ into) := append_swap _ _ _
    List.Perm _ (all ++ into) := hall.append_right into

/-- Two parts that a test tells apart are what the test makes of the whole. -/
theorem perm_filter_of_split {test : α → Bool} {xs ys all : List α} (hall : (xs ++ ys).Perm all)
    (hxs : ∀ x ∈ xs, test x = true) (hys : ∀ y ∈ ys, test y = false) :
    xs.Perm (all.filter test) ∧ ys.Perm (all.filter (fun a => !test a)) := by
  have hin := hall.filter test
  have hout := hall.filter (fun a => !test a)
  rw [List.filter_append, List.filter_eq_self.mpr hxs,
    List.filter_eq_nil_iff.mpr (fun y hy => by simp [hys y hy]), List.append_nil] at hin
  rw [List.filter_append, List.filter_eq_nil_iff.mpr (fun x hx => by simp [hxs x hx]),
    List.filter_eq_self.mpr (fun y hy => by simp [hys y hy]), List.nil_append] at hout
  exact ⟨hin, hout⟩

/-- A write into a slot puts one item in, and one out. -/
theorem reduceOption_set_perm (slots : List (Option α)) (i : Nat) (x : Option α)
    (h : i < slots.length) :
    ((slots.set i x).reduceOption ++ slots[i].toList).Perm (slots.reduceOption ++ x.toList) := by
  have hcons : ∀ (y : Option α) (rest : List (Option α)),
      (y :: rest).reduceOption.Perm (rest.reduceOption ++ y.toList) := by
    intro y rest
    cases y with
    | none => simp
    | some y => simpa using List.perm_append_singleton y rest.reduceOption |>.symm
  induction slots generalizing i with
  | nil => simp at h
  | cons y rest ih =>
    cases i with
    | zero =>
      rw [List.set_cons_zero, List.getElem_cons_zero]
      calc List.Perm ((x :: rest).reduceOption ++ y.toList)
            (rest.reduceOption ++ x.toList ++ y.toList) := (hcons x rest).append_right _
        List.Perm _ (rest.reduceOption ++ y.toList ++ x.toList) := append_swap _ _ _
        List.Perm _ ((y :: rest).reduceOption ++ x.toList) := (hcons y rest).symm.append_right _
    | succ i =>
      rw [List.set_cons_succ, List.getElem_cons_succ]
      have hi : i < rest.length := by simpa using h
      have hrest := (ih i hi).append_right y.toList
      calc List.Perm ((y :: rest.set i x).reduceOption ++ rest[i].toList)
            ((rest.set i x).reduceOption ++ y.toList ++ rest[i].toList) :=
              (hcons y _).append_right _
        List.Perm _ ((rest.set i x).reduceOption ++ rest[i].toList ++ y.toList) :=
          append_swap _ _ _
        List.Perm _ (rest.reduceOption ++ x.toList ++ y.toList) := hrest
        List.Perm _ (rest.reduceOption ++ y.toList ++ x.toList) := append_swap _ _ _
        List.Perm _ ((y :: rest).reduceOption ++ x.toList) := (hcons y rest).symm.append_right _

/-- Many places, of which one moves items. -/
theorem flatMap_perm_of_one [DecidableEq κ] {places : List κ} (hnodup : places.Nodup)
    {before after : κ → List α} {k : κ} (hk : k ∈ places) {out into : List α}
    (hone : (after k ++ out).Perm (before k ++ into)) (hother : ∀ j, j ≠ k → after j = before j) :
    (places.flatMap after ++ out).Perm (places.flatMap before ++ into) := by
  have hrest : (places.erase k).flatMap after = (places.erase k).flatMap before := by
    apply List.flatMap_congr
    intro j hj
    exact hother j (hnodup.mem_erase_iff.mp hj).1
  have hsplit : ∀ f : κ → List α, (places.flatMap f).Perm (f k ++ (places.erase k).flatMap f) :=
    fun f => (List.perm_cons_erase hk).flatMap_right f
  calc List.Perm (places.flatMap after ++ out) (after k ++ (places.erase k).flatMap after ++ out) :=
        (hsplit after).append_right _
    List.Perm _ (after k ++ out ++ (places.erase k).flatMap after) := append_swap _ _ _
    List.Perm _ (before k ++ into ++ (places.erase k).flatMap before) := by
      rw [hrest]
      exact hone.append_right _
    List.Perm _ (before k ++ (places.erase k).flatMap before ++ into) := append_swap _ _ _
    List.Perm _ (places.flatMap before ++ into) := (hsplit before).symm.append_right _

/-- Items sorted by a key are the same items. -/
theorem flatMap_keys_perm [DecidableEq κ] (key : α → κ) {keys : List κ} (hnodup : keys.Nodup)
    {items : List α} (h : ∀ x ∈ items, key x ∈ keys) :
    (keys.flatMap (fun k => items.filter (fun x => key x = k))).Perm items := by
  induction keys generalizing items with
  | nil =>
    rcases items with _ | ⟨x, items⟩
    · rfl
    · exact absurd (h x (by simp)) (by simp)
  | cons k keys ih =>
    obtain ⟨hk, hkeys⟩ := List.nodup_cons.mp hnodup
    have hrest : ∀ x ∈ items.filter (fun x => !decide (key x = k)), key x ∈ keys := by
      intro x hx
      obtain ⟨hmem, hne⟩ := List.mem_filter.mp hx
      exact (List.mem_cons.mp (h x hmem)).resolve_left (by simpa using hne)
    have hsame : keys.flatMap (fun j => items.filter (fun x => key x = j)) =
        keys.flatMap (fun j => (items.filter (fun x => !decide (key x = k))).filter
          (fun x => key x = j)) := by
      apply List.flatMap_congr
      intro j hj
      rw [List.filter_filter]
      apply List.filter_congr
      intro x _
      by_cases hx : key x = j
      · have hne : j ≠ k := fun he => hk (he ▸ hj)
        simp [hx, hne]
      · simp [hx]
    rw [List.flatMap_cons, hsame]
    exact ((ih hkeys hrest).append_left _).trans (List.filter_append_perm _ items)

end bags
