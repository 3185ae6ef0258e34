-- The strict running maxima of a list: the elements that are greater than every
-- element before them. And the last `n` elements of a list that grows, as a
-- bounded deque keeps them.
import Mathlib.Data.List.Induction
import Mathlib.Data.List.DropRight
import Mathlib.Order.Lattice

namespace strict_maxima

variable {κ : Type*} [LinearOrder κ]

/-- One turn: an element above the last maximum is a new maximum. -/
def pushMax (maxima : List κ) (x : κ) : List κ :=
  match maxima.getLast? with
  | none => maxima ++ [x]
  | some m => if m < x then maxima ++ [x] else maxima

def strictMaxima (l : List κ) : List κ := l.foldl pushMax []

@[simp] theorem strictMaxima_nil : strictMaxima ([] : List κ) = [] := rfl

theorem strictMaxima_snoc (l : List κ) (x : κ) :
    strictMaxima (l ++ [x]) = pushMax (strictMaxima l) x := by
  simp [strictMaxima]

theorem pushMax_of_lt {maxima : List κ} {m x : κ} (h : maxima.getLast? = some m) (hx : m < x) :
    pushMax maxima x = maxima ++ [x] := by
  simp [pushMax, h, hx]

theorem pushMax_of_le {maxima : List κ} {m x : κ} (h : maxima.getLast? = some m) (hx : x ≤ m) :
    pushMax maxima x = maxima := by
  simp [pushMax, h, not_lt.mpr hx]

/-- What stands before the last element is below it. -/
theorem lt_of_mem_dropLast {l : List κ} {m x : κ} (hs : l.Pairwise (· < ·))
    (hm : l.getLast? = some m) (hx : x ∈ l.dropLast) : x < m := by
  have hl := List.dropLast_append_getLast? m hm
  rw [← hl, List.pairwise_append] at hs
  exact hs.2.2 x hx m (by simp)

theorem le_of_mem_of_getLast? {l : List κ} {m x : κ} (hs : l.Pairwise (· < ·))
    (hm : l.getLast? = some m) (hx : x ∈ l) : x ≤ m := by
  have hl := List.dropLast_append_getLast? m hm
  rw [← hl, List.mem_append, List.mem_singleton] at hx
  rcases hx with hx | rfl
  · exact (lt_of_mem_dropLast hs hm hx).le
  · exact le_rfl

theorem strictMaxima_sorted (l : List κ) : (strictMaxima l).Pairwise (· < ·) := by
  induction l using List.reverseRecOn with
  | nil => simp
  | append_singleton l x ih =>
    rw [strictMaxima_snoc]
    rcases hm : (strictMaxima l).getLast? with _ | m
    · rw [List.getLast?_eq_none_iff.mp hm]
      simp [pushMax]
    · rcases lt_or_ge m x with hx | hx
      · rw [pushMax_of_lt hm hx, List.pairwise_append]
        refine ⟨ih, List.pairwise_singleton _ _, ?_⟩
        intro a ha b hb
        rw [List.mem_singleton.mp hb]
        exact (le_of_mem_of_getLast? ih hm ha).trans_lt hx
      · rw [pushMax_of_le hm hx]
        exact ih

theorem mem_of_mem_strictMaxima (l : List κ) : ∀ x ∈ strictMaxima l, x ∈ l := by
  induction l using List.reverseRecOn with
  | nil => simp
  | append_singleton l y ih =>
    intro x hx
    rw [strictMaxima_snoc] at hx
    unfold pushMax at hx
    rw [List.mem_append]
    split at hx
    · rcases List.mem_append.mp hx with hx | hx
      · exact Or.inl (ih x hx)
      · exact Or.inr hx
    · split at hx
      · rcases List.mem_append.mp hx with hx | hx
        · exact Or.inl (ih x hx)
        · exact Or.inr hx
      · exact Or.inl (ih x hx)

/-- The last strict maximum is a bound of the whole list. -/
theorem le_getLast?_strictMaxima {l : List κ} {m : κ} (hm : (strictMaxima l).getLast? = some m) :
    ∀ x ∈ l, x ≤ m := by
  induction l using List.reverseRecOn generalizing m with
  | nil => simp
  | append_singleton l y ih =>
    intro x hx
    rw [strictMaxima_snoc] at hm
    rcases hm' : (strictMaxima l).getLast? with _ | m'
    · have hnil : l = [] := by
        rcases l.eq_nil_or_concat with h | ⟨l', z, rfl⟩
        · exact h
        · exfalso
          rw [List.getLast?_eq_none_iff, List.concat_eq_append, strictMaxima_snoc] at hm'
          unfold pushMax at hm'
          split at hm'
          · simp at hm'
          · split at hm' <;> simp_all
      subst hnil
      simp only [strictMaxima_nil, pushMax, List.getLast?_nil, List.nil_append,
        List.getLast?_singleton, Option.some.injEq] at hm
      simp only [List.nil_append, List.mem_singleton] at hx
      rw [hx, hm]
    · rcases lt_or_ge m' y with hy | hy
      · rw [pushMax_of_lt hm' hy, List.getLast?_concat, Option.some.injEq] at hm
        subst hm
        rcases List.mem_append.mp hx with hx | hx
        · exact (ih hm' x hx).trans hy.le
        · exact (List.mem_singleton.mp hx).le
      · rw [pushMax_of_le hm' hy, hm', Option.some.injEq] at hm
        subst hm
        rcases List.mem_append.mp hx with hx | hx
        · exact ih hm' x hx
        · exact (List.mem_singleton.mp hx) ▸ hy

theorem strictMaxima_eq_nil_iff {l : List κ} : strictMaxima l = [] ↔ l = [] := by
  constructor
  · intro h
    rcases l.eq_nil_or_concat with hl | ⟨l, x, rfl⟩
    · exact hl
    · exfalso
      rw [List.concat_eq_append, strictMaxima_snoc] at h
      rcases hm : (strictMaxima l).getLast? with _ | m
      · simp [pushMax, hm] at h
      · rcases lt_or_ge m x with hx | hx
        · simp [pushMax_of_lt hm hx] at h
        · rw [pushMax_of_le hm hx] at h
          simp [h] at hm
  · rintro rfl
    rfl

/-- One more item leaves the groups of smaller keys as they were. -/
theorem flatMap_groups_below {α : Type*} (key : α → κ) (l : List α) {x : α} {ms : List κ}
    (h : ∀ m ∈ ms, m < key x) :
    ms.flatMap (fun m => (l ++ [x]).filter (fun y => key y = m)) =
      ms.flatMap (fun m => l.filter (fun y => key y = m)) := by
  apply List.flatMap_congr
  intro m hm
  simp [List.filter_append, (h m hm).ne']

/-- On keys that never fall, the strict maxima are all the keys, and the list is made of their
groups, one after the other. -/
theorem flatMap_groups {α : Type*} (key : α → κ) (l : List α)
    (hsorted : l.Pairwise (fun x y => key x ≤ key y)) :
    (strictMaxima (l.map key)).flatMap (fun m => l.filter (fun x => key x = m)) = l := by
  induction l using List.reverseRecOn with
  | nil => rfl
  | append_singleton l x ih =>
    obtain ⟨hl, -, hx⟩ := List.pairwise_append.mp hsorted
    have hprev := ih hl
    rw [List.map_append, List.map_singleton, strictMaxima_snoc]
    rcases hm : (strictMaxima (l.map key)).getLast? with _ | m
    · have hnil : l = [] := by
        have := strictMaxima_eq_nil_iff.mp (List.getLast?_eq_none_iff.mp hm)
        exact List.map_eq_nil_iff.mp this
      subst hnil
      simp [pushMax]
    · have hmax := le_getLast?_strictMaxima hm
      have hsplit := List.dropLast_append_getLast? m hm
      obtain ⟨y, hy, hym⟩ := List.mem_map.mp (mem_of_mem_strictMaxima _ m (List.mem_of_getLast? hm))
      have hle : m ≤ key x := hym ▸ hx y hy x (by simp)
      rcases hle.lt_or_eq with hlt | heq
      · have hnone : l.filter (fun y => key y = key x) = [] := by
          rw [List.filter_eq_nil_iff]
          intro y hy hyx
          have := hmax (key y) (List.mem_map_of_mem hy)
          rw [of_decide_eq_true hyx] at this
          exact absurd hlt (not_lt.mpr this)
        rw [pushMax_of_lt hm hlt, List.flatMap_append, List.flatMap_singleton,
          flatMap_groups_below key l, hprev, List.filter_append, hnone]
        · simp
        · intro a ha
          exact (le_of_mem_of_getLast? (strictMaxima_sorted _) hm ha).trans_lt hlt
      · rw [pushMax_of_le hm heq.ge, ← hsplit, List.flatMap_append, List.flatMap_singleton,
          flatMap_groups_below key l, List.filter_append, ← List.append_assoc]
        · rw [← hsplit, List.flatMap_append, List.flatMap_singleton] at hprev
          rw [hprev]
          simp [heq]
        · intro a ha
          exact heq ▸ lt_of_mem_dropLast (strictMaxima_sorted _) hm ha

end strict_maxima

namespace last_n

variable {α : Type*}

/-- A bounded deque that takes one more element keeps the last `n` of the whole list. -/
theorem rtake_rtake_concat (n : Nat) (l : List α) (x : α) :
    (l.rtake n ++ [x]).rtake n = (l ++ [x]).rtake n := by
  cases n with
  | zero => simp [List.rtake_zero]
  | succ n =>
    rw [List.rtake_concat_succ, List.rtake_concat_succ]
    simp only [List.rtake_eq_reverse_take_reverse, List.reverse_reverse, List.take_take]
    simp

theorem rtake_map {β : Type*} (f : α → β) (n : Nat) (l : List α) :
    (l.map f).rtake n = (l.rtake n).map f := by
  simp [List.rtake, List.map_drop]

theorem rtake_of_length_le {n : Nat} {l : List α} (h : l.length ≤ n) : l.rtake n = l := by
  simp [List.rtake, Nat.sub_eq_zero_of_le h]

theorem rtake_sublist (n : Nat) (l : List α) : (l.rtake n).Sublist l := List.drop_sublist _ _

end last_n
