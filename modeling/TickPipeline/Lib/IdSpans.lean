-- Ids that come one by one, in any order and perhaps twice. Between the first
-- and the largest of them every id is one of three: it never came, or it was
-- greater than all before it when it first came, or a larger one came first.
-- Who remembers the largest id only can count the ids of the second kind, and
-- so takes those of the third for missing.
import Mathlib.Data.Finset.Card
import Mathlib.Data.Finset.Range
import Mathlib.Algebra.Order.Group.Unbundled.Int
import Mathlib.Data.List.Induction
import Mathlib.Data.List.TakeWhile

namespace id_spans

/-! ## Elements judged by those before them -/

section past

variable {α : Type*}

/-- How many elements stand to those before them as `f` says. -/
def countByPast (f : List α → α → Bool) (xs : List α) : Nat :=
  xs.zipIdx.countP (fun p => f (xs.take p.2) p.1)

@[simp] theorem countByPast_nil (f : List α → α → Bool) : countByPast f [] = 0 := rfl

theorem countByPast_snoc (f : List α → α → Bool) (xs : List α) (x : α) :
    countByPast f (xs ++ [x]) = countByPast f xs + if f xs x then 1 else 0 := by
  -- An element already there has the same past as before.
  have hsame : xs.zipIdx.countP (fun p => f ((xs ++ [x]).take p.2) p.1) = countByPast f xs := by
    apply List.countP_congr
    intro p hp
    have hlt := (List.mem_zipIdx' hp).1
    rw [List.take_append_of_le_length (by omega)]
  unfold countByPast
  rw [List.zipIdx_append, List.countP_append, hsame]
  simp [countByPast]

end past

/-! ## The span of a sequence of ids -/

/-- How many ids there are from the first one to the largest. -/
def span (ids : List Int) : Int :=
  match ids.head?, ids.max? with
  | some x, some m => m - x + 1
  | _, _ => 0

/-- What came before `k` first came. -/
def before (ids : List Int) (k : Int) : List Int := ids.takeWhile (fun j => j ≠ k)

/-- How many ids were greater than all before them. -/
def records (ids : List Int) : Nat := countByPast (fun past k => past.all (· < k)) ids

/-- The ids from the first one to the largest. -/
def between (ids : List Int) : Finset Int :=
  match ids.head?, ids.max? with
  | some x, some m => (Finset.range (m + 1 - x).toNat).image (fun n : Nat => x + n)
  | _, _ => ∅

/-- The ids in between that never came. -/
def missing (ids : List Int) : Finset Int := (between ids).filter (fun k => k ∉ ids)

/-- The ids in between that came, but not before a larger one had. -/
def overtaken (ids : List Int) : Finset Int :=
  (between ids).filter (fun k => k ∈ ids ∧ ∃ j ∈ before ids k, k < j)

/-- The ids that were greater than all before them when they first came. -/
def leading (ids : List Int) : Finset Int :=
  ids.toFinset.filter (fun k => ∀ j ∈ before ids k, j < k)

theorem max?_snoc (ids : List Int) (k : Int) :
    (ids ++ [k]).max? = some (match ids.max? with | none => k | some m => max m k) := by
  rw [List.max?_eq_some_iff]
  rcases hm : ids.max? with _ | m
  · obtain rfl := List.max?_eq_none_iff.mp hm
    simp
  · obtain ⟨hmem, hle⟩ := List.max?_eq_some_iff.mp hm
    constructor
    · rcases max_choice m k with h | h <;> simp [h, hmem]
    · intro j hj
      rcases List.mem_append.mp hj with hj | hj
      · exact le_max_of_le_left (hle j hj)
      · simp [List.mem_singleton.mp hj]

theorem records_snoc (ids : List Int) (k : Int) :
    records (ids ++ [k]) =
      records ids + (match ids.max? with | none => 1 | some m => if m < k then 1 else 0) := by
  unfold records
  rw [countByPast_snoc]
  congr 1
  rcases hm : ids.max? with _ | m
  · obtain rfl := List.max?_eq_none_iff.mp hm
    simp
  · obtain ⟨hmem, hle⟩ := List.max?_eq_some_iff.mp hm
    by_cases hk : m < k
    · have hall : ∀ j ∈ ids, j < k := fun j hj => lt_of_le_of_lt (hle j hj) hk
      simp [hk, List.all_eq_true.mpr (fun j hj => decide_eq_true (hall j hj))]
    · have hnot : ¬ ∀ j ∈ ids, j < k := fun hall => hk (hall m hmem)
      simp [hk, hnot]

theorem span_snoc {ids : List Int} {m : Int} (hm : ids.max? = some m) (k : Int) :
    span (ids ++ [k]) = span ids + if m < k then k - m else 0 := by
  unfold span
  rw [max?_snoc, hm]
  cases ids with
  | nil => simp at hm
  | cons x ids =>
    simp only [List.cons_append, List.head?_cons]
    split <;> omega

/-- An id moves what the span leaves out over the records only when it jumps past the largest. -/
theorem span_sub_records_snoc (ids : List Int) (k : Int) :
    span (ids ++ [k]) - records (ids ++ [k]) = span ids - records ids +
      (match ids.max? with | none => 0 | some m => if k > m + 1 then k - m - 1 else 0) := by
  rw [records_snoc]
  rcases hm : ids.max? with _ | m
  · obtain rfl := List.max?_eq_none_iff.mp hm
    simp [span, records]
  · rw [span_snoc hm]
    push_cast
    split <;> split <;> omega

/-! ## The three kinds -/

theorem before_snoc_of_mem {ids : List Int} {k : Int} (hk : k ∈ ids) (j : Int) :
    before (ids ++ [j]) k = before ids k := by
  induction ids with
  | nil => simp at hk
  | cons i ids ih =>
    unfold before at ih ⊢
    by_cases hik : i = k
    · simp [hik]
    · have hk' : k ∈ ids := by simpa [Ne.symm hik] using hk
      rw [List.cons_append, List.takeWhile_cons_of_pos (by simpa using hik),
        List.takeWhile_cons_of_pos (by simpa using hik), ih hk']

theorem ne_of_mem_before {ids : List Int} {j k : Int} (hj : j ∈ before ids k) : j ≠ k := by
  simpa using List.mem_takeWhile_imp hj

theorem before_snoc_self {ids : List Int} {k : Int} (hk : k ∉ ids) :
    before (ids ++ [k]) k = ids := by
  have hids : ∀ j ∈ ids, decide (j ≠ k) = true := by
    intro j hj
    simpa using ne_of_mem_of_not_mem hj hk
  unfold before
  rw [List.takeWhile_append_of_pos hids]
  simp

theorem mem_leading {ids : List Int} {k : Int} :
    k ∈ leading ids ↔ k ∈ ids ∧ ∀ j ∈ before ids k, j < k := by
  simp [leading]

/-- An id leads from then on, when it is greater than all before it. -/
theorem mem_leading_snoc (ids : List Int) (j k : Int) :
    k ∈ leading (ids ++ [j]) ↔ k ∈ leading ids ∨ (k = j ∧ ∀ i ∈ ids, i < j) := by
  rw [mem_leading, mem_leading]
  by_cases hk : k ∈ ids
  · have hnot : ¬ (k = j ∧ ∀ i ∈ ids, i < j) := by
      rintro ⟨rfl, hall⟩
      exact lt_irrefl k (hall k hk)
    simp [hk, hnot, before_snoc_of_mem hk]
  · by_cases hkj : k = j
    · subst hkj
      simp [hk, before_snoc_self hk]
    · simp [hk, hkj]

theorem records_eq_card (ids : List Int) : records ids = (leading ids).card := by
  induction ids using List.reverseRecOn with
  | nil => rfl
  | append_singleton ids k ih =>
    have hrec : records (ids ++ [k]) = records ids + if ids.all (· < k) then 1 else 0 :=
      countByPast_snoc _ _ _
    rw [hrec, ih]
    by_cases hall : ∀ i ∈ ids, i < k
    · have hnew : leading (ids ++ [k]) = insert k (leading ids) := by
        ext j
        rw [mem_leading_snoc, Finset.mem_insert, and_iff_left hall, or_comm]
      have hnot : k ∉ leading ids := fun hk => lt_irrefl k (hall k (mem_leading.mp hk).1)
      rw [hnew, Finset.card_insert_of_notMem hnot,
        if_pos (List.all_eq_true.mpr (fun j hj => decide_eq_true (hall j hj)))]
    · have hsame : leading (ids ++ [k]) = leading ids := by
        ext j
        simp [mem_leading_snoc, hall]
      rw [hsame, if_neg (by simpa using hall), Nat.add_zero]

theorem mem_between {ids : List Int} {x m : Int} (hx : ids.head? = some x) (hm : ids.max? = some m)
    (k : Int) : k ∈ between ids ↔ x ≤ k ∧ k ≤ m := by
  unfold between
  rw [hx, hm]
  simp only [Finset.mem_image, Finset.mem_range]
  constructor
  · rintro ⟨n, hn, rfl⟩
    omega
  · rintro ⟨hxk, hkm⟩
    exact ⟨(k - x).toNat, by omega, by omega⟩

/-- What comes lies in between, unless it is below the first. -/
theorem leading_subset (ids : List Int) : leading ids ⊆ between ids := by
  intro k hk
  obtain ⟨hmem, hlead⟩ := mem_leading.mp hk
  cases ids with
  | nil => simp at hmem
  | cons x ids =>
    rcases hm : (x :: ids).max? with _ | m
    · simp at hm
    · have hkm := (List.max?_eq_some_iff.mp hm).2 k hmem
      have hxk : x ≤ k := by
        by_cases h : x = k
        · exact h.le
        · exact (hlead x (by simp [before, h])).le
      exact (mem_between rfl hm k).mpr ⟨hxk, hkm⟩

/-- In between, every id is missing, overtaken or leading, and one of these only. -/
theorem card_between (ids : List Int) :
    (between ids).card = (missing ids).card + (overtaken ids).card + (leading ids).card := by
  have hsplit := Finset.card_filter_add_card_filter_not (s := between ids) (fun k => k ∉ ids)
  have hcame := Finset.card_filter_add_card_filter_not
    (s := (between ids).filter (fun k => ¬ k ∉ ids)) (fun k => ∃ j ∈ before ids k, k < j)
  have hover : ((between ids).filter (fun k => ¬ k ∉ ids)).filter
      (fun k => ∃ j ∈ before ids k, k < j) = overtaken ids := by
    rw [Finset.filter_filter]
    unfold overtaken
    congr 1
    ext k
    simp
  have hlead : ((between ids).filter (fun k => ¬ k ∉ ids)).filter
      (fun k => ¬ ∃ j ∈ before ids k, k < j) = leading ids := by
    ext k
    have hlead : (¬ ∃ j ∈ before ids k, k < j) ↔ ∀ j ∈ before ids k, j < k := by
      constructor
      · intro h j hj
        exact lt_of_le_of_ne (not_lt.mp fun hlt => h ⟨j, hj, hlt⟩) (ne_of_mem_before hj)
      · rintro h ⟨j, hj, hlt⟩
        exact lt_asymm hlt (h j hj)
    rw [Finset.mem_filter, Finset.mem_filter, hlead, not_not, mem_leading]
    constructor
    · rintro ⟨⟨-, hk⟩, hall⟩
      exact ⟨hk, hall⟩
    · intro hk
      exact ⟨⟨leading_subset ids (mem_leading.mpr hk), hk.1⟩, hk.2⟩
  rw [hover, hlead] at hcame
  unfold missing
  omega

theorem span_eq (ids : List Int) :
    span ids = (missing ids).card + (overtaken ids).card + records ids := by
  have hspan : span ids = (between ids).card := by
    unfold span between
    cases ids with
    | nil => rfl
    | cons x ids =>
      rcases hm : (x :: ids).max? with _ | m
      · simp at hm
      · have hxm := (List.max?_eq_some_iff.mp hm).2 x (by simp)
        have hinj : Function.Injective (fun n : Nat => x + (n : Int)) := by
          intro a b hab
          dsimp only at hab
          omega
        simp only [List.head?_cons]
        rw [Finset.card_image_of_injective _ hinj, Finset.card_range]
        omega
  rw [hspan, card_between, records_eq_card]
  push_cast
  rfl

/-- No id is overtaken, when each above the first comes before all larger ones. -/
theorem overtaken_eq_empty_iff (ids : List Int) :
    overtaken ids = ∅ ↔ ∀ x ∈ ids.head?, ∀ k ∈ ids, x < k → ∀ j ∈ before ids k, j < k := by
  cases ids with
  | nil => simp [overtaken]
  | cons x ids =>
    rcases hm : (x :: ids).max? with _ | m
    · simp at hm
    · have hle := (List.max?_eq_some_iff.mp hm).2
      unfold overtaken
      rw [Finset.filter_eq_empty_iff]
      simp only [List.head?_cons, Option.mem_some_iff, forall_eq', mem_between rfl hm]
      constructor
      · intro h k hk hxk j hj
        have hjk : j ≠ k := ne_of_mem_before hj
        have hnot : ¬ k < j := fun hlt => h ⟨hxk.le, hle k hk⟩ ⟨hk, j, hj, hlt⟩
        exact lt_of_le_of_ne (not_lt.mp hnot) hjk
      · rintro h k ⟨hxk, -⟩ ⟨hk, j, hj, hlt⟩
        rcases hxk.lt_or_eq with hxk | rfl
        · exact lt_asymm hlt (h k hk hxk j hj)
        · simp [before] at hj

end id_spans
