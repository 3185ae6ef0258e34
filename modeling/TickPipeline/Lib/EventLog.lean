-- Logs of events: what each event finds in the log before it, and what a reader
-- holds who keeps the last event of each key.
import Mathlib.Data.List.Induction
import Mathlib.Data.List.Basic

namespace event_log

variable {β κ : Type*}

/-- Each event of the log meets `P` with the events before it. -/
def Causal (P : List β → β → Prop) (log : List β) : Prop :=
  ∀ before e after, log = before ++ e :: after → P before e

theorem causal_nil (P : List β → β → Prop) : Causal P [] := by
  intro before e after h
  simp at h

/-- The rule for a log that grows at its end. -/
theorem causal_snoc {P : List β → β → Prop} {log : List β} {e : β} (h : Causal P log)
    (he : P log e) : Causal P (log ++ [e]) := by
  intro before d after heq
  rcases after.eq_nil_or_concat with rfl | ⟨after', d', rfl⟩
  · obtain ⟨h1, h2⟩ := List.append_inj' heq rfl
    obtain rfl : e = d := by simpa using h2
    exact h1 ▸ he
  · apply h before d after'
    rw [List.concat_eq_append, ← List.cons_append, ← List.append_assoc] at heq
    exact (List.append_inj' heq rfl).1

/-- The same for a block of events at the end. -/
theorem causal_append {P : List β → β → Prop} {log block : List β} (h : Causal P log)
    (hblock : ∀ pre e post, block = pre ++ e :: post → P (log ++ pre) e) : Causal P (log ++ block) := by
  induction block using List.reverseRecOn with
  | nil => simpa using h
  | append_singleton block e ih =>
    rw [← List.append_assoc]
    apply causal_snoc
    · apply ih
      intro pre d post heq
      exact hblock pre d (post ++ [e]) (by simp [heq])
    · exact hblock block e [] rfl

variable [DecidableEq κ] (key : β → κ)

/-- The last event of a key. -/
def lastOf (k : κ) (log : List β) : Option β := (log.filter (fun e => key e = k)).getLast?

@[simp] theorem lastOf_nil (k : κ) : lastOf key k [] = none := rfl

theorem lastOf_append (k : κ) (xs ys : List β) :
    lastOf key k (xs ++ ys) = (lastOf key k ys).or (lastOf key k xs) := by
  unfold lastOf
  rw [List.filter_append, List.getLast?_append]

theorem lastOf_snoc_self {k : κ} (log : List β) (e : β) (h : key e = k) :
    lastOf key k (log ++ [e]) = some e := by
  simp [lastOf, List.filter_append, h]

theorem lastOf_snoc_ne {k : κ} (log : List β) (e : β) (h : key e ≠ k) :
    lastOf key k (log ++ [e]) = lastOf key k log := by
  simp [lastOf, List.filter_append, h]

theorem lastOf_map {α : Type*} (f : α → β) (k : κ) (log : List α) :
    lastOf key k (log.map f) = (lastOf (key ∘ f) k log).map f := by
  unfold lastOf
  rw [List.filter_map, List.getLast?_map]
  rfl

theorem mem_of_lastOf {k : κ} {log : List β} {e : β} (h : lastOf key k log = some e) : e ∈ log :=
  (List.mem_filter.mp (List.mem_of_getLast? h)).1

/-- A reader who first drops the events of other keys finds the same last event. -/
theorem lastOf_filter {p : β → Bool} {k : κ} (log : List β) (h : ∀ e, key e = k → p e = true) :
    lastOf key k (log.filter p) = lastOf key k log := by
  unfold lastOf
  rw [List.filter_filter]
  congr 1
  apply List.filter_congr
  intro e _
  by_cases hk : key e = k
  · simp [hk, h e hk]
  · simp [hk]

/-- Parts that each emit under their own key: what stands under a key is its part. -/
theorem filter_flatMap_key {parts : List κ} (hnodup : parts.Nodup) (f : κ → List β) (p : β → Bool)
    {k : κ} (hk : k ∈ parts) (hown : ∀ e ∈ f k, p e = true)
    (hother : ∀ k' ∈ parts, k' ≠ k → ∀ e ∈ f k', p e = false) :
    (parts.flatMap f).filter p = f k := by
  induction parts with
  | nil => simp at hk
  | cons a parts ih =>
    obtain ⟨ha, hparts⟩ := List.nodup_cons.mp hnodup
    rw [List.flatMap_cons, List.filter_append]
    by_cases hak : a = k
    · subst hak
      have hrest : (parts.flatMap f).filter p = [] := by
        rw [List.filter_eq_nil_iff]
        intro e he
        obtain ⟨k', hk', he'⟩ := List.mem_flatMap.mp he
        simp [hother k' (by simp [hk']) (fun h => ha (h ▸ hk')) e he']
      rw [hrest, List.append_nil, List.filter_eq_self]
      exact hown
    · have hhead : (f a).filter p = [] := by
        rw [List.filter_eq_nil_iff]
        intro e he
        simp [hother a (by simp) hak e he]
      rw [hhead, List.nil_append]
      apply ih hparts ((List.mem_cons.mp hk).resolve_left (Ne.symm hak))
      intro k' hk'
      exact hother k' (by simp [hk'])

/-- Parts that each pass a filter as a whole, or not at all. -/
theorem filter_flatMap_parts {α : Type*} {parts : List α} {f : α → List β} {p : β → Bool}
    {q : α → Bool} (h : ∀ a ∈ parts, ∀ e ∈ f a, p e = q a) :
    (parts.flatMap f).filter p = (parts.filter q).flatMap f := by
  induction parts with
  | nil => rfl
  | cons a parts ih =>
    rw [List.flatMap_cons, List.filter_append, ih (fun a' ha' => h a' (by simp [ha']))]
    have hhead : (f a).filter p = if q a then f a else [] := by
      cases hq : q a with
      | true => simpa [List.filter_eq_self, hq] using h a (by simp)
      | false => simpa [List.filter_eq_nil_iff, hq] using h a (by simp)
    rw [hhead]
    cases hq : q a <;> simp [hq]

end event_log
