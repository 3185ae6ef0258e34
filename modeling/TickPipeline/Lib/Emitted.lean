-- What a component emits when its output is a function of its history: the
-- inputs it took before, and the input it takes now. Two runs of such a
-- component in a row emit what one run over both inputs emits.
import Mathlib.Data.List.Induction
import Mathlib.Data.List.Basic

namespace emitted

variable {τ β γ : Type*}

/-- What `f` emits for the inputs `now`, one by one, after the inputs `before`. -/
def outputs (f : List τ → τ → List β) : List τ → List τ → List β
  | _, [] => []
  | before, t :: now => f before t ++ outputs f (before ++ [t]) now

@[simp] theorem outputs_nil (f : List τ → τ → List β) (before : List τ) :
    outputs f before [] = [] := rfl

@[simp] theorem outputs_cons (f : List τ → τ → List β) (before : List τ) (t : τ) (now : List τ) :
    outputs f before (t :: now) = f before t ++ outputs f (before ++ [t]) now := rfl

theorem outputs_append (f : List τ → τ → List β) (before xs ys : List τ) :
    outputs f before (xs ++ ys) = outputs f before xs ++ outputs f (before ++ xs) ys := by
  induction xs generalizing before with
  | nil => simp
  | cons x xs ih => simp [ih]

theorem outputs_snoc (f : List τ → τ → List β) (before xs : List τ) (x : τ) :
    outputs f before (xs ++ [x]) = outputs f before xs ++ f (before ++ xs) x := by
  simp [outputs_append]

theorem filterMap_outputs (f : List τ → τ → List β) (p : β → Option γ) (before now : List τ) :
    (outputs f before now).filterMap p = outputs (fun xs t => (f xs t).filterMap p) before now := by
  induction now generalizing before with
  | nil => rfl
  | cons t now ih => simp [ih]

theorem filter_outputs (f : List τ → τ → List β) (p : β → Bool) (before now : List τ) :
    (outputs f before now).filter p = outputs (fun xs t => (f xs t).filter p) before now := by
  induction now generalizing before with
  | nil => rfl
  | cons t now ih => simp [ih]

/-- Inputs that a filter drops, and that emit nothing, count for nothing. -/
theorem outputs_filter (f g : List τ → τ → List β) (own : τ → Bool) (before now : List τ)
    (hown : ∀ xs t, own t = true → f xs t = g (xs.filter own) t)
    (hother : ∀ xs t, own t = false → f xs t = []) :
    outputs f before now = outputs g (before.filter own) (now.filter own) := by
  induction now generalizing before with
  | nil => rfl
  | cons t now ih =>
    cases ht : own t with
    | true =>
      rw [List.filter_cons_of_pos ht, outputs_cons, outputs_cons, ih, hown _ _ ht]
      simp [List.filter_append, ht]
    | false =>
      rw [List.filter_cons_of_neg (by simp [ht]), outputs_cons, ih, hother _ _ ht]
      simp [List.filter_append, ht]

theorem mem_outputs {f : List τ → τ → List β} {before now : List τ} {b : β}
    (h : b ∈ outputs f before now) :
    ∃ xs t ys, now = xs ++ t :: ys ∧ b ∈ f (before ++ xs) t := by
  induction now generalizing before with
  | nil => cases h
  | cons t now ih =>
    rw [outputs_cons, List.mem_append] at h
    rcases h with h | h
    · exact ⟨[], t, now, rfl, by simpa using h⟩
    · obtain ⟨xs, u, ys, rfl, hb⟩ := ih h
      exact ⟨t :: xs, u, ys, rfl, by simpa using hb⟩

end emitted
