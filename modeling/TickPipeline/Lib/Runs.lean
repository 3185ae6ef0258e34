-- Runs of a machine: a step function applied along a list of actions, with
-- what each step gives out. Every induction over a run goes through a rule
-- of this module.
import Mathlib.Data.List.Induction
import Mathlib.Data.List.Basic

namespace runs

variable {σ τ α β κ : Type*}

/-- Runs `step` over the actions, oldest first. It gives what each step gave,
and the last state. -/
def run (step : σ → α → β × σ) : σ → List α → List β × σ
  | s, [] => ([], s)
  | s, a :: rest =>
    let (b, s1) := step s a
    let (bs, s2) := run step s1 rest
    (b :: bs, s2)

@[simp] theorem run_nil (step : σ → α → β × σ) (s : σ) : run step s [] = ([], s) := rfl

@[simp] theorem run_cons (step : σ → α → β × σ) (s : σ) (a : α) (rest : List α) :
    run step s (a :: rest) =
      ((step s a).1 :: (run step (step s a).2 rest).1, (run step (step s a).2 rest).2) := rfl

theorem run_append (step : σ → α → β × σ) (s : σ) (xs ys : List α) :
    run step s (xs ++ ys) =
      ((run step s xs).1 ++ (run step (run step s xs).2 ys).1,
        (run step (run step s xs).2 ys).2) := by
  induction xs generalizing s with
  | nil => rfl
  | cons x xs ih => simp [ih]

theorem run_snoc (step : σ → α → β × σ) (s : σ) (xs : List α) (x : α) :
    run step s (xs ++ [x]) =
      ((run step s xs).1 ++ [(step (run step s xs).2 x).1], (step (run step s xs).2 x).2) := by
  simp [run_append]

/-- The rule for an invariant that speaks of the history: the actions so far,
what they gave, and the state. -/
theorem run_history (step : σ → α → β × σ) {P : List α → List β → σ → Prop} {s : σ}
    (hstart : P [] [] s)
    (hstep : ∀ xs bs t x, P xs bs t → P (xs ++ [x]) (bs ++ [(step t x).1]) (step t x).2)
    (xs : List α) : P xs (run step s xs).1 (run step s xs).2 := by
  induction xs using List.reverseRecOn with
  | nil => exact hstart
  | append_singleton xs x ih =>
    rw [run_snoc]
    exact hstep _ _ _ _ ih

/-- The rule for an invariant of the state alone. -/
theorem run_invariant (step : σ → α → β × σ) {P : σ → Prop}
    (hstep : ∀ t x, P t → P (step t x).2) {s : σ} (hstart : P s) (xs : List α) :
    P (run step s xs).2 :=
  run_history step (P := fun _ _ t => P t) hstart (fun _ _ t x h => hstep t x h) xs

/-- Refinement: two machines that agree on each allowed action agree on each
run of allowed actions. -/
theorem run_refines (f : σ → α → β × σ) (g : τ → α → β × τ) {R : σ → τ → Prop} {Ok : α → Prop}
    (hstep : ∀ s t x, Ok x → R s t → (f s x).1 = (g t x).1 ∧ R (f s x).2 (g t x).2)
    {s : σ} {t : τ} (hR : R s t) (xs : List α) (hok : ∀ x ∈ xs, Ok x) :
    (run f s xs).1 = (run g t xs).1 ∧ R (run f s xs).2 (run g t xs).2 := by
  induction xs generalizing s t with
  | nil => exact ⟨rfl, hR⟩
  | cons x xs ih =>
    obtain ⟨h1, h2⟩ := hstep s t x (hok x (by simp)) hR
    obtain ⟨h3, h4⟩ := ih h2 (fun y hy => hok y (by simp [hy]))
    exact ⟨by simp [h1, h3], h4⟩

/-- What a machine gives out has no say in its states. -/
theorem run_state_eq {γ : Type*} (f : σ → α → β × σ) (g : σ → α → γ × σ)
    (h : ∀ s x, (f s x).2 = (g s x).2) (s : σ) (xs : List α) : (run f s xs).2 = (run g s xs).2 := by
  induction xs generalizing s with
  | nil => rfl
  | cons x xs ih => rw [run_cons, run_cons, h, ih]

/-- Projection: one part of a machine is itself a machine. Each action of the
whole is a list of actions of the part, and what the part gives out is what
the whole gives out about it. -/
theorem run_projects (f : σ → α → List β × σ) (part : τ → κ → List β × τ) (own : α → List κ)
    (mine : β → Bool) {R : σ → τ → Prop}
    (hstep : ∀ s t x, R s t →
      (f s x).1.filter mine = (run part t (own x)).1.flatten ∧ R (f s x).2 (run part t (own x)).2)
    {s : σ} {t : τ} (hR : R s t) (xs : List α) :
    (run f s xs).1.flatten.filter mine = (run part t (xs.flatMap own)).1.flatten ∧
      R (run f s xs).2 (run part t (xs.flatMap own)).2 := by
  induction xs generalizing s t with
  | nil => exact ⟨rfl, hR⟩
  | cons x xs ih =>
    obtain ⟨h1, h2⟩ := hstep s t x hR
    obtain ⟨h3, h4⟩ := ih h2
    refine ⟨?_, ?_⟩
    · simp [run_append, List.filter_append, h1, h3]
    · simpa [run_append] using h4

end runs
