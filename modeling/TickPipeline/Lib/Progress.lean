-- Progress of a machine. A measure that falls with each action that moves the machine
-- bounds the number of those actions, and from every state some of them lead to rest.
import TickPipeline.Lib.Runs

namespace runs

variable {σ α β : Type*}

/-- `P` holds of each step of the run, at the state where it is taken. -/
def Along (step : σ → α → β × σ) (P : σ → α → Prop) : σ → List α → Prop
  | _, [] => True
  | s, a :: rest => P s a ∧ Along step P (step s a).2 rest

/-- None of these actions moves the machine. -/
def Resting (step : σ → α → β × σ) (own : α → Bool) (s : σ) : Prop :=
  ∀ a, own a → (step s a).2 = s

/-- Each of these actions that is taken moves the machine. -/
def Busy (step : σ → α → β × σ) (own : α → Bool) : σ → List α → Prop :=
  Along step fun s a => own a → (step s a).2 ≠ s

/-! ## A rank

The rank is one of the states that an invariant `I` allows. -/

section rank

variable (step : σ → α → β × σ) {own : α → Bool} {μ : σ → Nat} {I : σ → Prop}

theorem run_rank (hkeeps : ∀ s a, I s → I (step s a).2)
    (hothers : ∀ s a, I s → own a = false → μ (step s a).2 ≤ μ s)
    (hown : ∀ s a, I s → own a → (step s a).2 = s ∨ μ (step s a).2 < μ s)
    {s : σ} (hs : I s) {xs : List α} (hbusy : Busy step own s xs) :
    μ (run step s xs).2 + xs.countP own ≤ μ s := by
  induction xs generalizing s with
  | nil => exact Nat.le_refl _
  | cons x xs ih =>
    obtain ⟨hx, hrest⟩ := hbusy
    have hlater := ih (hkeeps s x hs) hrest
    rw [run_cons]
    cases hmine : own x with
    | false =>
      rw [List.countP_cons_of_neg (by simp [hmine])]
      exact Nat.le_trans hlater (hothers s x hs hmine)
    | true =>
      rw [List.countP_cons_of_pos hmine]
      have hlower := (hown s x hs hmine).resolve_left (hx hmine)
      dsimp only
      omega

/-- The number of steps is at most the rank. -/
theorem exists_run_resting (hkeeps : ∀ s a, I s → I (step s a).2)
    (hown : ∀ s a, I s → own a → (step s a).2 = s ∨ μ (step s a).2 < μ s) {s : σ} (hs : I s) :
    ∃ xs : List α, (∀ a ∈ xs, own a) ∧ xs.length ≤ μ s ∧
      Resting step own (run step s xs).2 := by
  induction hn : μ s using Nat.strongRecOn generalizing s with
  | ind n ih =>
    by_cases hrest : Resting step own s
    · exact ⟨[], by simp, Nat.zero_le _, hrest⟩
    · unfold Resting at hrest
      push Not at hrest
      obtain ⟨a, ha, hmoved⟩ := hrest
      have hlower := (hown s a hs ha).resolve_left hmoved
      obtain ⟨xs, hxs, hlen, hresting⟩ := ih _ (hn ▸ hlower) (hkeeps s a hs) rfl
      refine ⟨a :: xs, ?_, ?_, hresting⟩
      · intro b hb
        rcases List.mem_cons.mp hb with rfl | hb
        · exact ha
        · exact hxs b hb
      · rw [List.length_cons]
        omega

end rank

end runs
