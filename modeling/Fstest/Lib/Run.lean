import Mathlib.Tactic.TypeStar

/-!
# Labelled runs

A system takes a state by an action to the next state, and shows a label. `Run step P s₀ tr s` says
that some run from `s₀` to `s`, all of whose steps meet `P`, shows the labels `tr`. What holds of
every run is proved with `Run.invariant`; a run on fixed input is computed by `execute`.
-/

namespace Fstest.Labelled

variable {σ α ε : Type*}

/-- The runs from `s₀` whose steps meet `P`, with what they show. -/
inductive Run (step : σ → α → Option (σ × ε)) (P : σ → α → Prop) (s₀ : σ) : List ε → σ → Prop
  | nil : Run step P s₀ [] s₀
  | snoc {tr : List ε} {s s' : σ} {a : α} {e : ε} : Run step P s₀ tr s → P s a →
      step s a = some (s', e) → Run step P s₀ (tr ++ [e]) s'

variable {step : σ → α → Option (σ × ε)} {P Q : σ → α → Prop} {s₀ s s' : σ} {tr : List ε}

/-- **What holds at the start and is kept by every step holds after every run.** -/
theorem Run.invariant {I : List ε → σ → Prop} (h : Run step P s₀ tr s) (h0 : I [] s₀)
    (hstep : ∀ tr s a s' e, Run step P s₀ tr s → I tr s → P s a → step s a = some (s', e) →
      I (tr ++ [e]) s') : I tr s := by
  induction h with
  | nil => exact h0
  | snoc hr hp hs ih => exact hstep _ _ _ _ _ hr ih hp hs

theorem Run.mono (h : Run step P s₀ tr s) (hPQ : ∀ s a, P s a → Q s a) : Run step Q s₀ tr s := by
  induction h with
  | nil => exact .nil
  | snoc _ hp hs ih => exact .snoc ih (hPQ _ _ hp) hs

theorem Run.cons {a : α} {e : ε} {s₁ : σ} (hp : P s₀ a) (hs : step s₀ a = some (s₁, e))
    (h : Run step P s₁ tr s) : Run step P s₀ (e :: tr) s := by
  induction h with
  | nil => exact Run.nil.snoc hp hs
  | snoc _ hp' hs' ih => exact ih.snoc hp' hs'

theorem Run.trans {tr' : List ε} {s₁ : σ} (h : Run step P s₀ tr s₁) (h' : Run step P s₁ tr' s) :
    Run step P s₀ (tr ++ tr') s := by
  induction h' with
  | nil => rwa [List.append_nil]
  | snoc _ hp hs ih =>
    rw [← List.append_assoc]
    exact ih.snoc hp hs

/-! ## Runs on fixed input -/

variable (step P) in
/-- The run of the given actions, if the system can take them and they meet `P`. -/
def execute [∀ s a, Decidable (P s a)] : List α → σ → Option (List ε × σ)
  | [], s => some ([], s)
  | a :: as, s =>
    if P s a then
      match step s a with
      | none => none
      | some (s', e) => (execute as s').map fun r => (e :: r.1, r.2)
    else none

theorem Run.of_execute [∀ s a, Decidable (P s a)] {as : List α}
    (h : execute step P as s = some (tr, s')) : Run step P s tr s' := by
  induction as generalizing s tr with
  | nil =>
    cases h
    exact .nil
  | cons a as ih =>
    rw [execute] at h
    split at h
    · rename_i hp
      split at h
      · cases h
      · rename_i s₁ e hs
        obtain ⟨r, hr, heq⟩ := Option.map_eq_some_iff.mp h
        cases heq
        exact .cons hp hs (ih hr)
    · cases h

theorem exists_run_of_execute [∀ s a, Decidable (P s a)] (as : List α) {R : σ → Prop} [DecidablePred R]
    (h : (execute step P as s).any (fun r => decide (R r.2)) = true) :
    ∃ tr s', Run step P s tr s' ∧ R s' := by
  obtain ⟨⟨tr, s'⟩, hexec, hR⟩ := (Option.any_eq_true _ _).mp h
  exact ⟨tr, s', .of_execute hexec, of_decide_eq_true hR⟩

end Fstest.Labelled
