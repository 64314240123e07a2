import Fstest.Fsx.Lockstep

/-!
# When fsx stays inside its buffers

`Bounded` says of a state that no number of rounds of the loop from there panics, that the shadow
file never outgrows the maximum, and that the part of the shadow that a failure saves exists.
`start_bounded_iff` is the exact condition for a run from its start: the buffers can be allocated,
and every step that the run comes to fits (`StepFits`). The trims of the loop do not ensure that.
An insertion compares its size with the size of the file at the start of the run, so it can make
the file longer than the maximum, or ask for more room than the file has; `insertion_panics` is
such a run. A truncate divides by a maximum of zero, and with a `style` other than 0 its target is
not trimmed at all.
-/

namespace Fstest.Fsx

variable {σ : Type} {a : Args} {K : Kernel σ} {s s' : Fsx σ}

/-- The step that the loop takes next fits. -/
def NextFits (a : Args) (K : Kernel σ) (s : Fsx σ) : Prop :=
  ∀ c s', chooseOp a s = some (c, s') → StepFits a K s' c

/-- A run from here never leaves the buffers. -/
def Bounded (a : Args) (K : Kernel σ) (s : Fsx σ) : Prop :=
  ∀ n, ∃ s', runFor a K 0 n s = some s' ∧ s'.fileSize ≤ s'.maxfilelen ∧ (goodDump s').isSome

theorem iteration_stays (ha : Allocates a) (hs : s.Sized) (h : NextFits a K s) :
    Stays s (iteration a K 0 s) := by
  have hop := ha.tempBuf
  obtain ⟨c, s₁, hc, hsame, hz⟩ := chooseOp_eq (a := a) (by unfold u64Size isizeMax at *; omega) s
  obtain ⟨s₂, hr, hk⟩ := performOp_stays (hsame.sized hs) (by omega) (h c s₁ hc)
  exact ⟨s₂, by simp only [iteration, hc]; exact hr, (hsame.keeps hs).trans hk⟩

theorem iteration_unfit (ha : Allocates a) (hs : s.Sized) (h : ¬ NextFits a K s)
    (hr : iteration a K 0 s = some s') : s'.maxfilelen < s'.fileSize := by
  have hop := ha.tempBuf
  obtain ⟨c, s₁, hc, hsame, hz⟩ := chooseOp_eq (a := a) (by unfold u64Size isizeMax at *; omega) s
  have hunfit : ¬ StepFits a K s₁ c := fun hfit => h fun c' s₁' hc' => by
    rw [hc] at hc'
    cases hc'
    exact hfit
  simp only [iteration, hc] at hr
  exact performOp_unfit (hsame.sized hs) (by omega) hunfit hr

/-! ## Runs -/

/-- The last round of a run. A run that failed before stays where it is. -/
theorem runFor_succ (n : Nat) (s : Fsx σ) : runFor a K 0 (n + 1) s =
    (runFor a K 0 n s).bind fun s' => if s'.failure.isSome then some s' else iteration a K 0 s' := by
  induction n generalizing s with
  | zero =>
    simp only [runFor, Option.bind_some]
    split
    · rfl
    · cases iteration a K 0 s <;> rfl
  | succ n ih =>
    rw [runFor]
    conv => rhs; rw [runFor]
    by_cases hf : s.failure.isSome = true
    · simp only [hf, if_true, Option.bind_some]
    · simp only [if_neg hf]
      cases iteration a K 0 s with
      | none => rfl
      | some s₁ => exact ih s₁

theorem goodDump_sized (hs : s.Sized) : (goodDump s).isSome := by
  have h1 := hs.fileSize
  have h2 := hs.goodBuf
  rw [goodDump, slice_of (by omega) (by omega)]
  rfl

/-- A run whose steps all fit keeps the buffers. -/
theorem runFor_sized (ha : Allocates a) (hs : s.Sized)
    (hfit : ∀ n s', runFor a K 0 n s = some s' → s'.failure = none → NextFits a K s') (n : Nat) :
    ∃ s', runFor a K 0 n s = some s' ∧ s'.Sized := by
  induction n with
  | zero => exact ⟨s, rfl, hs⟩
  | succ n ih =>
    obtain ⟨s₁, hr, hs₁⟩ := ih
    rw [runFor_succ, hr, Option.bind_some]
    split
    · exact ⟨s₁, rfl, hs₁⟩
    · rename_i hf
      obtain ⟨s₂, hr₂, hk⟩ := iteration_stays ha hs₁ (hfit n s₁ hr (by simpa using hf))
      exact ⟨s₂, hr₂, hk.sized hs₁⟩

/-- A run that never leaves the buffers takes only steps that fit. -/
theorem Bounded.fits (ha : Allocates a) (hs : s.Sized) (h : Bounded a K s) (n : Nat) :
    ∃ s', runFor a K 0 n s = some s' ∧ s'.Sized ∧ (s'.failure = none → NextFits a K s') := by
  have hnext : ∀ n s₁, runFor a K 0 n s = some s₁ → s₁.Sized → s₁.failure = none →
      NextFits a K s₁ := by
    intro n s₁ hr hs₁ hok
    by_contra hno
    obtain ⟨s₂, hr₂, hle, -⟩ := h (n + 1)
    rw [runFor_succ, hr, Option.bind_some, if_neg (by simp [hok])] at hr₂
    have := iteration_unfit ha hs₁ hno hr₂
    omega
  induction n with
  | zero => exact ⟨s, rfl, hs, hnext 0 s rfl hs⟩
  | succ n ih =>
    obtain ⟨s₁, hr, hs₁, hfit⟩ := ih
    obtain ⟨s₂, hr₂, hs₂⟩ : ∃ s₂, runFor a K 0 (n + 1) s = some s₂ ∧ s₂.Sized := by
      rw [runFor_succ, hr, Option.bind_some]
      split
      · exact ⟨s₁, rfl, hs₁⟩
      · rename_i hf
        obtain ⟨s₂, hr₂, hk⟩ := iteration_stays ha hs₁ (hfit (by simpa using hf))
        exact ⟨s₂, hr₂, hk.sized hs₁⟩
    exact ⟨s₂, hr₂, hs₂, hnext (n + 1) s₂ hr₂ hs₂⟩

/-- **fsx stays inside its buffers exactly if they can be allocated and every step fits.** -/
theorem start_bounded_iff (a : Args) (K : Kernel σ) (fd : σ) (pageSize : Nat) (rng : Nat → UInt32)
    (enabled : Op → Bool) :
    (∃ s, start a fd pageSize rng enabled = some s ∧ Bounded a K s) ↔
      Allocates a ∧ ∀ s, start a fd pageSize rng enabled = some s →
        ∀ n s', runFor a K 0 n s = some s' → s'.failure = none → NextFits a K s' := by
  constructor
  · rintro ⟨s, hstart, hb⟩
    have ha := start_some hstart
    refine ⟨ha, fun s₀ hs₀ n s' hr hok => ?_⟩
    rw [hs₀, Option.some.injEq] at hstart
    subst hstart
    rw [start_of ha, Option.some.injEq] at hs₀
    subst hs₀
    obtain ⟨s₁, hr₁, -, hfit⟩ := hb.fits ha (sized_initial ha) n
    rw [hr] at hr₁
    cases hr₁
    exact hfit hok
  · rintro ⟨ha, hfit⟩
    refine ⟨_, start_of ha, fun n => ?_⟩
    obtain ⟨s', hr, hs'⟩ := runFor_sized ha (sized_initial ha) (hfit _ (start_of ha)) n
    exact ⟨s', hr, hs'.fileSize, goodDump_sized hs'⟩

/-- Random numbers that make the loop truncate to one byte and then insert a block at the start. -/
def truncateThenInsert : Nat → UInt32
  | 1 => 4
  | 2 => 1
  | 4 => 10
  | _ => 0

/-- The second step of the run asks for `1 - 4096` bytes of the shadow. -/
theorem insertion_panics : ∃ s,
    start { flen := 8192, oplen := 4096, fixedOplen := true } ([] : Bytes) 4096 truncateThenInsert
      (fun _ => true) = some s ∧
    runFor { flen := 8192, oplen := 4096, fixedOplen := true } ramFile 0 2 s = none := by
  refine ⟨_, start_of ⟨by decide, by decide, by decide⟩, ?_⟩
  rw [← Option.isNone_iff_eq_none]
  decide +kernel

end Fstest.Fsx
