import Mathlib.Algebra.Order.Group.Nat
import Mathlib.Order.Hom.Basic

/-!
# How long a thread of fsstress goes on

`--loops` says how often the `--nops` operations are made, where 0 is meant to be without end until
`--duration` is over. The loop takes 0 for 1, so a thread then makes the operations once: it goes on until
the time is over only if they take so long (`loops_honoured_iff`).

`elapsed` is the clock. The thread is at its `i`-th look at it, or would be, `elapsed i` seconds after its
start.
-/

namespace Fstest.Fsstress

/-- The options that bound a run. -/
structure Bounds where
  nops : ℕ := 1000
  loops : ℕ := 1
  duration : ℕ := 0

/-- A thread, with what its operations work on. -/
structure Proc (σ : Type) where
  st : σ
  /-- How many operations it has made. -/
  currentIndex : ℕ := 0
  /-- How often it has come to look at the clock. -/
  looks : ℕ := 0

namespace Bounds

variable {σ : Type} (a : Bounds) (elapsed : ℕ →o ℕ) (runOp : σ → σ)

/-- `args.duration > 0 && started.elapsed().as_secs() >= args.duration`. -/
def expired (x : Proc σ) : Bool := decide (0 < a.duration) && decide (a.duration ≤ elapsed x.looks)

/-- The inner loop. -/
def opsLoop : ℕ → Proc σ → Proc σ
  | 0, x => x
  | n + 1, x =>
    let y := { x with looks := x.looks + 1 }
    if a.expired elapsed x then y
    else opsLoop n { y with st := runOp y.st, currentIndex := y.currentIndex + 1 }

/-- The outer loop. -/
def loopsLoop : ℕ → Proc σ → Proc σ
  | 0, x => x
  | k + 1, x =>
    let y := { x with looks := x.looks + 1 }
    if a.expired elapsed x then y else loopsLoop k (a.opsLoop elapsed runOp a.nops y)

def runThread (st : σ) : Proc σ := a.loopsLoop elapsed runOp (max a.loops 1) { st }

/-- Without a duration there are as many operations as the options say; without a number of loops the thread
does not end before the duration is over. -/
structure Honoured (x : Proc σ) : Prop where
  counted : a.duration = 0 → 1 ≤ a.loops → x.currentIndex = a.nops * a.loops
  timed : a.loops = 0 → 0 < a.duration → a.duration ≤ elapsed x.looks

variable {a elapsed runOp} {x : Proc σ}

/-! ## Without a duration -/

theorem expired_of_duration_eq_zero (h : a.duration = 0) : a.expired elapsed x = false := by
  simp [expired, h]

theorem currentIndex_opsLoop (h : a.duration = 0) (n : ℕ) (x : Proc σ) :
    (a.opsLoop elapsed runOp n x).currentIndex = x.currentIndex + n := by
  induction n generalizing x with
  | zero => rfl
  | succ n ih =>
    rw [opsLoop, expired_of_duration_eq_zero h, if_neg Bool.false_ne_true, ih]
    exact Nat.succ_add_eq_add_succ x.currentIndex n

theorem currentIndex_loopsLoop (h : a.duration = 0) (k : ℕ) (x : Proc σ) :
    (a.loopsLoop elapsed runOp k x).currentIndex = x.currentIndex + a.nops * k := by
  induction k generalizing x with
  | zero => rfl
  | succ k ih =>
    rw [loopsLoop, expired_of_duration_eq_zero h, if_neg Bool.false_ne_true, ih, currentIndex_opsLoop h,
      Nat.mul_succ, Nat.add_assoc, Nat.add_comm a.nops]

/-! ## With a duration and no loops -/

/-- A thread in its inner loop: it ends no later than if no look at the clock ended it, and its time is over
at its end if it would be then. -/
theorem over_opsLoop (h : 0 < a.duration) (n : ℕ) (x : Proc σ) :
    a.duration ≤ elapsed (a.opsLoop elapsed runOp n x).looks ↔ a.duration ≤ elapsed (x.looks + n) := by
  induction n generalizing x with
  | zero => rfl
  | succ n ih =>
    rw [opsLoop]
    by_cases hover : a.duration ≤ elapsed x.looks
    · have hexpired : a.expired elapsed x = true := by simp [expired, h, hover]
      rw [hexpired, if_pos rfl]
      have hend : a.duration ≤ elapsed (x.looks + 1) := hover.trans (elapsed.monotone (by omega))
      have hlast : a.duration ≤ elapsed (x.looks + (n + 1)) := hover.trans (elapsed.monotone (by omega))
      exact iff_of_true hend hlast
    · have hexpired : a.expired elapsed x = false := by simp [expired, hover]
      rw [hexpired, if_neg Bool.false_ne_true, ih, Nat.add_right_comm, Nat.add_assoc]

theorem over_runThread (hloops : a.loops = 0) (h : 0 < a.duration) (st : σ) :
    a.duration ≤ elapsed (a.runThread elapsed runOp st).looks ↔ a.duration ≤ elapsed (a.nops + 1) := by
  rw [runThread, hloops]
  change a.duration ≤ elapsed (a.loopsLoop elapsed runOp 1 _).looks ↔ _
  rw [loopsLoop]
  by_cases hover : a.duration ≤ elapsed 0
  · have hexpired : a.expired elapsed (⟨st, 0, 0⟩ : Proc σ) = true := by simp [expired, h, hover]
    rw [hexpired, if_pos rfl]
    have hend : a.duration ≤ elapsed (0 + 1) := hover.trans (elapsed.monotone (by omega))
    have hlast : a.duration ≤ elapsed (a.nops + 1) := hover.trans (elapsed.monotone (by omega))
    exact iff_of_true hend hlast
  · have hexpired : a.expired elapsed (⟨st, 0, 0⟩ : Proc σ) = false := by simp [expired, hover]
    rw [hexpired, if_neg Bool.false_ne_true, loopsLoop, over_opsLoop h, Nat.zero_add, Nat.add_comm]

/-- **`--loops` and `--duration` are honoured** but where there should be no end: there the operations of one
loop have to take as long. -/
theorem loops_honoured_iff (a : Bounds) (elapsed : ℕ →o ℕ) (runOp : σ → σ) (st : σ) :
    a.Honoured elapsed (a.runThread elapsed runOp st) ↔
      ¬ (a.loops = 0 ∧ 0 < a.duration) ∨ a.duration ≤ elapsed (a.nops + 1) := by
  constructor
  · intro h
    by_cases hendless : a.loops = 0 ∧ 0 < a.duration
    · exact .inr ((over_runThread hendless.1 hendless.2 st).mp (h.timed hendless.1 hendless.2))
    · exact .inl hendless
  · intro h
    refine ⟨fun hzero hloops => ?_, fun hloops hpos => ?_⟩
    · rw [runThread, currentIndex_loopsLoop hzero, max_eq_left hloops, Nat.zero_add]
    · exact (over_runThread hloops hpos st).mpr (h.resolve_left fun hnot => hnot ⟨hloops, hpos⟩)

/-- An hour without end: the thread makes two operations and ends after three seconds. -/
theorem ends_early :
    let a : Bounds := { nops := 2, loops := 0, duration := 3600 }
    let x := a.runThread OrderHom.id id ()
    x.currentIndex = 2 ∧ OrderHom.id x.looks = 3 ∧ ¬ a.Honoured OrderHom.id x :=
  ⟨rfl, rfl, fun h => absurd (h.timed rfl (by decide)) (by decide)⟩

end Bounds

end Fstest.Fsstress
