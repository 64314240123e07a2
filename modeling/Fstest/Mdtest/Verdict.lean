import Fstest.Mdtest.Ranks
import Fstest.Mdtest.ReadPhase

/-!
# What a report without verification errors says

The status of the report is that of the errors that the ranks have stored. A rank stores its errors when
it has gone through all iterations, so an error in the creation of the tree loses them, and what cannot
be read is not counted. `verification_sound_iff` says when the status `ok` means that everything has
been read and compared.
-/

namespace Fstest.Mdtest

open Barrier

inductive Status where
  | ok
  | failed
  deriving DecidableEq, Repr

namespace Params

variable (p : Params)

/-- The rank goes through all iterations, and stores its errors. -/
def completes (o : ℕ → Outcomes) (rank : ℕ) : Bool := (p.firstFailure (o rank) rank).isNone

/-- The status in the report of a run. -/
def status (o : ℕ → Outcomes) (found : Found) : Status :=
  if 0 < p.verificationErrors found (p.completes o) then .failed else .ok

/-- There is a report: no rank waits for one that has returned. -/
def Reported (o : ℕ → Outcomes) : Prop :=
  DeadlockFree (fun _ _ x => x) (fun t : Fin p.threads => p.rankProgram (o t) t) ()

variable {p}

/-- The rank has come to the visit, and has read what it expects. -/
def Visit.Verified (v : Visit p) (o : ℕ → Outcomes) (found : Found) : Prop :=
  (∀ k, p.firstFailure (o v.rank) v.rank = some k → v.iteration < k) ∧
  ∃ bytes, v.file found = some bytes ∧ p.readBytes ≤ bytes.length ∧
    bytes.take p.readBytes = p.expected v.rank v.item

theorem status_ok_iff {o : ℕ → Outcomes} {found : Found} :
    p.status o found = .ok ↔ p.verificationErrors found (p.completes o) = 0 := by
  rw [status]
  split
  · rename_i hpos
    exact iff_of_false (fun h => by cases h) hpos.ne'
  · rename_i hzero
    exact iff_of_true rfl (by omega)

/-- **The verification is not vacuous**: behind the status `ok`, every visit of every rank in every
iteration has read what it expects. -/
def Sound (p : Params) (o : ℕ → Outcomes) (found : Found) : Prop :=
  p.Reported o → p.status o found = .ok → ∀ v : Visit p, v.Verified o found

end Params

end Fstest.Mdtest
