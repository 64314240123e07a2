import Fstest.Mdtest.Content
import Fstest.Mdtest.Loops
import Mathlib.Algebra.Order.BigOperators.Group.List
import Mathlib.Algebra.Order.Group.Nat

/-!
# The verification of mdtest

The read phase of a rank counts the files whose bytes are not those of the pattern. A file that cannot
be opened, or that is shorter than what is to be read, is only a warning. What a rank finds when it
visits an item is given by a function; `verificationErrors` is what the report adds up.
-/

namespace Fstest.Mdtest

/-- What can be read of a file when a rank visits it in an iteration, if it can be opened. -/
abbrev Found := ℕ → ℕ → Path → Option Bytes

/-- The options that are passed on as they are, or completed. -/
structure PassedOn (a : Args) (now : ℕ) (p : Params) : Prop where
  iterations : p.iterations = a.iterations
  writeBytes : p.writeBytes = a.writeBytes
  readBytes : p.readBytes = a.readBytes
  verifyRead : p.verifyRead = a.verifyRead
  randomSeed : p.randomSeed = if a.random ∧ a.randomSeed = 0 then now else a.randomSeed
  filesOnly : p.filesOnly = (a.filesOnly || (!a.dirsOnly && !a.filesOnly))
  createOnly : a.createOnly = true → p.createOnly = true
  readOnly : a.readOnly = true → p.readOnly = true

theorem configure_passedOn {a : Args} {top : Path} {now : ℕ} {p : Params}
    (h : configure a top now = .ok p) : PassedOn a now p := by
  rw [configure] at h
  generalize rejection a _ _ _ = r at h
  cases r with
  | some text => cases h
  | none =>
    obtain ⟨n, -, h⟩ := bind_ok h
    obtain ⟨⟨items, ipd⟩, -, h⟩ := bind_ok h
    simp only [] at h
    split at h
    · cases h
    · cases h
      exact ⟨rfl, rfl, rfl, rfl, rfl, rfl, fun hc => by simp [hc], fun hr => by simp [hr]⟩

namespace Params

variable (p : Params)

/-- The item that `read_phase` visits in round `i`. -/
def readPath (rank : ℕ) (root : Path) (base : String) (i : ℕ) : Path :=
  root ++ p.itemPath base false (p.itemPrefix rank 2) (i + p.leafOffset)

/-- What it expects there. -/
def expected (rank i : ℕ) : Bytes :=
  contentPattern p.randomSeed (p.shifted rank 2) (i + p.leafOffset) p.readBytes

/-- Whether a round of `read_phase` counts an error. -/
def readError (rank i : ℕ) (file : Option Bytes) : Bool :=
  match file with
  | none => false
  | some bytes =>
    decide (0 < p.readBytes) && decide (p.readBytes ≤ bytes.length) && p.verifyRead &&
      decide (bytes.take p.readBytes ≠ p.expected rank i)

/-- `read_phase`, for its errors. -/
def readPhaseErrors (find : Path → Option Bytes) (rank : ℕ) (root : Path) (base : String) : ℕ :=
  (List.range p.stopItems).countP fun i => p.readError rank i (find (p.readPath rank root base i))

/-- The errors that a rank counts in all its iterations. -/
def rankErrors (found : Found) (rank : ℕ) : ℕ :=
  if p.filesOnly ∧ p.readOnly then
    ((List.range p.iterations).map fun iteration =>
      ((List.range p.directoryLoops).map fun dirIter =>
        p.readPhaseErrors (found iteration rank) rank (p.root iteration rank 2 dirIter)
          (p.base rank 2)).sum).sum
  else 0

/-- The errors in the report. A rank that returns early does not store its own. -/
def verificationErrors (found : Found) (completes : ℕ → Bool) : ℕ :=
  ((List.range p.threads).map fun rank =>
    if completes rank then p.rankErrors found rank % 2 ^ 64 else 0).sum % 2 ^ 64

/-! ## The visits -/

/-- A visit of a rank to an item in the read phase. -/
structure Visit (p : Params) where
  iteration : ℕ
  rank : ℕ
  dirIter : ℕ
  item : ℕ
  selected : p.filesOnly = true ∧ p.readOnly = true
  iteration_lt : iteration < p.iterations
  rank_lt : rank < p.threads
  dirIter_lt : dirIter < p.directoryLoops
  item_lt : item < p.stopItems

variable {p}

def Visit.path (v : Visit p) : Path :=
  p.readPath v.rank (p.root v.iteration v.rank 2 v.dirIter) (p.base v.rank 2) v.item

/-- What the rank finds. -/
def Visit.file (v : Visit p) (found : Found) : Option Bytes := found v.iteration v.rank v.path

/-- A rank counts no error if none of its visits leads to one. -/
theorem rankErrors_eq_zero_iff {found : Found} {rank : ℕ} (hr : rank < p.threads) :
    p.rankErrors found rank = 0 ↔
      ∀ v : Visit p, v.rank = rank → p.readError v.rank v.item (v.file found) = false := by
  rw [rankErrors]
  split
  · rename_i hsel
    simp only [List.sum_eq_zero_iff, List.mem_map, List.mem_range, forall_exists_index, and_imp,
      forall_apply_eq_imp_iff₂, readPhaseErrors, List.countP_eq_zero, Bool.not_eq_true]
    constructor
    · rintro h v rfl
      exact h v.iteration v.iteration_lt v.dirIter v.dirIter_lt v.item v.item_lt
    · intro h iteration hi dirIter hd i hlt
      exact h ⟨iteration, rank, dirIter, i, hsel, hi, hr, hd, hlt⟩ rfl
  · rename_i hsel
    exact iff_of_true rfl fun v _ => absurd v.selected hsel

/-- If no rank counts an error, there are none in the report. -/
theorem verificationErrors_eq_zero {found : Found} {completes : ℕ → Bool}
    (h : ∀ rank < p.threads, p.rankErrors found rank = 0) :
    p.verificationErrors found completes = 0 := by
  have hsum : ((List.range p.threads).map fun rank =>
      if completes rank then p.rankErrors found rank % 2 ^ 64 else 0).sum = 0 := by
    rw [List.sum_eq_zero_iff]
    intro k hk
    obtain ⟨rank, hrank, rfl⟩ := List.mem_map.mp hk
    rw [h rank (List.mem_range.mp hrank), Nat.zero_mod, ite_self]
  rw [verificationErrors, hsum]
  rfl

end Params

/-- What the visits of a rank find compares equal. -/
def ReadsEqual (p : Params) (found : Found) : Prop :=
  ∀ v : p.Visit, ∀ bytes, v.file found = some bytes → p.readBytes ≤ bytes.length →
    bytes.take p.readBytes = p.expected v.rank v.item

/-- Equal reads are counted as no error. -/
theorem ReadsEqual.readError_eq {p : Params} {found : Found} (h : ReadsEqual p found) (v : p.Visit) :
    p.readError v.rank v.item (v.file found) = false := by
  cases hfile : v.file found with
  | none => rfl
  | some bytes =>
    rw [Params.readError]
    by_cases hlen : p.readBytes ≤ bytes.length
    · simp [h v bytes hfile hlen]
    · simp [hlen]

theorem ReadsEqual.verificationErrors_eq {p : Params} {found : Found} (h : ReadsEqual p found)
    (completes : ℕ → Bool) : p.verificationErrors found completes = 0 :=
  Params.verificationErrors_eq_zero fun _ hrank =>
    (Params.rankErrors_eq_zero_iff hrank).mpr fun v _ => h.readError_eq v

end Fstest.Mdtest
