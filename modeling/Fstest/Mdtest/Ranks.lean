import Fstest.Lib.Attempt
import Fstest.Lib.Barrier
import Fstest.Mdtest.Skeleton

/-!
# The ranks of mdtest at their barrier

`rankProgram` is `run_rank` as a straight-line program: what a rank does, and where it waits for
the others. An item operation that fails is only a warning, and so is a directory that cannot be
removed, but an error in the creation of the tree makes the rank return.
`rankProgram_deadlockFree_iff` is the exact condition on the errors under which no rank waits
forever. Arithmetic on options wraps around here, as in a build without overflow checks.
-/

namespace Fstest.Mdtest

open Barrier

/-- One operation of a rank. -/
inductive Act where
  | mkdir (d : Path)
  | rmdir (d : Path)
  | createItem (path : Path)
  | statItem (path : Path)
  | readItem (path : Path)
  | renameItem (src target : Path)
  | removeItem (path : Path)
  | sync
  | sleep
  deriving DecidableEq

/-- What a rank meets: the outcome of each directory creation in the tree of an iteration, and
the answers of its stonewall timer. -/
structure Outcomes where
  tree : ℕ → Path → Bool
  clock : Clock

namespace Params

variable (p : Params)

/-- The directories of the tree creation. The error of a working directory is dropped, that of a
directory of the tree is not. -/
def treeSteps (iteration rank : ℕ) : List (Path × Bool) :=
  (List.range p.directoryLoops).flatMap fun dirIter =>
    let testdir := p.testdir iteration dirIter
    if p.uniqueDir then
      let base := testdir ++ ["mdtest_tree." ++ toString rank]
      (base, false) :: (p.createRemoveTree true base).map (·, true)
    else if rank = 0 then (p.createRemoveTree true testdir).map (·, true)
    else []

/-- Whether the rank goes on after a step of the tree creation. -/
def stepOk (o : Outcomes) (iteration : ℕ) (s : Path × Bool) : Bool := !s.2 || o.tree iteration s.1

/-- `path` with a suffix to its last component. -/
def suffixed (path : Path) (s : String) : Path := path.dropLast ++ [path.getLastD "" ++ s]

/-- The renames of `rename_phase` in one test directory: a chain that every name moves along. -/
def renamePhase (rank : ℕ) (dirs : Bool) (root : Path) (base : String) : List (Path × Path) :=
  let stop := p.stopItems
  let path := fun i => root ++ p.itemPath base dirs (p.itemPrefix rank 1) (i + p.leafOffset)
  if stop = 1 then []
  else (List.range stop).map fun i =>
    if i = 0 then (path 0, suffixed (path 0) "-XX")
    else if i = stop - 1 then (suffixed (path 0) "-XX", path (i - 1))
    else (path i, path (i - 1))

/-! ## The program of a rank -/

/-- A phase, between `phase_prepare` and `phase_end`. -/
def phaseProgram (body : List Act) : List (Instr Act) :=
  (if p.barriers then [.wait] else []) ++
    (body ++ if p.syncAfterPhase then [Act.sync] else []).map (fun a => .op (id a)) ++
    if p.barriers then [.wait] else []

/-- The phases on directories. -/
def dirPhases (o : Outcomes) (iteration rank : ℕ) : List (Instr Act) :=
  (if 0 < p.preDelay then [.op .sleep] else []) ++
  (if p.createOnly then
    p.phaseProgram ((p.createPhase o.clock iteration rank true).1.map .createItem) else []) ++
  (if p.statOnly then p.phaseProgram ((p.statAll iteration rank true).map .statItem) else []) ++
  (if p.readOnly then p.phaseProgram [] else []) ++
  (if p.renameDirs && decide (1 < p.items) then
    p.phaseProgram ((List.range p.directoryLoops).flatMap fun dirIter =>
      (p.renamePhase rank true (p.root iteration rank 1 dirIter) (p.base rank 1)).map fun r =>
        .renameItem r.1 r.2)
  else []) ++
  if p.removeOnly then
    p.phaseProgram ((p.removePhase iteration rank true).map .removeItem) else []

/-- The phases on files. -/
def filePhases (o : Outcomes) (iteration rank : ℕ) : List (Instr Act) :=
  (if 0 < p.preDelay ∧ p.dirsOnly = false then [.op .sleep] else []) ++
  (if p.createOnly then
    p.phaseProgram ((p.createPhase o.clock iteration rank false).1.map .createItem) else []) ++
  (if p.statOnly then p.phaseProgram ((p.statAll iteration rank false).map .statItem) else []) ++
  (if p.readOnly then p.phaseProgram ((p.readAll iteration rank).map .readItem) else []) ++
  if p.removeOnly then
    p.phaseProgram ((p.removePhase iteration rank false).map .removeItem) else []

/-- The directories that a rank removes at the end of an iteration. -/
def treeRemoval (iteration rank : ℕ) : List Path :=
  (List.range p.directoryLoops).flatMap fun dirIter =>
    let testdir := p.testdir iteration dirIter
    (if p.uniqueDir then
      let base := testdir ++ ["mdtest_tree." ++ toString rank]
      p.createRemoveTree false base ++ [base]
    else if rank = 0 then p.createRemoveTree false testdir
    else []) ++ if rank = 0 then [testdir] else []

/-- The start of an iteration: the test directories, and the tree up to the first error. -/
def treeProgram (o : Outcomes) (iteration rank : ℕ) : List (Instr Act) :=
  if p.createOnly then
    ((List.range p.directoryLoops).map (fun i => .op (.mkdir (p.testdir iteration i)))) ++
      .wait :: (tried (stepOk o iteration) (p.treeSteps iteration rank)).map fun s => .op (.mkdir s.1)
  else []

/-- The tree creation of an iteration ends in an error. -/
def treeFails (o : Outcomes) (rank iteration : ℕ) : Bool :=
  p.createOnly && !(p.treeSteps iteration rank).all (stepOk o iteration)

/-- The rest of an iteration, after the tree creation. -/
def restProgram (o : Outcomes) (iteration rank : ℕ) : List (Instr Act) :=
  (if p.createOnly then [.wait] else []) ++
  (if p.dirsOnly then p.dirPhases o iteration rank else []) ++
  (if p.filesOnly then p.filePhases o iteration rank else []) ++
  [.wait] ++
  if p.removeOnly then (p.treeRemoval iteration rank).map (fun d => .op (.rmdir d)) ++ [.wait]
  else []

/-- `left` iterations of `run_rank`, from `iteration` on. -/
def rankFrom (o : Outcomes) (rank : ℕ) : ℕ → ℕ → List (Instr Act)
  | 0, _ => []
  | left + 1, iteration =>
    p.treeProgram o iteration rank ++
      if p.treeFails o rank iteration then []
      else p.restProgram o iteration rank ++ rankFrom o rank left (iteration + 1)

def rankProgram (o : Outcomes) (rank : ℕ) : List (Instr Act) := p.rankFrom o rank p.iterations 0

/-- The first iteration whose tree creation fails. -/
def firstFailure (o : Outcomes) (rank : ℕ) : Option ℕ :=
  (List.range' 0 p.iterations).find? (p.treeFails o rank)

variable {p}

/-! ## Counting the waits -/

/-- The waits of a phase. -/
def phaseWaits (p : Params) : ℕ := if p.barriers then 2 else 0

theorem waits_phaseProgram (body : List Act) : waits (p.phaseProgram body) = p.phaseWaits := by
  rw [phaseProgram, phaseWaits, waits_append, waits_append, waits_map_op]
  cases p.barriers <;> rfl

/-- The waits of an iteration after its tree creation, by the options alone. -/
def restWaits (p : Params) : ℕ :=
  let phases := fun (on : Bool) => if on then p.phaseWaits else 0
  (if p.createOnly then 1 else 0) +
  (if p.dirsOnly then phases p.createOnly + phases p.statOnly + phases p.readOnly +
    phases (p.renameDirs && decide (1 < p.items)) + phases p.removeOnly else 0) +
  (if p.filesOnly then phases p.createOnly + phases p.statOnly + phases p.readOnly +
    phases p.removeOnly else 0) +
  1 + if p.removeOnly then 1 else 0

theorem waits_ite (b : Bool) (x y : List (Instr Act)) :
    waits (if b then x else y) = if b then waits x else waits y := by cases b <;> rfl

/-- Every rank that gets past the tree creation waits equally often in the rest of an iteration. -/
theorem waits_restProgram (o : Outcomes) (iteration rank : ℕ) :
    waits (p.restProgram o iteration rank) = p.restWaits := by
  have hdelay : ∀ c : Prop, [Decidable c] →
      waits (if c then [Instr.op Act.sleep] else []) = 0 := by
    intro c _
    split <;> rfl
  have hdirs : waits (p.dirPhases o iteration rank) =
      (if p.createOnly then p.phaseWaits else 0) + (if p.statOnly then p.phaseWaits else 0) +
      (if p.readOnly then p.phaseWaits else 0) +
      (if p.renameDirs && decide (1 < p.items) then p.phaseWaits else 0) +
      if p.removeOnly then p.phaseWaits else 0 := by
    simp only [dirPhases, waits_append, waits_ite, waits_phaseProgram, hdelay, waits, Nat.zero_add]
  have hfiles : waits (p.filePhases o iteration rank) =
      (if p.createOnly then p.phaseWaits else 0) + (if p.statOnly then p.phaseWaits else 0) +
      (if p.readOnly then p.phaseWaits else 0) + if p.removeOnly then p.phaseWaits else 0 := by
    simp only [filePhases, waits_append, waits_ite, waits_phaseProgram, hdelay, waits, Nat.zero_add]
  simp only [restProgram, waits_append, waits_ite, waits_map_op, hdirs, hfiles, waits, restWaits,
    Nat.zero_add]

theorem waits_treeProgram (o : Outcomes) (iteration rank : ℕ) :
    waits (p.treeProgram o iteration rank) = if p.createOnly then 1 else 0 := by
  simp only [treeProgram, waits_ite, waits_append, waits_map_op, waits, Nat.zero_add]

/-- The waits of a whole iteration. -/
def iterationWaits (p : Params) : ℕ := (if p.createOnly then 1 else 0) + p.restWaits

/-- The waits of a rank, by the first iteration that fails. -/
theorem waits_rankFrom (o : Outcomes) (rank left iteration : ℕ) :
    waits (p.rankFrom o rank left iteration) =
      match (List.range' iteration left).find? (p.treeFails o rank) with
      | some k => (k - iteration) * p.iterationWaits + 1
      | none => left * p.iterationWaits := by
  induction left generalizing iteration with
  | zero => simp [rankFrom, waits]
  | succ left ih =>
    rw [rankFrom, waits_append, waits_treeProgram, List.range'_succ, List.find?_cons]
    cases hf : p.treeFails o rank iteration with
    | true =>
      have hc : p.createOnly = true := by
        rw [treeFails, Bool.and_eq_true] at hf
        exact hf.1
      simp [hc, waits]
    | false =>
      simp only [Bool.false_eq_true, if_false]
      rw [waits_append, waits_restProgram, ih]
      cases hfind : (List.range' (iteration + 1) left).find? (p.treeFails o rank) with
      | none =>
        simp only [iterationWaits, Nat.succ_mul]
        omega
      | some k =>
        have hk := List.mem_of_find?_eq_some hfind
        rw [List.mem_range'_1] at hk
        have hsub : k - iteration = k - (iteration + 1) + 1 := by omega
        simp only [hsub, iterationWaits, Nat.succ_mul]
        omega

/-- The waits of a rank whose first failing iteration is `f`. -/
def waitsUntil (p : Params) : Option ℕ → ℕ
  | some k => k * p.iterationWaits + 1
  | none => p.iterations * p.iterationWaits

theorem waits_rankProgram (o : Outcomes) (rank : ℕ) :
    waits (p.rankProgram o rank) = p.waitsUntil (p.firstFailure o rank) := by
  rw [rankProgram, waits_rankFrom, ← firstFailure]
  cases p.firstFailure o rank <;> rfl

end Params

end Fstest.Mdtest
