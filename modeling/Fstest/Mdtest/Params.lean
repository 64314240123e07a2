import Fstest.Lib.LevelOrder
import Fstest.Lib.Path

/-!
# The options of mdtest and the paths they lead to

`configure` is the part of `run` before its threads: the checks of the options and the arithmetic of
the tree. The `u32` and `u64` operations there are checked, so options whose tree does not fit are
rejected as `overflow`. Behind it numbers are naturals: every directory number is below the
number of directories, which `configure` has bounded. Only the target rank of a phase is a word that
wraps around, since nothing bounds the stride; `StrideFits` says that it does not.
-/

namespace Fstest.Mdtest

structure Args where
  threads : UInt32 := 1
  branchFactor : ℕ := 1
  depth : ℤ := 0
  itemsPerDir : ℕ := 0
  items : ℕ := 0
  iterations : ℕ := 1
  uniqueDir : Bool := false
  filesOnly : Bool := false
  dirsOnly : Bool := false
  createOnly : Bool := false
  statOnly : Bool := false
  readOnly : Bool := false
  removeOnly : Bool := false
  renameDirs : Bool := false
  leafOnly : Bool := false
  writeBytes : ℕ := 0
  readBytes : ℕ := 0
  syncFile : Bool := false
  syncAfterPhase : Bool := false
  nstride : ℕ := 0
  random : Bool := false
  randomSeed : ℕ := 0
  stonewall : ℕ := 0
  noBarriers : Bool := false
  preDelay : ℕ := 0
  verifyRead : Bool := false

structure Params where
  threads : ℕ
  branchFactor : ℕ
  depth : ℕ
  itemsPerDir : ℕ
  items : ℕ
  iterations : ℕ
  uniqueDir : Bool
  dirsOnly : Bool
  filesOnly : Bool
  createOnly : Bool
  statOnly : Bool
  readOnly : Bool
  removeOnly : Bool
  renameDirs : Bool
  leafOnly : Bool
  writeBytes : ℕ
  readBytes : ℕ
  syncFile : Bool
  syncAfterPhase : Bool
  nstride : ℕ
  random : Bool
  randomSeed : ℕ
  stonewall : ℕ
  barriers : Bool
  preDelay : ℕ
  verifyRead : Bool
  numDirsInTree : ℕ
  directoryLoops : ℕ
  top : Path

/-! ## Checking the options -/

/-- Why `run` does not start: an error that it reports, or an arithmetic overflow. -/
inductive Reject where
  | message (text : String)
  | overflow
  deriving DecidableEq, Repr

/-- `base.pow(exp)` on `u32`. -/
def powU32 (base exp : ℕ) : Except Reject ℕ :=
  if base ^ exp < 2 ^ 32 then .ok (base ^ exp) else .error .overflow

/-- `a * b` on `u64`. -/
def mulU64 (a b : ℕ) : Except Reject ℕ :=
  if a * b < 2 ^ 64 then .ok (a * b) else .error .overflow

/-- The first check that the options do not pass. -/
def rejection (a : Args) (readOnly createOnly barriers : Bool) : Option String :=
  if 0 < a.stonewall ∧ (1 < a.branchFactor ∨ barriers = false) then
    some "stonewall timer only works with branch factor <= 1 and with barriers"
  else if barriers = false ∧ a.nstride ≠ 0 then
    some "no-barriers is not compatible with nstride (races between phases)"
  else if a.depth < 0 then some "depth must be >= 0"
  else if a.branchFactor < 1 ∧ 0 < a.depth then
    some "branch factor must be >= 1 when depth > 0"
  else if 0 < a.items ∧ 0 < a.itemsPerDir ∧ a.uniqueDir then
    some "specify either items or items per directory, not both"
  else if 0 < a.items ∧ 0 < a.itemsPerDir ∧ a.items % a.itemsPerDir ≠ 0 then
    some "items must be a multiple of items per directory"
  else if a.verifyRead ∧ readOnly = false then
    some "verify-read requires the read phase (--read-only)"
  else if a.verifyRead ∧ a.readBytes = 0 then some "verify-read requires read bytes > 0"
  else if createOnly ∧ readOnly ∧ a.writeBytes < a.readBytes then
    some "read bytes must be <= write bytes when writing and reading"
  else none

/-- The number of directories in the tree. -/
def numDirsInTree (a : Args) : Except Reject ℕ :=
  if a.depth ≤ 0 ∨ a.branchFactor < 1 then .ok 1
  else if a.branchFactor = 1 then .ok (a.depth.toNat + 1)
  else do
    let n ← powU32 a.branchFactor (a.depth.toNat + 1)
    return (n - 1) / (a.branchFactor - 1)

/-- The number of items of a rank, and of items per directory. -/
def itemCounts (a : Args) (numDirs : ℕ) : Except Reject (ℕ × ℕ) :=
  if 0 < a.itemsPerDir then
    if a.items = 0 then
      if a.leafOnly then do
        let leafDirs ← powU32 a.branchFactor a.depth.toNat
        let items ← mulU64 a.itemsPerDir leafDirs
        return (items, a.itemsPerDir)
      else do
        let items ← mulU64 a.itemsPerDir numDirs
        return (items, a.itemsPerDir)
    else .ok (a.items, a.itemsPerDir)
  else do
    let leafDirs ← powU32 a.branchFactor a.depth.toNat
    let ipd :=
      if a.leafOnly then if a.branchFactor ≤ 1 then a.items else a.items / leafDirs
      else a.items / numDirs
    let items ← mulU64 ipd (if a.leafOnly then leafDirs else numDirs)
    return (items, ipd)

/-- `run` up to its threads. `now` is the clock that seeds a random order without a seed. -/
def configure (a : Args) (top : Path) (now : ℕ) : Except Reject Params :=
  let all := !a.createOnly && !a.statOnly && !a.readOnly && !a.removeOnly && !a.renameDirs
  let both := !a.dirsOnly && !a.filesOnly
  match rejection a (a.readOnly || all) (a.createOnly || all) !a.noBarriers with
  | some text => .error (.message text)
  | none => do
    let numDirs ← numDirsInTree a
    let (items, itemsPerDir) ← itemCounts a numDirs
    if itemsPerDir = 0 then
      .error (.message "computed zero items per directory; set --items or --items-per-dir")
    else return {
      threads := max a.threads.toNat 1
      branchFactor := a.branchFactor
      depth := a.depth.toNat
      itemsPerDir, items
      iterations := a.iterations
      uniqueDir := a.uniqueDir
      dirsOnly := a.dirsOnly || both
      filesOnly := a.filesOnly || both
      createOnly := a.createOnly || all
      statOnly := a.statOnly || all
      readOnly := a.readOnly || all
      removeOnly := a.removeOnly || all
      renameDirs := a.renameDirs || all
      leafOnly := a.leafOnly
      writeBytes := a.writeBytes
      readBytes := a.readBytes
      syncFile := a.syncFile
      syncAfterPhase := a.syncAfterPhase
      nstride := a.nstride
      random := a.random
      randomSeed := if a.random ∧ a.randomSeed = 0 then now else a.randomSeed
      stonewall := a.stonewall
      barriers := !a.noBarriers
      preDelay := a.preDelay
      verifyRead := a.verifyRead
      numDirsInTree := numDirs
      directoryLoops :=
        if 0 < a.items ∧ 0 < a.itemsPerDir ∧ !a.uniqueDir then
          a.items / a.itemsPerDir % 2 ^ 32
        else 1
      top }

/-! ## Paths -/

namespace Params

variable (p : Params)

def testdir (iteration dirIter : ℕ) : Path :=
  p.top ++ ["test-dir." ++ toString iteration ++ "-" ++ toString dirIter]

/-- The rank whose items a rank accesses in a phase. -/
def shifted (rank phase : ℕ) : ℕ := (rank + phase * p.nstride) % 2 ^ 32 % p.threads

/-- No target rank overflows. There are the phases 0 to 3. -/
def StrideFits : Prop := ∀ rank < p.threads, ∀ phase ≤ 3, rank + phase * p.nstride < 2 ^ 32

instance : Decidable p.StrideFits :=
  inferInstanceAs (Decidable (∀ rank < p.threads, ∀ phase ≤ 3, rank + phase * p.nstride < 2 ^ 32))

def baseTreeName (target : ℕ) : String :=
  if p.uniqueDir then "mdtest_tree." ++ toString target else "mdtest_tree"

def treeRoot (iteration dirIter target : ℕ) : Path :=
  if p.uniqueDir then p.testdir iteration dirIter ++ ["mdtest_tree." ++ toString target ++ ".0"]
  else p.testdir iteration dirIter ++ ["mdtest_tree.0"]

/-- The name of an item. -/
def itemName (dirs : Bool) (namePrefix : String) (itemNum : ℕ) : String :=
  (if dirs then "dir." else "file.") ++ namePrefix ++ toString itemNum

/-- The path of an item below the root of its tree. The directories are found from the number. -/
def itemPath (base : String) (dirs : Bool) (namePrefix : String) (itemNum : ℕ) : Path :=
  let parent := itemNum / p.itemsPerDir
  let dirNums := if 0 < parent then LevelOrder.ancestors p.branchFactor parent else []
  (dirNums.map fun d => base ++ "." ++ toString d) ++ [itemName dirs namePrefix itemNum]

def leafOffset : ℕ :=
  if p.leafOnly then p.itemsPerDir * (p.numDirsInTree - p.branchFactor ^ p.depth) else 0

/-- `RankCtx::prefix`. -/
def itemPrefix (rank phase : ℕ) : String := "mdtest." ++ toString (p.shifted rank phase) ++ "."

def stopItems : ℕ := if p.directoryLoops ≠ 1 then p.itemsPerDir else p.items

end Params

end Fstest.Mdtest
