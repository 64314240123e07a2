import Fstest.Lib.Barrier
import Fstest.Mdtest.Content
import Mathlib.Data.Finset.Insert

/-!
# The ranks of mdworkbench

`rankProgram` is what one rank does, phase by phase, with the stonewall timer off, as a
straight-line program over the store of the ranks: the data sets and the objects in them. Whether an
operation finds its object is decided by `exec` on the store, and so is what the rank then leaves
out. Arithmetic wraps around, as in a build without overflow checks.
-/

namespace Fstest.Mdworkbench

open Barrier

/-- The parameters of a run, of the machine types of the source. -/
structure Params where
  threads : ℕ
  num : ℕ
  precreate : ℕ
  dsetCount : ℕ
  fileSize : ℕ
  iterations : ℕ
  offset : ℕ
  phasePrecreate : Bool
  phaseBenchmark : Bool
  phaseCleanup : Bool
  readOnly : Bool
  verifyRead : Bool
  seed : ℕ
  startItem : ℕ
  threads_pos : 0 < threads
  threads_lt : threads < 2 ^ 32
  num_lt : num < 2 ^ 64
  precreate_lt : precreate < 2 ^ 64
  dsetCount_lt : dsetCount < 2 ^ 64
  startItem_lt : startItem < 2 ^ 64

/-- An entry of the working directory: a data set, or an object in one. -/
inductive Entry where
  | dset (rank d : ℕ)
  | obj (rank d i : ℕ)
  deriving DecidableEq, Repr

/-- The entry is an object in the data set. -/
def Entry.inDset (rank d : ℕ) : Entry → Bool
  | .obj r d' _ => r == rank && d' == d
  | .dset _ _ => false

/-- The counters of a phase. -/
structure PhaseStat where
  dsetCreate : ℕ := 0
  dsetDelete : ℕ := 0
  objCreate : ℕ := 0
  objRead : ℕ := 0
  objStat : ℕ := 0
  objDelete : ℕ := 0
  errors : ℕ := 0
  deriving DecidableEq, Repr

/-- An operation of a rank. `start` and `push` are the ends of its function for a phase. -/
inductive Act where
  | start
  | push
  | createDset (rank d : ℕ)
  | precreate (rank d i : ℕ)
  | stat (rank d i : ℕ)
  | read (rank d i : ℕ)
  | delete (rank d i : ℕ)
  | create (rank d i : ℕ)
  | unlink (rank d i : ℕ)
  | removeDset (rank d : ℕ)
  | removePrefix
  deriving DecidableEq, Repr

/-- What a rank keeps to itself: the counters of its phase and of the phases before, and whether it
leaves out operations, those on an object that it did not find or all after an early return. -/
structure Rank where
  stat : PhaseStat := {}
  slots : List PhaseStat := []
  skip : Bool := false

/-- The working directory, and what each rank keeps to itself. -/
structure Store (n : ℕ) where
  entries : Finset Entry
  content : Entry → Bytes
  prefixDir : Bool
  ranks : Fin n → Rank

namespace Params

variable (p : Params)

/-- `(x as i64)` of a `u64`. -/
def asI64 (x : ℤ) : ℤ := x.bmod (2 ^ 64)

/-- The distance of readers and writers in a data set. -/
def shift (d : ℕ) : ℕ := p.offset * (d + 1) % 2 ^ 64

def readRank (rank d : ℕ) : ℕ :=
  (asI64 (((rank : ℤ) + p.threads) - asI64 (p.shift d)) % p.threads).toNat

def writeRank (rank d : ℕ) : ℕ := (rank + p.shift d) % 2 ^ 64 % p.threads

/-- The contents of object `i` of a data set. -/
def pattern (rank d i : ℕ) : Bytes :=
  Mdtest.contentPattern p.seed rank ((i * p.dsetCount + d) % 2 ^ 64) p.fileSize

/-! ## The phases -/

def precreateRank (rank currentIndex : ℕ) : List Act :=
  (List.range p.dsetCount).map (.createDset rank) ++
    (List.range' currentIndex (p.precreate - currentIndex)).flatMap fun f =>
      (List.range p.dsetCount).map fun d => .precreate rank d f

/-- What a rank does in data set `d` for the object `prevFile`. -/
def benchmarkStep (rank prevFile d : ℕ) : List Act :=
  let readRank := p.readRank rank d
  .stat readRank d prevFile :: .read readRank d prevFile ::
    if p.readOnly then []
    else [.delete readRank d prevFile,
      .create (p.writeRank rank d) d ((p.precreate + prevFile) % 2 ^ 64)]

def benchmarkRank (rank startIndex : ℕ) : List Act :=
  (List.range p.num).flatMap fun f =>
    (List.range p.dsetCount).flatMap (p.benchmarkStep rank ((f + startIndex) % 2 ^ 64))

def cleanupRank (rank startIndex : ℕ) : List Act :=
  (List.range p.dsetCount).flatMap fun d =>
    ((List.range p.precreate).map fun f => .unlink rank d ((f + startIndex) % 2 ^ 64)) ++
      [.removeDset rank d]

/-- `current_index` after some iterations of the benchmark. -/
def currentIndex : ℕ → ℕ
  | 0 => p.startItem
  | k + 1 => if p.readOnly then currentIndex k else (currentIndex k + p.num) % 2 ^ 64

/-- The phases of a rank, in order. -/
def phases (rank : ℕ) : List (List Act) :=
  (if p.phasePrecreate then [p.precreateRank rank p.startItem] else []) ++
  (if p.phaseBenchmark then
    (List.range p.iterations).map fun it => p.benchmarkRank rank (p.currentIndex it)
  else []) ++
  if p.phaseCleanup then
    [p.cleanupRank rank (if p.phaseBenchmark then p.currentIndex p.iterations else p.startItem)]
  else []

/-- A phase between its barriers. -/
def phaseProgram (body : List Act) : List (Instr Act) :=
  round (.start :: body ++ [.push])

/-- The thread of a rank. -/
def rankProgram (rank : ℕ) : List (Instr Act) :=
  (p.phases rank).flatMap phaseProgram ++
    if p.phaseCleanup ∧ rank = 0 then [.op .removePrefix] else []

/-! ## What an operation does -/

/-- `open` without truncation, and a write from the start. -/
def writeOver (new old : Bytes) : Bytes := new ++ old.drop new.length

end Params

namespace Rank

/-- The rank counts something. -/
def count (f : PhaseStat → PhaseStat) (r : Rank) : Rank := { r with stat := f r.stat }

def error : Rank → Rank := count fun c => { c with errors := c.errors + 1 }

end Rank

namespace Store

variable {n : ℕ}

def modifyRank (s : Store n) (t : Fin n) (f : Rank → Rank) : Store n :=
  { s with ranks := Function.update s.ranks t (f (s.ranks t)) }

/-- Opens an object for writing, where its data set is there, and writes its contents. -/
def write (s : Store n) (rank d i : ℕ) (bytes : Bytes) : Store n :=
  { s with
    entries := insert (.obj rank d i) s.entries
    content := Function.update s.content (.obj rank d i)
      (Params.writeOver bytes
        (if .obj rank d i ∈ s.entries then s.content (.obj rank d i) else [])) }

def remove (s : Store n) (e : Entry) : Store n := { s with entries := s.entries.erase e }

end Store

namespace Params

variable (p : Params)

/-- An operation of rank `t`. -/
def exec (t : Fin p.threads) (a : Act) (s : Store p.threads) : Store p.threads :=
  let skip := (s.ranks t).skip
  match a with
  | .start => s.modifyRank t fun r => { r with stat := {}, skip := false }
  | .push => s.modifyRank t fun r => { r with slots := r.slots ++ [r.stat] }
  | .createDset rank d =>
    if .dset rank d ∈ s.entries then s
    else ({ s with entries := insert (.dset rank d) s.entries } : Store p.threads).modifyRank t
      (Rank.count fun c => { c with dsetCreate := c.dsetCreate + 1 })
  | .precreate rank d i =>
    if skip then s
    else if .dset rank d ∈ s.entries then
      (s.write rank d i (p.pattern rank d i)).modifyRank t
        (Rank.count fun c => { c with objCreate := c.objCreate + 1 })
    else s.modifyRank t fun r => { r with skip := true }
  | .stat rank d i =>
    if .obj rank d i ∈ s.entries then
      s.modifyRank t fun r =>
        { r.count fun c => { c with objStat := c.objStat + 1 } with skip := false }
    else s.modifyRank t fun r => { r.error with skip := true }
  | .read rank d i =>
    if skip then s
    else if .obj rank d i ∈ s.entries then
      let bytes := s.content (.obj rank d i)
      if 0 < p.fileSize ∧ bytes.length < p.fileSize then s.modifyRank t Rank.error
      else if p.verifyRead ∧ 0 < p.fileSize ∧ bytes.take p.fileSize ≠ p.pattern rank d i then
        s.modifyRank t Rank.error
      else s.modifyRank t (Rank.count fun c => { c with objRead := c.objRead + 1 })
    else s.modifyRank t Rank.error
  | .delete rank d i =>
    if skip then s
    else if .obj rank d i ∈ s.entries then
      (s.remove (.obj rank d i)).modifyRank t
        (Rank.count fun c => { c with objDelete := c.objDelete + 1 })
    else s.modifyRank t Rank.error
  | .create rank d i =>
    if skip then s
    else if .dset rank d ∈ s.entries then
      (s.write rank d i (p.pattern rank d i)).modifyRank t
        (Rank.count fun c => { c with objCreate := c.objCreate + 1 })
    else s.modifyRank t Rank.error
  | .unlink rank d i =>
    if .obj rank d i ∈ s.entries then
      (s.remove (.obj rank d i)).modifyRank t
        (Rank.count fun c => { c with objDelete := c.objDelete + 1 })
    else s
  | .removeDset rank d =>
    -- The attempt is counted in any case.
    (if ∃ e ∈ s.entries, e.inDset rank d then s else s.remove (.dset rank d)).modifyRank t
      (Rank.count fun c => { c with dsetDelete := c.dsetDelete + 1 })
  | .removePrefix => if s.entries = ∅ then { s with prefixDir := false } else s

/-- The working directory that `run` makes before the ranks start. -/
def emptyStore : Store p.threads where
  entries := ∅
  content := fun _ => []
  prefixDir := true
  ranks := fun _ => {}

/-- The states of the ranks, in any interleaving of their operations. -/
abbrev Reaches (s : State p.threads (Store p.threads) Act) : Prop :=
  Reachable p.exec (fun t => p.rankProgram t) p.emptyStore s

end Params

end Fstest.Mdworkbench
