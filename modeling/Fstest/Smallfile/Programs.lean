import Fstest.Lib.Threads
import Fstest.Smallfile.Calls
import Fstest.Smallfile.Naming

/-!
# The programs of a smallfile suite

`run` goes through the phases of the default sequence. In each phase the main thread makes the base
directories, starts the threads, and goes on when all have ended (`SuiteRun`, `step`). A thread makes
its directories if the phase creates files, waits for the others, and works on its files
(`Worker.threadProgram`).

A sequence of phases runs without the stonewall, so `do_another_file` says yes up to the last file.
Response times and the times of creation are off, as they are by default.
-/

namespace Fstest.Smallfile

/-- Why a thread ends with a status that is not 0: an error of a call, or one of its own (`EIO`). -/
inductive Failure where
  | os (e : FsError)
  | other
  deriving DecidableEq, Repr

abbrev Status := Except Failure Unit

abbrev Thread := ExceptT Failure (Prog Call Reply)

def ask (c : Call) : Thread Reply := ExceptT.lift (Prog.ask c)

/-- A call whose error ends the function. -/
def sys (c : Call) : Thread Answer := do
  match ← ask c with
  | .ok a => pure a
  | .error e => throw (.os e)

/-! ## Directories -/

/-- `Err(_) if path.is_dir() => Ok(())` -/
def okIfDir (d : Path) (e : FsError) : Thread Unit := do
  match ← ask (.stat d) with
  | .ok .dir => pure ()
  | _ => throw (.os e)

/-- `std::fs::create_dir_all` -/
def createDirAll (d : Path) : Thread Unit := do
  match ← ask (.mkdir d) with
  | .ok _ => pure ()
  | .error .noEnt =>
    if _h : d = [] then throw .other
    else
      createDirAll d.dropLast
      match ← ask (.mkdir d) with
      | .ok _ => pure ()
      | .error e => okIfDir d e
  | .error e => okIfDir d e
termination_by d.length
decreasing_by
  have := List.length_pos_iff.mpr _h
  rw [List.length_dropLast]
  omega

def ensureDeleted (p : Path) : Thread Unit := do
  match ← ask (.unlink p) with
  | .ok _ => pure ()
  | .error .noEnt => pure ()
  | .error e => throw (.os e)

theorem ne_nil_of_below {root cur : Path} (h : root <+: cur ∧ cur ≠ root) : cur ≠ [] := by
  rintro rfl
  exact h.2 (List.prefix_nil.mp h.1).symm

/-- The climb of `clean_all_subdirs` from one directory to the root. -/
def climb (root cur : Path) : Thread Unit :=
  if _h : root <+: cur ∧ cur ≠ root then do
    match ← ask (.rmdir cur) with
    | .ok _ => climb root cur.dropLast
    | .error .noEnt => climb root cur.dropLast
    | .error .acces => pure ()
    | .error .busy => pure ()
    | .error .notEmpty => pure ()
    | .error e => throw (.os e)
  else pure ()
termination_by cur.length
decreasing_by
  all_goals
    have := List.length_pos_iff.mpr (ne_nil_of_below _h)
    rw [List.length_dropLast]
    omega

/-! ## Contents of files -/

def biggestBufSize : ℕ := 2 ^ 20

def bufOffsetRange : ℕ := 2 ^ 10

def randomSizeLimit : ℕ := 8

def patternByte (k : ℕ) : UInt8 :=
  let b := UInt8.ofNat (k % 128)
  if b = 0x5c then 0x21 else b

def firstBuf : Bytes := (List.range bufOffsetRange).map patternByte

def buildBiggestBuf : Bytes :=
  (List.range 10).foldl (fun buf _ => buf ++ buf) firstBuf ++ firstBuf

/-- `biggest[uo..uo + kb * 1024]` -/
def record (uo kb : ℕ) : Bytes := (buildBiggestBuf.drop uo).take (kb * 1024)

/-- The sizes of the records that make up a file, in KB. The record size is 0 only for files that are
empty (`recordSizeToUse_pos`). -/
def records (rszkb remaining : ℕ) : List ℕ :=
  if 0 < remaining ∧ 0 < rszkb then
    min rszkb remaining :: records rszkb (remaining - min rszkb remaining)
  else []
termination_by remaining

def writeRecords (fnm : Path) (uo : ℕ) : ℕ → List ℕ → Thread Unit
  | _, [] => pure ()
  | pos, nextKb :: rest => do
    let _ ← sys (.write fnm pos (record uo nextKb))
    writeRecords fnm uo (pos + nextKb * 1024) rest

def readRecords (verify : Bool) (fnm : Path) (uo : ℕ) : ℕ → List ℕ → Thread Unit
  | _, [] => pure ()
  | pos, nextKb :: rest => do
    let scratch ← sys (.read fnm pos (nextKb * 1024))
    -- `read_exact` fails at the end of the file.
    if scratch.bytes.length < nextKb * 1024 then throw .other
    else if verify && scratch.bytes != record uo nextKb then throw .other
    else readRecords verify fnm uo (pos + nextKb * 1024) rest

/-! ## Threads -/

/-- The operations of the default sequence. -/
inductive SuiteOp where
  | cleanup
  | create
  | read
  | append
  | rename
  | deleteRenamed
  deriving DecidableEq, Repr

def SuiteOp.opname : SuiteOp → OpName
  | cleanup => .cleanup
  | create => .create
  | read => .read
  | append => .append
  | rename => .rename
  | deleteRenamed => .deleteRenamed

def defaultPhases : List SuiteOp := [.cleanup, .create, .read, .append, .rename, .deleteRenamed, .cleanup]

def SuiteParams.recordSizeToUse (p : SuiteParams) : ℕ :=
  min (if p.recordSzKb = 0 then p.totalSzKb else p.recordSzKb) (biggestBufSize / 1024)

/-- The path with `s` pushed to its end. -/
def suffixed (p : Path) (s : String) : Path := p.dropLast ++ [p.getLastD "" ++ s]

namespace Worker

variable (w : Worker)

def uniqueOffset (filenum : ℕ) : ℕ := (w.tid + 1) * filenum % bufOffsetRange

/-- Each phase makes the draws of a thread again, one for each file. -/
def getNextFileSizeKb (filenum : ℕ) : ℕ :=
  match w.p.filesizeDistr with
  | .fixed => w.p.totalSzKb
  | .exponential =>
    min (max (w.p.draws w.tid filenum) 1) (min (w.p.totalSzKb * randomSizeLimit) (u32Size - 1))

def fileRecords (filenum : ℕ) : List ℕ := records w.p.recordSizeToUse (w.getNextFileSizeKb filenum)

def eachFile (body : ℕ → Thread Unit) : Thread Unit := (List.range' 1 w.p.iterations).forM body

def makeAllSubdirs : Thread Unit :=
  if w.p.isSharedDir && w.tid != 0 then pure ()
  else (dirset (w.subdirs .src ++ w.subdirs .dest)).forM createDirAll

def cleanAllSubdirs : Thread Unit :=
  if w.p.isSharedDir && w.tid != 0 then pure ()
  else [Side.src, Side.dest].forM fun s =>
    (dirset (w.subdirs s)).forM (climb ((w.baseDirs s).headD []))

def doCreate : Thread Unit := w.eachFile fun filenum => do
  let fnm := w.mkFileNm .src filenum
  let _ ← sys (.createNew fnm)
  writeRecords fnm (w.uniqueOffset filenum) 0 (w.fileRecords filenum)

def doWrite (append truncate : Bool) : Thread Unit := w.eachFile fun filenum => do
  let fnm := w.mkFileNm .src filenum
  let _ ← sys (.openFile fnm truncate)
  let pos ← if append then sys (.seekEnd fnm) else pure (.size 0)
  writeRecords fnm (w.uniqueOffset filenum) pos.length (w.fileRecords filenum)

def doRead : Thread Unit := w.eachFile fun filenum => do
  let fnm := w.mkFileNm .src filenum
  let _ ← sys (.openFile fnm false)
  readRecords w.p.verifyRead fnm (w.uniqueOffset filenum) 0 (w.fileRecords filenum)

/-- Where a file is after its rename. -/
def renamed (filenum : ℕ) : Path :=
  let fn2 := w.mkFileNm .dest filenum
  if w.baseDirs .src = w.baseDirs .dest then suffixed fn2 ".rnm" else fn2

def doRename : Thread Unit := w.eachFile fun filenum => do
  let _ ← sys (.rename (w.mkFileNm .src filenum) (w.renamed filenum))

def doDeleteRenamed : Thread Unit := w.eachFile fun filenum => do
  let _ ← sys (.unlink (w.renamed filenum))

def cleanupFile (filenum : ℕ) : Thread Unit := do
  let basenm := w.mkFileNm .src filenum
  let dest := w.mkFileNm .dest filenum
  [suffixed dest ".s", basenm, suffixed basenm ".rnm", dest, suffixed dest ".rnm"].forM ensureDeleted
  let dir := suffixed basenm ".d"
  match ← ask (.stat dir) with
  | .ok _ => do
    let _ ← sys (.rmdir dir)
  | .error _ => pure ()

def doCleanup : Thread Unit := do
  w.eachFile w.cleanupFile
  w.cleanAllSubdirs

def runOp : SuiteOp → Thread Unit
  | .cleanup => w.doCleanup
  | .create => w.doCreate
  | .read => w.doRead
  | .append => w.doWrite true false
  | .rename => w.doRename
  | .deleteRenamed => w.doDeleteRenamed

def setup (op : SuiteOp) : Thread Unit := if needsSetup op.opname then w.makeAllSubdirs else pure ()

/-- The closure that `run_phase` spawns, once the worker is made. -/
def threadProgram (op : SuiteOp) : Thread Unit := do
  let _ ← w.setup op
  ExceptT.lift Prog.pause
  w.runOp op

end Worker

/-! ## The suite -/

def SuiteParams.createBases (p : SuiteParams) : Thread Unit := [p.srcBase, p.destBase].forM createDirAll

/-- How the threads of a phase have ended. -/
abbrev PhaseOutcomes (p : SuiteParams) := Fin p.threads → Option Status

/-- Where a run of the suite is: in the main thread between two phases, in a phase, or at its end. -/
inductive SuiteRun (p : SuiteParams) where
  | main (todo : List SuiteOp) (outcomes : List (PhaseOutcomes p)) (tree : NameTree Bytes)
  | phase (todo : List SuiteOp) (outcomes : List (PhaseOutcomes p))
    (threads : Threads.State (Fin p.threads) Call Reply Status (NameTree Bytes))
  | returned (outcomes : Except Failure (List (PhaseOutcomes p))) (tree : NameTree Bytes)
  | panicked

namespace SuiteRun

variable {p : SuiteParams}

def start (p : SuiteParams) (tree : NameTree Bytes) : SuiteRun p := .main defaultPhases [] tree

/-- A step of the main thread (`none`), or of the threads of a phase. The main thread has the tree for
itself between the phases. All threads compute the same names, so if one panics, all do. -/
def step : SuiteRun p → Option (Option (Fin p.threads)) → Option (SuiteRun p)
  | main [] outcomes tree, none => some (returned (.ok outcomes) tree)
  | main (op :: todo) outcomes tree, none =>
    match p.createBases.run.exec apply tree with
    | (.error e, tree') => some (returned (.error e) tree')
    | (.ok (), tree') =>
      match p.fileDirs with
      | none => some panicked
      | some dirs =>
        some (phase todo outcomes ⟨fun t => ((Worker.mk p t dirs).threadProgram op).run, tree'⟩)
  | phase todo outcomes s, none =>
    if ∀ t, (s.progs t).result?.isSome then
      some (main todo (outcomes ++ [fun t => (s.progs t).result?]) s.mem)
    else none
  | phase todo outcomes s, some a => (Threads.step apply s a).map (phase todo outcomes)
  | _, _ => none

end SuiteRun

end Fstest.Smallfile
