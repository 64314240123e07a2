import Fstest.Fsmark.Names
import Fstest.Fsmark.Run
import Fstest.Lib.Bytes
import Fstest.Lib.Debts

/-!
# The threads of fsmark

`runThread` is `run_thread`: it makes the files one by one, flushes them as the sync method says, and
removes them unless they are to be kept. It gives the times of its calls, from which the report makes its
row (`Params.runThread`), and the names of its files.

The threads share a `Disk`. It has what the calls see of a file, and what of it has come to the disk. Which
calls fail, how long they take and what the clock says is up to the `Mood` in which a call finds the kernel.
-/

namespace Fstest.Fsmark

open Threads

/-! ## Calls -/

inductive IoError where
  | alreadyExists
  | notFound
  | other (message : String)
  deriving DecidableEq, Repr

def IoError.text : IoError → String
  | alreadyExists => "File exists (os error 17)"
  | notFound => "No such file or directory (os error 2)"
  | other message => message

/-- `create` makes a file or empties the one that is there. A handle is given by its file. The kernel writes
a file back at a time of its own. -/
inductive Call where
  | now
  | mkdir (dir : String)
  | statfs (dir : String)
  | create (path : String)
  | openRead (path : String)
  | write (path : String) (pos : ℕ) (data : Bytes)
  | fsync (path : String)
  | close (path : String)
  | sync
  | unlink (path : String)
  | writeback (path : String)

structure Disk where
  file : String → Option Bytes
  durable : String → Option Bytes

structure Mood where
  failure : Option IoError := none
  us : ℕ := 1
  nanos : ℕ := 0
  free : ℕ := 0
  /-- The bytes that a write that fails has written. -/
  kept : ℕ := 0

structure Machine extends Disk where
  moods : ℕ → Mood
  calls : ℕ := 0

/-- The answer to a call: the time or the free bytes where these are asked for. -/
structure Reply where
  result : Except IoError ℕ
  us : ℕ

def Reply.isOk (r : Reply) : Bool := r.result.isOk

def Disk.put (d : Disk) (path : String) (pos : ℕ) (data : Bytes) : Disk :=
  { d with file := Function.update d.file path ((d.file path).map (overwrite · pos data)) }

/-- What a call does if nothing fails but itself. -/
def Disk.perform (d : Disk) (mood : Mood) : Call → Except IoError ℕ × Disk
  | .now => (.ok mood.nanos, d)
  | .mkdir _ => (.ok 0, d)
  | .statfs _ => (.ok mood.free, d)
  | .create path => (.ok 0, { d with file := Function.update d.file path (some []) })
  | .openRead path => (if (d.file path).isSome then .ok 0 else .error .notFound, d)
  | .write path pos data => (.ok 0, d.put path pos data)
  | .fsync path => (.ok 0, { d with durable := Function.update d.durable path (d.file path) })
  | .close _ => (.ok 0, d)
  | .sync => (.ok 0, { d with durable := d.file })
  | .unlink path =>
    if (d.file path).isSome then (.ok 0, { d with file := Function.update d.file path none })
    else (.error .notFound, d)
  | .writeback path => (.ok 0, { d with durable := Function.update d.durable path (d.file path) })

/-- What a call does that fails. Neither the clock nor `sync` does. -/
def Disk.fail (d : Disk) (mood : Mood) (e : IoError) : Call → Except IoError ℕ × Disk
  | .write path pos data => (.error e, d.put path pos (data.take mood.kept))
  | .now => d.perform mood .now
  | .sync => d.perform mood .sync
  | .close path => d.perform mood (.close path)
  | .writeback path => d.perform mood (.writeback path)
  | _ => (.error e, d)

def Disk.apply (d : Disk) (mood : Mood) (c : Call) : Except IoError ℕ × Disk :=
  match mood.failure with
  | some e => d.fail mood e c
  | none => d.perform mood c

def eff (c : Call) (m : Machine) : Reply × Machine :=
  let mood := m.moods m.calls
  let (result, disk) := m.toDisk.apply mood c
  ({ result, us := mood.us }, { m with toDisk := disk, calls := m.calls + 1 })

/-! ## Programs -/

abbrev Thread := ExceptT RunErr (Prog Call Reply)

def ask (c : Call) : Thread Reply := ExceptT.lift (Prog.ask c)

/-- `map_err(RunErr::Io)?`: a call whose error ends the thread. -/
def sys (c : Call) : Thread Reply := do
  let r ← ask c
  match r.result with
  | .ok _ => pure r
  | .error e => throw (.io e.text)

/-- `unix_nanos` -/
def unixNanos : Thread ℕ := do
  let r ← sys .now
  pure (r.result.toOption.getD 0)

def unixSecs : Thread ℕ := do
  let nanos ← unixNanos
  pure (nanos / 1000000000)

def mkdirEexist (dir : String) : Thread Unit := do
  let r ← ask (.mkdir dir)
  match r.result with
  | .ok _ | .error .alreadyExists => pure ()
  | .error e => throw (.io e.text)

/-- `Path::join` with a file name. -/
def join (dir name : String) : String := if dir.endsWith "/" then dir ++ name else dir ++ "/" ++ name

/-- A part that is left out unless `c`. -/
def provided {α : Type} (c : Prop) [Decidable c] (x : Thread α) (otherwise : α) : Thread α :=
  if c then x else pure otherwise

/-- What a thread has at its end. -/
structure ThreadRun where
  times : ThreadTimes
  names : List String

namespace FileParams

variable (p : FileParams)

def setupFileName (st : ThreadState) : Thread (String × ThreadState) := do
  let secTime ← unixSecs
  let (subdir, st) := p.chooseSubdir st secTime
  let targetDir := st.dir ++ "/" ++ (subdir.map subdirName).getD ""
  mkdirEexist targetDir
  let (name, rng) := p.fileName secTime st.rng
  pure (join targetDir name, { st with rng })

/-- `buf.len().min(left)` -/
def chunk (buf : Bytes) (left : ℕ) : ℕ := if buf.length < left then buf.length else left

/-- The loop of `write_file` from `pos` on, with the times of the writes. -/
def writeFile (path : String) (buf : Bytes) : ℕ → ℕ → ℕ → Thread (List ℕ)
  | 0, _, _ => pure []
  | fuel + 1, pos, left =>
    if left = 0 then pure []
    else do
      let r ← sys (.write path pos (buf.take (chunk buf left)))
      let rest ← writeFile path buf fuel (pos + chunk buf left) (left - chunk buf left)
      pure (r.us :: rest)

def ioBuffer : Bytes := List.replicate p.ioSize 0

/-- What is done for one file before it is closed; the loop of the writes goes round once for each byte at
most. -/
def makeFile (path : String) : Thread FileTimes := do
  let creat ← sys (.create path)
  let writes ← writeFile path p.ioBuffer p.fileSize 0 p.fileSize
  let fsync ← provided (p.syncBits &&& fsyncBeforeClose ≠ 0) (Reply.us <$> sys (.fsync path)) 0
  let close ← ask (.close path)
  pure { creat := creat.us, writes, fsync, close := close.us, postFsync := 0, unlink := 0 }

/-- The loop over the files. -/
def makeFiles : ℕ → ThreadState → Thread (List (String × FileTimes))
  | 0, _ => pure []
  | n + 1, st => do
    let (path, st) ← p.setupFileName st
    let times ← p.makeFile path
    let rest ← makeFiles n st
    pure ((path, times) :: rest)

end FileParams

/-- Some call for each name, with its time. -/
def timesOf (f : String → Thread ℕ) : List String → Thread (List ℕ)
  | [] => pure []
  | path :: rest => do
    let us ← f path
    let more ← timesOf f rest
    pure (us :: more)

/-- `post_fsync` -/
def postFsync (path : String) : Thread ℕ := do
  let opened ← sys (.openRead path)
  let flushed ← sys (.fsync path)
  let closed ← ask (.close path)
  pure (opened.us + flushed.us + closed.us)

def removeFile (path : String) : Thread ℕ := Reply.us <$> sys (.unlink path)

namespace FileParams

variable (p : FileParams)

/-- What comes after the loop over the files: the rest of the calls that flush. -/
def flush (names : List String) : Thread (ℕ × List ℕ × ℕ) := do
  let sync ← provided (p.syncBits &&& fsyncSyncSyscall ≠ 0) (Reply.us <$> sys .sync) 0
  let inOrder ← provided (p.syncBits &&& fsyncPostInOrder ≠ 0) (timesOf postFsync names) []
  let reverse ← provided (p.syncBits &&& fsyncPostReverse ≠ 0) (timesOf postFsync names.reverse) []
  let first ← provided (p.syncBits &&& fsyncFirstFile ≠ 0) (postFsync (names.headD "")) 0
  pure (sync, inOrder ++ reverse.reverse, first)

/-- The end of a thread. -/
def finish (loopStart : ℕ) (files : List (String × FileTimes)) : Thread ThreadRun := do
  let names := files.map (·.1)
  let (sync, post, firstFsync) ← p.flush names
  let loopEnd ← unixNanos
  let unlinks ← provided (p.keepFiles = false) (timesOf removeFile names) []
  let times := (files.map (·.2)).mapIdx fun i f =>
    { f with postFsync := post.getD i 0, unlink := unlinks.getD i 0 }
  pure { times := { files := times, sync, firstFsync, loop := (loopEnd - loopStart) / 1000 }, names }

def runThread (dirIndex : ℕ) : Thread ThreadRun := do
  let dir := p.dirs.getD (dirIndex % p.dirs.length) ""
  mkdirEexist dir
  let bytesPerLoop := p.fileSize * p.numFiles
  let free ← sys (.statfs dir)
  provided (free.result.toOption.getD 0 < bytesPerLoop) (throw (.spaceFull dir)) ()
  let nanos ← unixNanos
  let now ← unixSecs
  let st : ThreadState := {
    dir
    rng := UInt64.ofNat nanos ^^^ (UInt64.ofNat dirIndex * SplitMix.gamma)
    currentSubdir := now % (if p.numSubdirs = 0 then 1 else p.numSubdirs)
    startSecTime := 0
    filesInSubdir := 0 }
  let loopStart ← unixNanos
  let files ← p.makeFiles p.numFiles st
  p.finish loopStart files

/-- The threads of an iteration, and what the kernel does meanwhile. -/
def start (kernel : Prog Call Reply (Except RunErr ThreadRun)) (m : Machine) :
    Threads.State (Option (Fin p.threads)) Call Reply (Except RunErr ThreadRun) Machine where
  progs
    | some t => (p.runThread t).run
    | none => kernel
  mem := m

end FileParams

end Fstest.Fsmark
