import Fstest.Fsmark.Stat
import Mathlib.Algebra.Group.Action.Defs
import Mathlib.Algebra.Order.BigOperators.Group.List
import Mathlib.Algebra.Order.Ring.Nat
import Mathlib.Data.List.Basic
import Mathlib.Data.Option.Basic

/-!
# The times that fsmark reports of an iteration

Each thread keeps a `Stat` for each kind of call, `aggregate` merges those of the threads, and the report
divides the totals by the number of files of one thread. Only the average of the writes is divided by the
number of threads too, so it lies between the least and the longest time (`write_consistent`). The averages
of the other calls do for all times only if there is one thread (`averagesBetween_iff`).
-/

namespace Fstest.Fsmark

open Stat

/-! ## The options -/

def maxFiles : ℕ := 1000000
def maxThreads : ℕ := 64
def maxIoBufferSize : ℕ := 1024 * 1024
def maxNamePath : ℕ := 1000
def maxFilenameSize : ℕ := 128

def fsyncBeforeClose : ℕ := 0x1
def fsyncSyncSyscall : ℕ := 0x2
def fsyncFirstFile : ℕ := 0x4
def fsyncPostReverse : ℕ := 0x8
def fsyncPostInOrder : ℕ := 0x10

/-- The sync methods are 0 to 6 (`sync_method_parser`). -/
def syncMethodBits (t : Fin 7) : ℕ :=
  match t with
  | 0 => 0
  | 1 => fsyncBeforeClose
  | 2 => fsyncSyncSyscall ||| fsyncFirstFile
  | 3 => fsyncPostReverse
  | 4 => fsyncPostReverse ||| fsyncSyncSyscall
  | 5 => fsyncPostInOrder
  | 6 => fsyncPostInOrder ||| fsyncSyncSyscall

structure Args where
  dir : List String := []
  files : ℕ := 1000
  fileSize : ℕ := 50 * 1024
  writeSize : ℕ := 16 * 1024
  iterations : ℕ := 0
  syncMethod : Fin 7 := 1
  subdirs : Option ℕ := none
  filesPerSubdir : Option ℕ := none
  nameLen : ℕ := 40
  randLen : ℕ := 24
  threads : ℕ := 1
  keepFiles : Bool := false
  fillFs : Bool := false

structure Params where
  dirs : List String
  threads : ℕ
  numFiles : ℕ
  fileSize : ℕ
  loopCount : ℕ
  syncBits : ℕ
  keepFiles : Bool
  fillFs : Bool
  threads_pos : 0 < threads
  numFiles_pos : 0 < numFiles

def refuse (c : Prop) [Decidable c] (message : String) : Option String := if c then some message else none

theorem refuse_eq_none {c : Prop} [Decidable c] {message : String} : refuse c message = none ↔ ¬ c := by
  rw [refuse]
  split <;> simp_all

/-- The number of threads that run: each directory has one. -/
def Args.numThreads (a : Args) (numDirs : ℕ) : ℕ := if a.threads < numDirs then numDirs else a.threads

/-- The first check that the options do not pass. -/
def rejection (a : Args) (dirs : List String) : Option String :=
  refuse (maxThreads < dirs.length) s!"Max number of threads (and directories) is {maxThreads}" <|>
  (dirs.find? fun d => maxNamePath ≤ d.utf8ByteSize).map
    (fun d => s!"{d} directory pathname too long (must be less than {maxNamePath} bytes)") <|>
  refuse (a.files = 0 ∨ maxFiles < a.files) s!"Max files is {maxFiles}" <|>
  refuse (a.writeSize = 0 ∨ maxIoBufferSize < a.writeSize) s!"MAX IO buffer size is {maxIoBufferSize}" <|>
  refuse (maxFilenameSize < a.nameLen) s!"Max filename size is {maxFilenameSize}" <|>
  refuse (a.nameLen ≤ a.randLen) "random name length must be less than total name length" <|>
  refuse (∃ n ∈ a.subdirs, n < 2) "Number of subdirs needs to be greater than 1" <|>
  refuse (a.filesPerSubdir.isSome ∧ a.subdirs.getD 0 = 0)
    "Must specify more than 1 subdirectory with -D for files-per-subdir to make sense" <|>
  refuse (a.threads = 0 ∨ maxThreads < a.threads) s!"Max threads is {maxThreads}" <|>
  refuse (dirs.length ≤ a.threads ∧ a.threads % dirs.length ≠ 0)
    (s!"Threads ({a.threads}) must be an even multiple the number of directories ({dirs.length})" ++
      s!" and less than {maxThreads}")

variable {a : Args} {dirs : List String}

theorem files_pos_of_rejection (h : rejection a dirs = none) : 0 < a.files := by
  simp only [rejection, Option.orElse_eq_none, refuse_eq_none] at h
  omega

theorem threads_pos_of_rejection (h : rejection a dirs = none) : 0 < a.numThreads dirs.length := by
  simp only [rejection, Option.orElse_eq_none, refuse_eq_none] at h
  rw [Args.numThreads]
  split <;> omega

def resolve (a : Args) (mountpoint : String) : Except String Params :=
  let dirs := mountpoint :: a.dir
  match h : rejection a dirs with
  | some message => .error message
  | none => .ok {
      dirs
      threads := a.numThreads dirs.length
      numFiles := a.files
      fileSize := a.fileSize
      loopCount := a.iterations
      syncBits := syncMethodBits a.syncMethod
      keepFiles := a.keepFiles || decide (0 < a.iterations) || a.fillFs
      fillFs := a.fillFs
      threads_pos := threads_pos_of_rejection h
      numFiles_pos := files_pos_of_rejection h }

/-! ## A thread -/

/-- How long the calls take that a thread makes for a file. -/
structure FileTimes where
  creat : ℕ
  writes : List ℕ
  fsync : ℕ
  close : ℕ
  postFsync : ℕ
  unlink : ℕ
  deriving Repr

/-- The times of a thread in an iteration: those of its files, and of its main loop. -/
structure ThreadTimes where
  files : List FileTimes
  sync : ℕ
  firstFsync : ℕ
  loop : ℕ
  deriving Repr

/-- What a thread reports, but for its rate. -/
structure Row where
  fileCount : ℕ := 0
  appOverheadUsec : ℤ := 0
  creat : Stat := {}
  write : Stat := {}
  writeAvgAcc : ℕ := 0
  fsync : Stat := {}
  syncUsec : ℕ := 0
  close : Stat := {}
  unlink : Stat := {}
  deriving Repr

/-- `write_file`. -/
def Row.writeFile (row : Row) (writes : List ℕ) : Row :=
  { row with
    write := writes.foldl Stat.add row.write
    writeAvgAcc := row.writeAvgAcc + writes.sum / max writes.length 1 }

def Row.postFsync (row : Row) (f : FileTimes) : Row := { row with fsync := row.fsync.add f.postFsync }

def Row.removeFile (row : Row) (f : FileTimes) : Row := { row with unlink := row.unlink.add f.unlink }

/-- The main loop for one file. -/
def Row.makeFile (p : Params) (row : Row) (f : FileTimes) : Row :=
  let row := { row with creat := row.creat.add f.creat }
  let row := row.writeFile f.writes
  let row := if p.syncBits &&& fsyncBeforeClose ≠ 0 then { row with fsync := row.fsync.add f.fsync } else row
  { row with close := row.close.add f.close }

/-- A run of `run_thread` that succeeds. -/
def Params.runThread (p : Params) (t : ThreadTimes) : Row :=
  let row := t.files.foldl (Row.makeFile p) {}
  let row := if p.syncBits &&& fsyncSyncSyscall ≠ 0 then { row with syncUsec := t.sync } else row
  let row := if p.syncBits &&& fsyncPostInOrder ≠ 0 then t.files.foldl Row.postFsync row else row
  let row := if p.syncBits &&& fsyncPostReverse ≠ 0 then t.files.reverse.foldl Row.postFsync row else row
  let row :=
    if p.syncBits &&& fsyncFirstFile ≠ 0 then
      { row with fsync := { row.fsync with total := row.fsync.total + t.firstFsync } }
    else row
  let row := if p.keepFiles then row else t.files.foldl Row.removeFile row
  let totalOps := row.creat.total + row.write.total + row.fsync.total + row.syncUsec + row.close.total
  { row with appOverheadUsec := (t.loop : ℤ) - totalOps, fileCount := p.numFiles }

/-! ## The report -/

structure Agg where
  fileCount : ℕ := 0
  appOverheadUsec : ℤ := 0
  creat : Stat := {}
  write : Stat := {}
  writeAvg : ℕ := 0
  fsync : Stat := {}
  syncTotal : ℕ := 0
  close : Stat := {}
  unlink : Stat := {}
  deriving Repr

def Agg.addRow (a : Agg) (r : Row) : Agg where
  fileCount := a.fileCount + r.fileCount
  appOverheadUsec := a.appOverheadUsec + r.appOverheadUsec
  creat := a.creat.merge r.creat
  write := a.write.merge r.write
  fsync := a.fsync.merge r.fsync
  close := a.close.merge r.close
  unlink := a.unlink.merge r.unlink
  writeAvg := a.writeAvg + r.writeAvgAcc
  syncTotal := a.syncTotal + r.syncUsec

def aggregate (rows : List Row) (threads : ℕ) : Agg :=
  let a := rows.foldl Agg.addRow {}
  if 1 < threads then { a with writeAvg := a.writeAvg / threads } else a

/-- `{"min": .., "avg": .., "max": ..}`. -/
structure Spread where
  min : ℕ
  avg : ℕ
  max : ℕ
  deriving DecidableEq, Repr

/-- The times of a row, and of an iteration in the report and in its line. -/
structure Times where
  appOverheadUsec : ℤ
  creatUsec : Spread
  writeUsec : Spread
  fsyncUsec : Spread
  syncUsec : ℕ
  closeUsec : Spread
  unlinkUsec : Spread
  deriving DecidableEq, Repr

def Stat.spread (s : Stat) (n : ℕ) : Spread := ⟨s.min, s.total / n, s.max⟩

def rowJson (r : Row) (p : Params) : Times where
  appOverheadUsec := r.appOverheadUsec
  creatUsec := r.creat.spread p.numFiles
  writeUsec := ⟨r.write.min, r.writeAvgAcc / p.numFiles, r.write.max⟩
  fsyncUsec := r.fsync.spread p.numFiles
  syncUsec := r.syncUsec
  closeUsec := r.close.spread p.numFiles
  unlinkUsec := r.unlink.spread p.numFiles

def iterationJson (a : Agg) (p : Params) : Times where
  appOverheadUsec := a.appOverheadUsec
  creatUsec := a.creat.spread p.numFiles
  writeUsec := ⟨a.write.min, a.writeAvg / p.numFiles, a.write.max⟩
  fsyncUsec := a.fsync.spread p.numFiles
  syncUsec := a.syncTotal
  closeUsec := a.close.spread p.numFiles
  unlinkUsec := a.unlink.spread p.numFiles

/-- The report about threads that all have succeeded. -/
def Params.report (p : Params) (ts : List ThreadTimes) : Times :=
  iterationJson (aggregate (ts.map p.runThread) p.threads) p

section Collected

variable {p : Params} {t : ThreadTimes} {β : Type} {step : Row → FileTimes → Row}

/-- What a loop over the files leaves as it is. -/
theorem foldl_frame {g : Row → β} (h : ∀ row f, g (step row f) = g row) (l : List FileTimes) (row : Row) :
    g (l.foldl step row) = g row := by
  induction l generalizing row with
  | nil => rfl
  | cons f l ih => rw [List.foldl_cons, ih, h]

/-- What a loop over the files adds up. -/
theorem foldl_collects {g : Row → Stat} {time : FileTimes → ℕ}
    (h : ∀ row f, g (step row f) = (g row).add (time f)) (l : List FileTimes) (row : Row) :
    g (l.foldl step row) = (l.map time).foldl Stat.add (g row) := by
  induction l generalizing row with
  | nil => rfl
  | cons f l ih => rw [List.foldl_cons, ih, h, List.map_cons, List.foldl_cons]

theorem creat_runThread (p : Params) (t : ThreadTimes) :
    (p.runThread t).creat = collect (t.files.map (·.creat)) := by
  have hmake : ∀ row f, (Row.makeFile p row f).creat = row.creat.add f.creat := by
    intro row f
    simp only [Row.makeFile, Row.writeFile, apply_ite Row.creat, ite_self]
  have hpost : ∀ row f, (Row.postFsync row f).creat = row.creat := fun _ _ => rfl
  have hremove : ∀ row f, (Row.removeFile row f).creat = row.creat := fun _ _ => rfl
  simp only [Params.runThread, apply_ite Row.creat, foldl_frame hpost, foldl_frame hremove,
    foldl_collects hmake, ite_self, collect]

theorem close_runThread (p : Params) (t : ThreadTimes) :
    (p.runThread t).close = collect (t.files.map (·.close)) := by
  have hmake : ∀ row f, (Row.makeFile p row f).close = row.close.add f.close := by
    intro row f
    simp only [Row.makeFile, Row.writeFile, apply_ite Row.close, ite_self]
  have hpost : ∀ row f, (Row.postFsync row f).close = row.close := fun _ _ => rfl
  have hremove : ∀ row f, (Row.removeFile row f).close = row.close := fun _ _ => rfl
  simp only [Params.runThread, apply_ite Row.close, foldl_frame hpost, foldl_frame hremove,
    foldl_collects hmake, ite_self, collect]

theorem unlink_runThread (hkeep : p.keepFiles = false) :
    (p.runThread t).unlink = collect (t.files.map (·.unlink)) := by
  have hmake : ∀ row f, (Row.makeFile p row f).unlink = row.unlink := by
    intro row f
    simp only [Row.makeFile, Row.writeFile, apply_ite Row.unlink, ite_self]
  have hpost : ∀ row f, (Row.postFsync row f).unlink = row.unlink := fun _ _ => rfl
  have hremove : ∀ row f, (Row.removeFile row f).unlink = row.unlink.add f.unlink := fun _ _ => rfl
  simp only [Params.runThread, hkeep, apply_ite Row.unlink, foldl_frame hpost, foldl_frame hmake,
    foldl_collects hremove, ite_self, collect, Bool.false_eq_true, if_false]

theorem write_runThread (p : Params) (t : ThreadTimes) :
    (p.runThread t).write = collect (t.files.flatMap (·.writes)) := by
  have hmake : ∀ (l : List FileTimes) row,
      (l.foldl (Row.makeFile p) row).write = (l.flatMap (·.writes)).foldl Stat.add row.write := by
    intro l
    induction l with
    | nil => exact fun _ => rfl
    | cons f l ih =>
      intro row
      rw [List.foldl_cons, ih, List.flatMap_cons, List.foldl_append]
      simp only [Row.makeFile, Row.writeFile, apply_ite Row.write, ite_self]
  have hpost : ∀ row f, (Row.postFsync row f).write = row.write := fun _ _ => rfl
  have hremove : ∀ row f, (Row.removeFile row f).write = row.write := fun _ _ => rfl
  simp only [Params.runThread, apply_ite Row.write, foldl_frame hpost, foldl_frame hremove, hmake, ite_self,
    collect]

/-- The average of the writes of a file. -/
def FileTimes.writeAvg (f : FileTimes) : ℕ := f.writes.sum / max f.writes.length 1

theorem writeAvgAcc_runThread (p : Params) (t : ThreadTimes) :
    (p.runThread t).writeAvgAcc = (t.files.map (·.writeAvg)).sum := by
  have hmake : ∀ (l : List FileTimes) row, (l.foldl (Row.makeFile p) row).writeAvgAcc =
      row.writeAvgAcc + (l.map (·.writeAvg)).sum := by
    intro l
    induction l with
    | nil => exact fun _ => rfl
    | cons f l ih =>
      intro row
      rw [List.foldl_cons, ih, List.map_cons, List.sum_cons, ← Nat.add_assoc]
      simp only [Row.makeFile, Row.writeFile, apply_ite Row.writeAvgAcc, ite_self, FileTimes.writeAvg]
  have hpost : ∀ row f, (Row.postFsync row f).writeAvgAcc = row.writeAvgAcc := fun _ _ => rfl
  have hremove : ∀ row f, (Row.removeFile row f).writeAvgAcc = row.writeAvgAcc := fun _ _ => rfl
  simp only [Params.runThread, apply_ite Row.writeAvgAcc, foldl_frame hpost, foldl_frame hremove, hmake,
    ite_self, Nat.zero_add]

/-- What `aggregate` merges, where a row has what its thread has collected. -/
theorem aggregate_merges {g : Agg → Stat} {k : Row → Stat} {times : ThreadTimes → List ℕ}
    (h : ∀ a r, g (a.addRow r) = (g a).merge (k r)) (hzero : g {} = {})
    (havg : ∀ a v, g { a with writeAvg := v } = g a)
    (hrow : ∀ t, k (p.runThread t) = collect (times t)) (ts : List ThreadTimes) :
    g (aggregate (ts.map p.runThread) p.threads) = combine (ts.map times) := by
  have hrun : ∀ (rows : List Row) a, g (rows.foldl Agg.addRow a) = (rows.map k).foldl Stat.merge (g a) := by
    intro rows
    induction rows with
    | nil => exact fun _ => rfl
    | cons r rows ih =>
      intro a
      rw [List.foldl_cons, ih, h, List.map_cons, List.foldl_cons]
  have hrows : (ts.map p.runThread).map k = (ts.map times).map collect := by
    rw [List.map_map, List.map_map]
    exact List.map_congr_left fun t _ => hrow t
  rw [combine, ← hrows, ← hzero, ← hrun, aggregate]
  split
  · exact havg _ _
  · rfl

end Collected

/-! ## Averages and extremes -/

/-- The average lies between the least and the greatest of the samples. -/
structure Consistent (s : Spread) (l : List ℕ) : Prop where
  isLeast : IsLeast {v | v ∈ l} s.min
  isGreatest : IsGreatest {v | v ∈ l} s.max
  min_le : s.min ≤ s.avg
  le_max : s.avg ≤ s.max

/-- The samples of the threads for one kind of call. -/
def samples (time : FileTimes → ℕ) (ts : List ThreadTimes) : List (List ℕ) := ts.map fun t => t.files.map time

/-- All threads have run, and no call has taken less than a microsecond. -/
structure Measured (p : Params) (ts : List ThreadTimes) : Prop where
  threads : ts.length = p.threads
  files : ∀ t ∈ ts, t.files.length = p.numFiles
  creat : ∀ t ∈ ts, ∀ f ∈ t.files, 0 < f.creat
  close : ∀ t ∈ ts, ∀ f ∈ t.files, 0 < f.close
  unlink : p.keepFiles = false → ∀ t ∈ ts, ∀ f ∈ t.files, 0 < f.unlink

/-- What the report should say of the calls that are made once for a file. -/
structure AveragesBetween (p : Params) (ts : List ThreadTimes) : Prop where
  creat : Consistent (p.report ts).creatUsec (samples (·.creat) ts).flatten
  close : Consistent (p.report ts).closeUsec (samples (·.close) ts).flatten
  unlink : p.keepFiles = false → Consistent (p.report ts).unlinkUsec (samples (·.unlink) ts).flatten

/-- Some sample is so long that with it in all files of one thread the total is reached. -/
def Reached (n : ℕ) (l : List ℕ) : Prop := ∃ v ∈ l, l.sum < n * (v + 1)

section Averages

variable {p : Params} {ts : List ThreadTimes} {time : FileTimes → ℕ}

theorem creatUsec_report (p : Params) (ts : List ThreadTimes) :
    (p.report ts).creatUsec = (combine (samples (·.creat) ts)).spread p.numFiles :=
  congrArg (Stat.spread · p.numFiles) <|
    aggregate_merges (g := Agg.creat) (fun _ _ => rfl) rfl (fun _ _ => rfl) (creat_runThread p) ts

theorem closeUsec_report (p : Params) (ts : List ThreadTimes) :
    (p.report ts).closeUsec = (combine (samples (·.close) ts)).spread p.numFiles :=
  congrArg (Stat.spread · p.numFiles) <|
    aggregate_merges (g := Agg.close) (fun _ _ => rfl) rfl (fun _ _ => rfl) (close_runThread p) ts

theorem unlinkUsec_report (hkeep : p.keepFiles = false) :
    (p.report ts).unlinkUsec = (combine (samples (·.unlink) ts)).spread p.numFiles :=
  congrArg (Stat.spread · p.numFiles) <|
    aggregate_merges (g := Agg.unlink) (fun _ _ => rfl) rfl (fun _ _ => rfl)
      (fun _ => unlink_runThread hkeep) ts

/-- The average is the one of a thread if all the others had taken no time. -/
theorem consistent_spread_iff {ls : List (List ℕ)} {n : ℕ} (hn : 0 < n) (hlen : n ≤ ls.flatten.length)
    (hpos : ∀ v ∈ ls.flatten, 0 < v) :
    Consistent ((combine ls).spread n) ls.flatten ↔ Reached n ls.flatten := by
  have hne : ls.flatten ≠ [] := List.ne_nil_of_length_pos (by omega)
  obtain ⟨hext, htotal⟩ := combine_extremes hne hpos
  have hmin : (combine ls).min ≤ (combine ls).total / n := by
    rw [Nat.le_div_iff_mul_le hn, htotal, mul_comm]
    calc n * (combine ls).min ≤ ls.flatten.length * (combine ls).min := Nat.mul_le_mul_right _ hlen
      _ ≤ ls.flatten.sum := by
        rw [← smul_eq_mul]
        exact List.card_nsmul_le_sum _ _ fun v hv => hext.isLeast.2 hv
  constructor
  · intro h
    refine ⟨_, hext.isGreatest.1, ?_⟩
    have hle : (combine ls).total / n ≤ (combine ls).max := h.le_max
    rw [← htotal, mul_comm, ← Nat.div_lt_iff_lt_mul hn]
    omega
  · rintro ⟨v, hv, hlt⟩
    refine ⟨hext.isLeast, hext.isGreatest, hmin, ?_⟩
    have hmax : v ≤ (combine ls).max := hext.isGreatest.2 hv
    rw [← htotal, mul_comm, ← Nat.div_lt_iff_lt_mul hn] at hlt
    change (combine ls).total / n ≤ (combine ls).max
    omega

theorem mem_samples {v : ℕ} : v ∈ (samples time ts).flatten ↔ ∃ t ∈ ts, ∃ f ∈ t.files, time f = v := by
  simp [samples]

theorem Measured.length_samples (h : Measured p ts) (time : FileTimes → ℕ) :
    (samples time ts).flatten.length = p.threads * p.numFiles := by
  have hlen : ∀ l ∈ samples time ts, l.length = p.numFiles := by
    intro l hl
    obtain ⟨t, ht, rfl⟩ := List.mem_map.mp hl
    rw [List.length_map, h.files t ht]
  rw [List.length_flatten, List.map_congr_left hlen, List.map_const', List.sum_replicate, smul_eq_mul,
    samples, List.length_map, h.threads]

theorem Measured.consistent_iff_reached (h : Measured p ts)
    (hpos : ∀ t ∈ ts, ∀ f ∈ t.files, 0 < time f) :
    Consistent ((combine (samples time ts)).spread p.numFiles) (samples time ts).flatten ↔
      Reached p.numFiles (samples time ts).flatten := by
  refine consistent_spread_iff p.numFiles_pos ?_ ?_
  · rw [h.length_samples]
    exact Nat.le_mul_of_pos_left _ p.threads_pos
  · intro v hv
    obtain ⟨t, ht, f, hf, rfl⟩ := mem_samples.mp hv
    exact hpos t ht f hf

/-- The report is as it should be if a long call outweighs what the other threads have taken. -/
theorem Measured.averagesBetween_iff_reached (h : Measured p ts) :
    AveragesBetween p ts ↔
      Reached p.numFiles (samples (·.creat) ts).flatten ∧ Reached p.numFiles (samples (·.close) ts).flatten ∧
        (p.keepFiles = false → Reached p.numFiles (samples (·.unlink) ts).flatten) := by
  have hcreat := h.consistent_iff_reached h.creat
  have hclose := h.consistent_iff_reached h.close
  rw [← creatUsec_report] at hcreat
  rw [← closeUsec_report] at hclose
  have hunlink : p.keepFiles = false →
      (Consistent (p.report ts).unlinkUsec (samples (·.unlink) ts).flatten ↔
        Reached p.numFiles (samples (·.unlink) ts).flatten) := by
    intro hkeep
    rw [unlinkUsec_report hkeep]
    exact h.consistent_iff_reached (h.unlink hkeep)
  constructor
  · intro hbetween
    exact ⟨hcreat.mp hbetween.creat, hclose.mp hbetween.close,
      fun hkeep => (hunlink hkeep).mp (hbetween.unlink hkeep)⟩
  · rintro ⟨h1, h2, h3⟩
    exact ⟨hcreat.mpr h1, hclose.mpr h2, fun hkeep => (hunlink hkeep).mpr (h3 hkeep)⟩

/-- The files of one thread do not take longer than if each had taken the longest time. -/
theorem Measured.reached_of_one (h : Measured p ts) (hone : p.threads = 1)
    (hpos : ∀ t ∈ ts, ∀ f ∈ t.files, 0 < time f) : Reached p.numFiles (samples time ts).flatten := by
  have hlen : (samples time ts).flatten.length = p.numFiles := by rw [h.length_samples, hone, one_mul]
  have hne : (samples time ts).flatten ≠ [] := List.ne_nil_of_length_pos (hlen ▸ p.numFiles_pos)
  have hall : ∀ v ∈ (samples time ts).flatten, 0 < v := by
    intro v hv
    obtain ⟨t, ht, f, hf, rfl⟩ := mem_samples.mp hv
    exact hpos t ht f hf
  obtain ⟨hext, -⟩ := combine_extremes hne hall
  refine ⟨_, hext.isGreatest.1, ?_⟩
  calc (samples time ts).flatten.sum
      ≤ (samples time ts).flatten.length * (combine (samples time ts)).max := by
        rw [← smul_eq_mul]
        exact List.sum_le_card_nsmul _ _ fun v hv => hext.isGreatest.2 hv
    _ = p.numFiles * (combine (samples time ts)).max := by rw [hlen]
    _ < p.numFiles * ((combine (samples time ts)).max + 1) :=
        Nat.mul_lt_mul_of_pos_left (Nat.lt_succ_self _) p.numFiles_pos

/-- Each call takes a microsecond. -/
def unitFile : FileTimes where
  creat := 1
  writes := [1]
  fsync := 1
  close := 1
  postFsync := 1
  unlink := 1

def Params.unitTimes (p : Params) : List ThreadTimes :=
  List.replicate p.threads
    { files := List.replicate p.numFiles unitFile, sync := 1, firstFsync := 1, loop := p.numFiles }

theorem Params.measured_unitTimes (p : Params) : Measured p p.unitTimes := by
  have hmem : ∀ t ∈ p.unitTimes, t.files = List.replicate p.numFiles unitFile := by
    intro t ht
    rw [List.eq_of_mem_replicate ht]
  have hfile : ∀ t ∈ p.unitTimes, ∀ f ∈ t.files, f = unitFile := by
    intro t ht f hf
    rw [hmem t ht] at hf
    exact List.eq_of_mem_replicate hf
  refine ⟨List.length_replicate, fun t ht => ?_, fun t ht f hf => ?_, fun t ht f hf => ?_, fun _ t ht f hf => ?_⟩
  · rw [hmem t ht, List.length_replicate]
  · rw [hfile t ht f hf]
    exact Nat.one_pos
  · rw [hfile t ht f hf]
    exact Nat.one_pos
  · rw [hfile t ht f hf]
    exact Nat.one_pos

theorem Params.flatten_unitTimes (p : Params) :
    (samples (·.creat) p.unitTimes).flatten = List.replicate (p.threads * p.numFiles) 1 := by
  rw [samples, Params.unitTimes, List.map_replicate, List.map_replicate, List.flatten_replicate_replicate]
  rfl

/-- With more threads the average of equal times is too large. -/
theorem Params.not_reached_unitTimes (hmany : 1 < p.threads) :
    ¬ Reached p.numFiles (samples (·.creat) p.unitTimes).flatten := by
  rw [p.flatten_unitTimes]
  rintro ⟨v, hv, hlt⟩
  rw [List.eq_of_mem_replicate hv, List.sum_replicate, smul_eq_mul, mul_one, mul_comm] at hlt
  have hle : p.numFiles * 2 ≤ p.numFiles * p.threads := Nat.mul_le_mul_left _ hmany
  omega

/-- **The averages lie between the extremes** for all times if and only if there is one thread. For some
times they do with more threads. -/
theorem averagesBetween_iff (p : Params) :
    ((∀ ts, Measured p ts → AveragesBetween p ts) ↔ p.threads = 1) ∧
      ∀ ts, Measured p ts → (AveragesBetween p ts ↔
        Reached p.numFiles (samples (·.creat) ts).flatten ∧
          Reached p.numFiles (samples (·.close) ts).flatten ∧
          (p.keepFiles = false → Reached p.numFiles (samples (·.unlink) ts).flatten)) := by
  refine ⟨⟨fun hall => ?_, fun hone ts h => ?_⟩, fun ts h => h.averagesBetween_iff_reached⟩
  · by_contra hmany
    have hlt : 1 < p.threads := by
      have hpos := p.threads_pos
      omega
    have hbetween := hall _ p.measured_unitTimes
    exact Params.not_reached_unitTimes hlt (p.measured_unitTimes.averagesBetween_iff_reached.mp hbetween).1
  · refine h.averagesBetween_iff_reached.mpr ⟨?_, ?_, fun hkeep => ?_⟩
    · exact h.reached_of_one hone h.creat
    · exact h.reached_of_one hone h.close
    · exact h.reached_of_one hone (h.unlink hkeep)

/-- One thread, and one file with calls of five microseconds each. -/
def soloParams (threads : ℕ) (threads_pos : 0 < threads) : Params where
  dirs := ["/mnt"]
  threads := threads
  numFiles := 1
  fileSize := 1
  loopCount := 0
  syncBits := 0
  keepFiles := false
  fillFs := false
  threads_pos := threads_pos
  numFiles_pos := Nat.one_pos

def soloTimes : ThreadTimes where
  files := [⟨5, [5], 0, 5, 0, 5⟩]
  sync := 0
  firstFsync := 0
  loop := 20

def pairParams (threads : ℕ) (threads_pos : 0 < threads) : Params :=
  { soloParams threads threads_pos with numFiles := 2, numFiles_pos := Nat.two_pos }

/-- A quick file and a slow one. -/
def unevenTimes : ThreadTimes where
  files := [⟨1, [4, 6], 0, 2, 0, 3⟩, ⟨90, [7], 0, 80, 0, 70⟩]
  sync := 0
  firstFsync := 0
  loop := 263

def quickTimes : ThreadTimes where
  files := [⟨2, [1], 0, 1, 0, 1⟩, ⟨1, [1], 0, 3, 0, 4⟩]
  sync := 0
  firstFsync := 0
  loop := 15

/-- One thread, and two of which one has a call that outweighs the others. -/
theorem averagesBetween_uneven :
    AveragesBetween (pairParams 1 Nat.one_pos) [unevenTimes] ∧
      AveragesBetween (pairParams 2 Nat.two_pos) [unevenTimes, quickTimes] :=
  ⟨(averagesBetween_iff (pairParams 1 Nat.one_pos)).1.mpr rfl _ (by constructor <;> decide),
    ((averagesBetween_iff (pairParams 2 Nat.two_pos)).2 _ (by constructor <;> decide)).mpr
      ⟨⟨90, by decide, by decide⟩, ⟨80, by decide, by decide⟩, fun _ => ⟨70, by decide, by decide⟩⟩⟩

/-- Two threads: the average is twice the longest time. -/
theorem averages_doubled :
    Measured (soloParams 2 Nat.two_pos) [soloTimes, soloTimes] ∧
      ((soloParams 2 Nat.two_pos).report [soloTimes, soloTimes]).creatUsec = ⟨5, 10, 5⟩ ∧
      ¬ AveragesBetween (soloParams 2 Nat.two_pos) [soloTimes, soloTimes] :=
  ⟨by constructor <;> decide, by decide, fun h => absurd h.creat.le_max (by decide)⟩

end Averages

/-! ## The writes -/

section Writes

variable {p : Params} {ts : List ThreadTimes} {l : List ℕ}

theorem average_between {lo hi : ℕ} (hne : l ≠ []) (h : ∀ v ∈ l, lo ≤ v ∧ v ≤ hi) :
    lo ≤ l.sum / l.length ∧ l.sum / l.length ≤ hi := by
  have hlen : 0 < l.length := List.length_pos_of_ne_nil hne
  have hlo : l.length • lo ≤ l.sum := List.card_nsmul_le_sum _ _ fun v hv => (h v hv).1
  have hhi : l.sum ≤ l.length • hi := List.sum_le_card_nsmul _ _ fun v hv => (h v hv).2
  rw [smul_eq_mul] at hlo hhi
  exact ⟨(Nat.le_div_iff_mul_le hlen).mpr (by rwa [mul_comm]), Nat.div_le_of_le_mul hhi⟩

/-- The samples of the writes of each thread. -/
def writeSamples (ts : List ThreadTimes) : List (List ℕ) := ts.map fun t => t.files.flatMap (·.writes)

/-- The averages of the files. -/
def fileAverages (ts : List ThreadTimes) : List ℕ := (samples (·.writeAvg) ts).flatten

theorem foldl_writeAvg (rows : List Row) (a : Agg) :
    (rows.foldl Agg.addRow a).writeAvg = a.writeAvg + (rows.map (·.writeAvgAcc)).sum := by
  induction rows generalizing a with
  | nil => rfl
  | cons r rows ih => rw [List.foldl_cons, ih, List.map_cons, List.sum_cons, ← Nat.add_assoc, Agg.addRow]

theorem writeUsec_report (p : Params) (ts : List ThreadTimes) :
    (p.report ts).writeUsec =
      ⟨(combine (writeSamples ts)).min, (fileAverages ts).sum / (p.threads * p.numFiles),
        (combine (writeSamples ts)).max⟩ := by
  have hstat : (aggregate (ts.map p.runThread) p.threads).write = combine (writeSamples ts) :=
    aggregate_merges (g := Agg.write) (fun _ _ => rfl) rfl (fun _ _ => rfl) (write_runThread p) ts
  have hsum : ((ts.map p.runThread).foldl Agg.addRow {}).writeAvg = (fileAverages ts).sum := by
    rw [foldl_writeAvg, List.map_map, fileAverages, samples, List.sum_flatten, List.map_map]
    simp only [Function.comp_def, writeAvgAcc_runThread, Nat.zero_add]
  have havg : (aggregate (ts.map p.runThread) p.threads).writeAvg = (fileAverages ts).sum / p.threads := by
    rw [aggregate]
    split
    · rw [hsum]
    · rw [hsum, show p.threads = 1 by have hpos := p.threads_pos; omega, Nat.div_one]
  simp only [Params.report, iterationJson, hstat, havg, Nat.div_div_eq_div_mul]

/-- **The average of the writes lies between the extremes**, whatever the number of threads is. -/
theorem write_consistent (h : Measured p ts) (hne : ∀ t ∈ ts, ∀ f ∈ t.files, f.writes ≠ [])
    (hpos : ∀ t ∈ ts, ∀ f ∈ t.files, ∀ v ∈ f.writes, 0 < v) :
    Consistent (p.report ts).writeUsec (writeSamples ts).flatten := by
  have hmem : ∀ {v}, v ∈ (writeSamples ts).flatten ↔ ∃ t ∈ ts, ∃ f ∈ t.files, v ∈ f.writes := by
    intro v
    simp [writeSamples]
  have hlen : (fileAverages ts).length = p.threads * p.numFiles := h.length_samples _
  have hsome : fileAverages ts ≠ [] :=
    List.ne_nil_of_length_pos (hlen ▸ Nat.mul_pos p.threads_pos p.numFiles_pos)
  have hwritten : (writeSamples ts).flatten ≠ [] := by
    obtain ⟨a, ha⟩ := List.exists_mem_of_ne_nil _ hsome
    obtain ⟨t, ht, f, hf, -⟩ := mem_samples.mp ha
    obtain ⟨v, hv⟩ := List.exists_mem_of_ne_nil _ (hne t ht f hf)
    exact List.ne_nil_of_mem (hmem.mpr ⟨t, ht, f, hf, hv⟩)
  obtain ⟨hext, -⟩ := combine_extremes hwritten fun v hv => by
    obtain ⟨t, ht, f, hf, hv⟩ := hmem.mp hv
    exact hpos t ht f hf v hv
  -- the average of a file, and then that of the files
  have hfile : ∀ a ∈ fileAverages ts, (combine (writeSamples ts)).min ≤ a ∧
      a ≤ (combine (writeSamples ts)).max := by
    intro a ha
    obtain ⟨t, ht, f, hf, rfl⟩ := mem_samples.mp ha
    have hone : max f.writes.length 1 = f.writes.length :=
      max_eq_left (List.length_pos_of_ne_nil (hne t ht f hf))
    rw [FileTimes.writeAvg, hone]
    refine average_between (hne t ht f hf) fun v hv => ⟨hext.isLeast.2 ?_, hext.isGreatest.2 ?_⟩
    · exact hmem.mpr ⟨t, ht, f, hf, hv⟩
    · exact hmem.mpr ⟨t, ht, f, hf, hv⟩
  obtain ⟨hmin, hmax⟩ := average_between hsome hfile
  rw [hlen] at hmin hmax
  rw [writeUsec_report]
  exact ⟨hext.isLeast, hext.isGreatest, hmin, hmax⟩

end Writes

end Fstest.Fsmark
