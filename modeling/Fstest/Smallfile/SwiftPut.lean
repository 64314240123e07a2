import Fstest.Smallfile.Records

/-!
# Swift PUT

`do_swift_put` writes each file under a name of its own and renames it when all is done. Most of its
calls name the file by the number of its descriptor. Before the rename it drops the file, which closes
the descriptor, and then hands the number to `posix_fadvise`; so that call fails, the new file is
deleted, and the first file is the last (`swiftPut_fails`).

The kernel is a parameter: a call on an open descriptor succeeds, and one on a closed descriptor fails
with `EBADF` and does nothing.
-/

namespace Fstest.Smallfile

namespace Put

/-! ## Calls -/

inductive Call where
  | openCreate (p : Path)
  | fchmod (fd mode : ℕ)
  | fallocate (fd len : ℕ)
  | write (fd : ℕ) (data : Bytes)
  | getxattr (p : Path) (name : String)
  | setxattr (p : Path) (name : String) (value : Bytes)
  | fsync (fd : ℕ)
  | close (fd : ℕ)
  | fadvise (fd len : ℕ)
  | rename (src dest : Path)
  | unlink (p : Path)
  deriving DecidableEq

/-- The descriptor that a call is about. -/
def Call.fd? : Call → Option ℕ
  | fchmod fd _ | fallocate fd _ | write fd _ | fsync fd | close fd | fadvise fd _ => some fd
  | _ => none

inductive Errno where
  | badFd
  | noEnt
  | other (code : ℕ)
  deriving DecidableEq

inductive Answer where
  | done
  | fd (n : ℕ)
  | value (v : Option Bytes)
  deriving DecidableEq

def Answer.toFd : Answer → ℕ
  | fd n => n
  | _ => 0

abbrev Reply := Except Errno Answer

/-- A file system on which each call succeeds, unless it is on a closed descriptor. -/
structure FileSystem where
  State : Type
  eff : Call → State → Reply × State
  IsOpen : State → ℕ → Prop
  Present : State → Path → Prop
  open_ok : ∀ p s, ∃ fd s', eff (.openCreate p) s = (.ok (.fd fd), s') ∧ IsOpen s' fd ∧ Present s' p
  /-- A call on an open descriptor leaves all names, and all descriptors but the one it closes. -/
  use_open : ∀ c fd s, c.fd? = some fd → IsOpen s fd → ∃ s', eff c s = (.ok .done, s') ∧
    (∀ p, Present s' p ↔ Present s p) ∧ ∀ fd', IsOpen s' fd' ↔ IsOpen s fd' ∧ c ≠ .close fd'
  use_closed : ∀ c fd s, c.fd? = some fd → ¬ IsOpen s fd → eff c s = (.error .badFd, s)
  getxattr_ok : ∀ p name s, Present s p → ∃ v, eff (.getxattr p name) s = (.ok (.value v), s)
  setxattr_ok : ∀ p name v s, Present s p → ∃ s', eff (.setxattr p name v) s = (.ok .done, s') ∧
    (∀ q, Present s' q ↔ Present s q) ∧ ∀ fd, IsOpen s' fd ↔ IsOpen s fd
  unlink_ok : ∀ p s, Present s p → ∃ s', eff (.unlink p) s = (.ok .done, s') ∧
    ∀ q, Present s' q ↔ Present s q ∧ q ≠ p

/-! ## The operation -/

inductive Failure where
  | os (e : Errno)
  /-- `io::Error::last_os_error()`: `posix_fadvise` returns its error and does not store it. -/
  | lastOsError
  deriving DecidableEq

abbrev Thread := ExceptT Failure (Prog Call Reply)

def ask (c : Call) : Thread Reply := ExceptT.lift (Prog.ask c)

/-- A call whose error ends the function. -/
def sys (c : Call) : Thread Answer := do
  match ← ask c with
  | .ok a => pure a
  | .error e => throw (.os e)

structure Options where
  xattrSize : ℕ
  xattrCount : ℕ
  fsync : Bool

variable (w : Worker) (o : Options)

def tmpName (filenum : ℕ) : Path := suffixed (w.mkFileNm .src filenum) ".tmp"

def xattrName (j : ℕ) : String := "user.smallfile-all-" ++ toString j

def xattrValue (uo j : ℕ) : Bytes :=
  let start := min (uo + j) buildBiggestBuf.length
  let stop := min (uo + j + o.xattrSize) buildBiggestBuf.length
  (buildBiggestBuf.drop start).take (stop - start)

/-- What is done while the file is open. An attribute that is not there is logged only. -/
def putContents (fd filenum : ℕ) : Thread Unit := do
  let tmpnm := tmpName w filenum
  let uo := w.uniqueOffset filenum
  let _ ← sys (.fchmod fd 0o667)
  let _ ← sys (.fallocate fd (w.getNextFileSizeKb filenum * 1024))
  (w.fileRecords filenum).forM fun nextKb => do
    let _ ← sys (.write fd (record uo nextKb))
  (List.range o.xattrCount).forM fun j => do
    let _ ← sys (.getxattr tmpnm (xattrName j))
  (List.range o.xattrCount).forM fun j => do
    let _ ← sys (.setxattr tmpnm (xattrName j) (xattrValue o uo j))
  if o.fsync then do
    let _ ← sys (.fsync fd)
  else pure ()

/-- What is done once the file is dropped. -/
def finish (fd filenum : ℕ) : Thread Unit := do
  match ← ask (.fadvise fd (w.getNextFileSizeKb filenum * 1024)) with
  | .ok _ => do
    let _ ← sys (.rename (tmpName w filenum) (w.mkFileNm .src filenum))
  | .error _ => throw .lastOsError

/-- The closure for one file. The file is dropped on every way out, and errors of its close are
ignored. -/
def putFile (filenum : ℕ) : Thread Unit := do
  let fd := (← sys (.openCreate (tmpName w filenum))).toFd
  let r ← ExceptT.lift (putContents w o fd filenum).run
  let _ ← ask (.close fd)
  match r with
  | .error e => throw e
  | .ok () => finish w fd filenum

def ensureDeleted (p : Path) : Thread Unit := do
  match ← ask (.unlink p) with
  | .ok _ => pure ()
  | .error .noEnt => pure ()
  | .error e => throw (.os e)

/-- How the operation ends: its result, and the counters of the thread. -/
structure Outcome where
  result : Except Failure Unit
  filenum : ℕ
  rq : ℕ

/-- The loop over the files, of which `left` are to come. -/
def putFiles : (left filenum rq : ℕ) → Prog Call Reply Outcome
  | 0, filenum, rq => pure ⟨.ok (), filenum, rq⟩
  | left + 1, filenum, rq => do
    match ← (putFile w o (filenum + 1)).run with
    | .ok () => putFiles left (filenum + 1) (rq + 1)
    | .error e =>
      match ← (ensureDeleted (tmpName w (filenum + 1))).run with
      | .ok () => pure ⟨.error e, filenum + 1, rq⟩
      | .error e' => pure ⟨.error e', filenum + 1, rq⟩

/-- `do_swift_put`, where `do_another_file` says yes for the first `files` files. -/
def doSwiftPut (files : ℕ) : Prog Call Reply Outcome := putFiles w o files 0 0

/-! ## What comes of it -/

variable {w o}
variable {fs : FileSystem} {s : fs.State} {tr : List (Call × Reply)} {fd n : ℕ} {c : Call} {a : Answer}

/-- All calls, with their record. -/
abbrev Gives (fs : FileSystem) {α : Type} (x : Thread α) (m : fs.State × List (Call × Reply)) (a : α)
    (m' : fs.State × List (Call × Reply)) : Prop :=
  Threads.Gives (Prog.logged fs.eff) (fun _ => True) x m a m'

/-- The file is open, and has its name. -/
def Working (fs : FileSystem) (fd : ℕ) (p : Path) (m : fs.State × List (Call × Reply)) : Prop :=
  fs.IsOpen m.1 fd ∧ fs.Present m.1 p

variable {m m' : fs.State × List (Call × Reply)} {p : Path}

theorem sys_gives {s' : fs.State} (h : fs.eff c m.1 = (.ok a, s')) :
    Gives fs (sys c) m a (s', m.2 ++ [(c, .ok a)]) := by
  have hlog : Prog.logged fs.eff c m = (.ok a, (s', m.2 ++ [(c, .ok a)])) := by
    rw [Prog.logged, h]
  refine (Threads.Gives.ask trivial).bind ?_
  rw [hlog]
  exact Threads.Gives.pure

theorem ask_exec {r : Reply} {s' : fs.State} (h : fs.eff c m.1 = (r, s')) :
    (ask c).run.exec (Prog.logged fs.eff) m = (.ok r, (s', m.2 ++ [(c, r)])) := by
  rw [ask, Prog.exec_lift, Prog.ask, Prog.exec, Prog.logged, h]
  rfl

/-- A call on the descriptor, other than its close. -/
theorem use_gives (hc : c.fd? = some fd) (hclose : c ≠ .close fd) (h : Working fs fd p m) :
    ∃ m', Gives fs (sys c) m .done m' ∧ Working fs fd p m' := by
  obtain ⟨s', heff, hpresent, hopen⟩ := fs.use_open c fd m.1 hc h.1
  exact ⟨_, sys_gives heff, (hopen fd).mpr ⟨h.1, hclose⟩, (hpresent p).mpr h.2⟩

theorem getxattr_gives (name : String) (h : Working fs fd p m) :
    ∃ a m', Gives fs (sys (.getxattr p name)) m a m' ∧ Working fs fd p m' := by
  obtain ⟨v, heff⟩ := fs.getxattr_ok p name m.1 h.2
  exact ⟨_, _, sys_gives heff, h⟩

theorem setxattr_gives (name : String) (v : Bytes) (h : Working fs fd p m) :
    ∃ m', Gives fs (sys (.setxattr p name v)) m .done m' ∧ Working fs fd p m' := by
  obtain ⟨s', heff, hpresent, hopen⟩ := fs.setxattr_ok p name v m.1 h.2
  exact ⟨_, sys_gives heff, (hopen fd).mpr h.1, (hpresent p).mpr h.2⟩

/-- A loop of calls, each of which leaves the file open and its name in place. -/
theorem each_gives {γ : Type} (f : γ → Thread Unit) (l : List γ)
    (hstep : ∀ c m, Working fs fd p m → ∃ m', Gives fs (f c) m () m' ∧ Working fs fd p m')
    (h : Working fs fd p m) : ∃ m', Gives fs (l.forM f) m () m' ∧ Working fs fd p m' := by
  let I : List γ → fs.State × List (Call × Reply) → Prop := fun _ => Working fs fd p
  exact Threads.Gives.forM (I := I) (fun c _ m => hstep c m) h

/-- **All that is done while the file is open succeeds.** -/
theorem putContents_gives (h : Working fs fd (tmpName w n) m) :
    ∃ m', Gives fs (putContents w o fd n) m () m' ∧ Working fs fd (tmpName w n) m' := by
  obtain ⟨m₁, hchmod, h₁⟩ := use_gives (c := .fchmod fd 0o667) rfl nofun h
  obtain ⟨m₂, halloc, h₂⟩ := use_gives (c := .fallocate fd (w.getNextFileSizeKb n * 1024)) rfl nofun h₁
  obtain ⟨m₃, hwrites, h₃⟩ := each_gives (fun nextKb => do
      let _ ← sys (.write fd (record (w.uniqueOffset n) nextKb)))
    (w.fileRecords n) (fun kb _ h => by
      obtain ⟨m', hwrite, h'⟩ := use_gives (c := .write fd (record (w.uniqueOffset n) kb)) rfl nofun h
      exact ⟨m', hwrite.bind Threads.Gives.pure, h'⟩) h₂
  obtain ⟨m₄, hget, h₄⟩ := each_gives (fun j => do
      let _ ← sys (.getxattr (tmpName w n) (xattrName j)))
    (List.range o.xattrCount) (fun j _ h => by
      obtain ⟨a, m', hget, h'⟩ := getxattr_gives (xattrName j) h
      exact ⟨m', hget.bind Threads.Gives.pure, h'⟩) h₃
  obtain ⟨m₅, hset, h₅⟩ := each_gives (fun j => do
      let _ ← sys (.setxattr (tmpName w n) (xattrName j) (xattrValue o (w.uniqueOffset n) j)))
    (List.range o.xattrCount) (fun j _ h => by
      obtain ⟨m', hset, h'⟩ := setxattr_gives (xattrName j) (xattrValue o (w.uniqueOffset n) j) h
      exact ⟨m', hset.bind Threads.Gives.pure, h'⟩) h₄
  have hsync : ∃ m', Gives fs (if o.fsync then do
      let _ ← sys (.fsync fd)
    else pure ()) m₅ () m' ∧ Working fs fd (tmpName w n) m' := by
    split
    · obtain ⟨m', hfsync, h'⟩ := use_gives (c := .fsync fd) rfl nofun h₅
      exact ⟨m', hfsync.bind Threads.Gives.pure, h'⟩
    · exact ⟨m₅, Threads.Gives.pure, h₅⟩
  obtain ⟨m₆, hfsync, h₆⟩ := hsync
  exact ⟨m₆, hchmod.bind (halloc.bind (hwrites.bind (hget.bind (hset.bind hfsync)))), h₆⟩

/-- **The closure for a file fails**: after the close it uses the descriptor. -/
theorem putFile_fails (w : Worker) (o : Options) (n : ℕ) (s : fs.State) (tr : List (Call × Reply)) :
    ∃ (fd : ℕ) (before : List (Call × Reply)) (s' : fs.State),
      (putFile w o n).run.exec (Prog.logged fs.eff) (s, tr) = (.error .lastOsError, (s', before ++
        [(.close fd, .ok .done), (.fadvise fd (w.getNextFileSizeKb n * 1024), .error .badFd)])) ∧
      fs.Present s' (tmpName w n) := by
  obtain ⟨fd, s₁, hopen, hisOpen, hpresent⟩ := fs.open_ok (tmpName w n) s
  obtain ⟨m₂, hcontents, hopen₂, hpresent₂⟩ :=
    putContents_gives (w := w) (o := o) (m := (s₁, tr ++ [(.openCreate (tmpName w n), .ok (.fd fd))]))
      ⟨hisOpen, hpresent⟩
  obtain ⟨s₃, hclose, hpresent₃, hopen₃⟩ := fs.use_open (.close fd) fd m₂.1 rfl hopen₂
  have hclosed : ¬ fs.IsOpen s₃ fd := fun h => ((hopen₃ fd).mp h).2 rfl
  have hadvise := fs.use_closed (.fadvise fd (w.getNextFileSizeKb n * 1024)) fd s₃ rfl hclosed
  refine ⟨fd, m₂.2, s₃, ?_, (hpresent₃ _).mpr hpresent₂⟩
  have hlift := Prog.exec_lift (ε := Failure) (Prog.logged fs.eff) (putContents w o fd n).run
    (s₁, tr ++ [(.openCreate (tmpName w n), .ok (.fd fd))])
  rw [hcontents.exec] at hlift
  rw [putFile, Prog.exec_run_bind (sys_gives (m := (s, tr)) hopen).exec, Answer.toFd,
    Prog.exec_run_bind hlift, Prog.exec_run_bind (ask_exec hclose)]
  change (finish w fd n).run.exec _ _ = _
  rw [finish, Prog.exec_run_bind (ask_exec hadvise), List.append_assoc]
  rfl

/-- **The whole operation fails at the first file**, which is deleted, and counts no request. -/
theorem swiftPut_fails (w : Worker) (o : Options) {files : ℕ} (h : 0 < files) (s : fs.State)
    (tr : List (Call × Reply)) :
    ∃ (fd : ℕ) (before : List (Call × Reply)) (s' : fs.State),
      (doSwiftPut w o files).exec (Prog.logged fs.eff) (s, tr) =
        (⟨.error .lastOsError, 1, 0⟩, (s', before ++ [(.close fd, .ok .done),
          (.fadvise fd (w.getNextFileSizeKb 1 * 1024), .error .badFd),
          (.unlink (tmpName w 1), .ok .done)])) ∧
      ¬ fs.Present s' (tmpName w 1) := by
  obtain ⟨left, rfl⟩ : ∃ left, files = left + 1 := ⟨files - 1, by omega⟩
  obtain ⟨fd, before, s₁, hput, hpresent⟩ := putFile_fails w o 1 s tr
  obtain ⟨s₂, hunlink, hgone⟩ := fs.unlink_ok (tmpName w 1) s₁ hpresent
  refine ⟨fd, before, s₂, ?_, fun h => ((hgone _).mp h).2 rfl⟩
  have hdelete : ∀ tr', (ensureDeleted (tmpName w 1)).run.exec (Prog.logged fs.eff) (s₁, tr') =
      (.ok (), (s₂, tr' ++ [(.unlink (tmpName w 1), .ok .done)])) := fun tr' => by
    rw [ensureDeleted, Prog.exec_run_bind (ask_exec (m := (s₁, tr')) hunlink)]
    rfl
  rw [doSwiftPut, putFiles, Prog.exec_bind, hput]
  change ((ensureDeleted (tmpName w 1)).run >>= _).exec _ _ = _
  rw [Prog.exec_bind, hdelete, List.append_assoc]
  rfl

/-! ## Clean puts -/

/-- A call is made on a descriptor that has been closed, and not been given out again. -/
def UsesClosed (tr : List (Call × Reply)) : Prop :=
  ∃ (fd : ℕ) (before : List (Call × Reply)) (r : Reply) (between : List (Call × Reply)) (c : Call)
    (r' : Reply) (after : List (Call × Reply)),
    tr = before ++ (.close fd, r) :: (between ++ (c, r') :: after) ∧ c.fd? = some fd ∧
      ∀ e ∈ between, e.2 ≠ .ok (.fd fd)

/-- The run from `s` has used open descriptors only; the files that it has worked on have their names,
and each counts as one request. -/
structure PutsCleanly (fs : FileSystem) (w : Worker) (o : Options) (files : ℕ) (s : fs.State) : Prop where
  neverUsesClosed : ¬ UsesClosed ((doSwiftPut w o files).exec (Prog.logged fs.eff) (s, [])).2.2
  named : ∀ n, 1 ≤ n → n ≤ ((doSwiftPut w o files).exec (Prog.logged fs.eff) (s, [])).1.filenum →
    fs.Present ((doSwiftPut w o files).exec (Prog.logged fs.eff) (s, [])).2.1 (w.mkFileNm .src n) ∧
    ¬ fs.Present ((doSwiftPut w o files).exec (Prog.logged fs.eff) (s, [])).2.1 (tmpName w n)
  requests : ((doSwiftPut w o files).exec (Prog.logged fs.eff) (s, [])).1.rq =
    ((doSwiftPut w o files).exec (Prog.logged fs.eff) (s, [])).1.filenum

theorem usesClosed (w : Worker) (o : Options) {files : ℕ} (h : 0 < files) (s : fs.State) :
    UsesClosed ((doSwiftPut w o files).exec (Prog.logged fs.eff) (s, [])).2.2 := by
  obtain ⟨fd, before, s', hexec, -⟩ := swiftPut_fails w o h s []
  rw [hexec]
  exact ⟨fd, before, _, [], _, _, _, rfl, rfl, fun _ he => absurd he List.not_mem_nil⟩

/-- **A swift-put is clean only if there is no file to put**, whatever the sizes, the attributes and the
file system. -/
theorem putsCleanly_iff (fs : FileSystem) (w : Worker) (o : Options) (files : ℕ) (s : fs.State) :
    PutsCleanly fs w o files s ↔ files = 0 := by
  constructor
  · intro hclean
    by_contra hne
    exact hclean.neverUsesClosed (usesClosed w o (Nat.pos_of_ne_zero hne) s)
  · rintro rfl
    refine ⟨?_, fun n h1 h0 => absurd (show 1 ≤ 0 from h1.trans h0) (by decide), rfl⟩
    rintro ⟨fd, before, r, between, c, r', after, htr, -⟩
    exact absurd htr (by simp [doSwiftPut, putFiles, Prog.exec, pure])

/-- A kernel with the open descriptors and the names that there are. -/
def tableFs : FileSystem where
  State := List ℕ × List Path
  eff c s :=
    match c with
    | .openCreate p =>
      let fd := s.1.foldr max 2 + 1
      (.ok (.fd fd), (fd :: s.1, p :: s.2))
    | .getxattr p _ => (if p ∈ s.2 then .ok (.value none) else .error .noEnt, s)
    | .setxattr p _ _ => (if p ∈ s.2 then .ok .done else .error .noEnt, s)
    | .rename src dest =>
      if src ∈ s.2 then (.ok .done, (s.1, dest :: s.2.filter (· ≠ src))) else (.error .noEnt, s)
    | .unlink p => if p ∈ s.2 then (.ok .done, (s.1, s.2.filter (· ≠ p))) else (.error .noEnt, s)
    | .close fd => if fd ∈ s.1 then (.ok .done, (s.1.filter (· ≠ fd), s.2)) else (.error .badFd, s)
    | .fchmod fd _ | .fallocate fd _ | .write fd _ | .fsync fd | .fadvise fd _ =>
      (if fd ∈ s.1 then .ok .done else .error .badFd, s)
  IsOpen s fd := fd ∈ s.1
  Present s p := p ∈ s.2
  open_ok p s := ⟨_, _, rfl, List.mem_cons_self, List.mem_cons_self⟩
  use_open c fd s hc hopen := by
    cases c <;> cases hc
    case close => exact ⟨_, if_pos hopen, fun _ => .rfl, fun fd' => by simp [eq_comm (a := fd)]⟩
    all_goals exact ⟨s, by simp [hopen], fun _ => .rfl, fun fd' => by simp⟩
  use_closed c fd s hc hclosed := by
    cases c <;> cases hc <;> simp [hclosed]
  getxattr_ok p name s hp := ⟨none, by simp [hp]⟩
  setxattr_ok p name v s hp := ⟨s, by simp [hp], fun _ => .rfl, fun _ => .rfl⟩
  unlink_ok p s hp := ⟨_, if_pos hp, fun q => by simp⟩

/-- One file of 64 KB, without attributes and without a sync. -/
theorem oneFile_not_clean : ¬ PutsCleanly tableFs (oneFile 0 (by decide)) ⟨0, 0, false⟩ 1 ([], []) :=
  fun hclean => hclean.neverUsesClosed (usesClosed _ _ Nat.one_pos _)

end Put

end Fstest.Smallfile
