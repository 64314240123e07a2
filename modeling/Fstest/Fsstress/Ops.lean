import Fstest.Fsstress.Lists
import Fstest.Lib.NameTree

/-!
# The operations of fsstress

An operation picks an entry, or a directory for a new name, and makes at most one call that changes the
names below the base (`Request`). What it does to the lists depends on whether the call succeeds. All
other operations work on the data or the attributes of what is there: their calls change no name and
no list, so of what they do only the numbers they draw and the errors they count are seen here
(`Quiet`).

`Fs` is the part of the file system below the base. `perform` is what a call does if it succeeds; the
file system may refuse any call.
-/

namespace Fstest.Fsstress

/-! ## The file system -/

/-- What a name other than that of a directory leads to. -/
structure Inode where
  number : ℕ
  kind : Ft
  /-- The target of a symbolic link. -/
  target : String
  deriving DecidableEq, Repr

structure Fs where
  tree : NameTree Inode
  /-- The number of the next inode. -/
  next : ℕ

inductive Call where
  | creat (path : Path)
  | mkdir (path : Path)
  | mknod (path : Path)
  | symlink (target : String) (path : Path)
  | link (src path : Path)
  | unlink (path : Path)
  | rmdir (path : Path)
  | rename (src dest : Path)

namespace Fs

variable (fs : Fs)

/-- A new file of a kind. -/
def make (p : Path) (kind : Ft) (target : String) : Except FsError Fs :=
  (fs.tree.add p (.leaf ⟨fs.next, kind, target⟩)).map fun tree => ⟨tree, fs.next + 1⟩

def withTree (r : Except FsError (NameTree Inode)) : Except FsError Fs :=
  r.map fun tree => { fs with tree }

/-- How many symbolic links an `open` follows. -/
def maxLinks : ℕ := 40

/-- `open` with `O_CREAT`. It follows symbolic links, also one that leads nowhere yet. -/
def openCreate : ℕ → Fs → Path → Except FsError Fs
  | 0, _, _ => .error .loop
  | n + 1, fs, p =>
    match fs.tree.find p with
    | .error e => .error e
    | .ok none => fs.make p .reg ""
    | .ok (some .dir) => .error .isDir
    | .ok (some (.leaf inode)) =>
      if inode.kind = .sym then
        openCreate n fs (p.dropLast ++ (inode.target.splitOn "/").filter (· ≠ ""))
      else .ok fs

def perform : Call → Except FsError Fs
  | .creat p => openCreate maxLinks fs p
  | .mkdir p => fs.withTree (fs.tree.add p .dir)
  | .mknod p => fs.make p .chr ""
  | .symlink target p => if target = "" then .error .noEnt else fs.make p .sym target
  | .link src p => fs.withTree (fs.tree.link src p)
  | .unlink p => fs.withTree (fs.tree.unlink p)
  | .rmdir p => fs.withTree (fs.tree.rmdir p)
  | .rename src dest => fs.withTree (fs.tree.rename src dest)

end Fs

/-! ## Operations -/

inductive Op where
  | creat | write | writeV | read | readV | mRead | mWrite | mkdir | mknod | symlink | rename
  | truncate | setFattr | link | unlink | rmDir | readLink | stat | getDents | getFattr
  | removeFattr | getAttr | fsync | fdatasync | sync | fallocate | punch | zero | collapse | insert
  | cloneRange | copyRange
  deriving DecidableEq, Repr

/-- What is seen of an operation on data: the numbers it draws and the errors it counts. They depend
on the sizes of the files and on the file system. -/
structure Quiet where
  draws : ℕ
  errors : ℕ

/-- A call that changes names, the state of the thread after it succeeds and after it fails, and the
path that is noted if it succeeds. -/
structure Request where
  call : Call
  note : Option Path
  ok : ThreadState
  failed : ThreadState

/-- What an operation comes to. -/
inductive Effect where
  | quiet (st : ThreadState)
  | request (req : Request)

namespace ThreadState

variable (st : ThreadState)

def after (q : Quiet) : ThreadState :=
  { st with rng := fun n => st.rng (n + q.draws), errors := st.errors + q.errors }

/-- An operation on the data or the attributes of an entry of the given types. -/
def dataOp (q : Quiet) (types : List Ft) (r : ℕ) : Effect :=
  match st.lists.getFent types r with
  | none => .quiet st
  | some _ => .quiet (st.after q)

/-- The request for a new name: `add_fent` and `note_created` if the call succeeds. -/
def requestNew (g : Generated) (ft : Ft) (call : Call) : Request where
  call := call
  note := some g.path
  ok := g.st.addFent ft g g.id_lt
  failed := g.st.reportErr

def creat (r : ℕ) : Option Effect :=
  (st.generateName (st.lists.getFent [.dir] r) .reg).map fun g =>
    .request (requestNew g .reg (.creat g.path))

def mkdir (r : ℕ) : Option Effect :=
  (st.generateName (st.lists.getFent [.dir] r) .dir).map fun g =>
    .request (requestNew g .dir (.mkdir g.path))

/-- Both kinds of names are made for character devices. -/
def mknod (r : ℕ) : Option Effect :=
  let ft := if r % 2 = 0 then .chr else .blk
  (st.generateName (st.lists.getFent [.dir] r) ft).map fun g =>
    .request (requestNew g ft (.mknod g.path))

/-- `val` of the operation `symlink`. -/
def symlinkVal (r : ℕ) : String :=
  let len := r % 1024
  String.ofList ((List.range len).map fun i =>
    if 10 ≤ i ∧ i < len - 1 ∧ i % 10 = 0 then '/' else 'x')

def symlink (r : ℕ) : Option Effect :=
  (st.generateName (st.lists.getFent [.dir] r) .sym).map fun g =>
    .request (requestNew g .sym (.symlink (symlinkVal r) g.path))

def link (r : ℕ) : Option Effect :=
  match st.lists.getFent leafTypes r with
  | none => some (.quiet st)
  | some src =>
    let srcPath := st.lists.fentToName src.ft src.fent
    let (rr, st) := st.draw
    (st.generateName (st.lists.getFent [.dir] rr) src.ft).map fun g =>
      .request (requestNew g src.ft (.link srcPath g.path))

def unlink (r : ℕ) : Effect :=
  match st.lists.getFent leafTypes r with
  | none => .quiet st
  | some e => .request {
      call := .unlink (st.lists.fentToName e.ft e.fent)
      note := none
      ok := st.removeFent e.ft e.fent.id
      failed := st.reportErr }

def rmdir (r : ℕ) : Effect :=
  match st.lists.getFent [.dir] r with
  | none => .quiet st
  | some e => .request {
      call := .rmdir (st.lists.fentToName .dir e.fent)
      note := none
      ok := st.removeFent .dir e.fent.id
      failed := st.reportErr }

def rename (r : ℕ) : Option Effect :=
  match st.lists.getFent leafTypes r with
  | none => some (.quiet st)
  | some e =>
    let src := st.lists.fentToName e.ft e.fent
    let (rr, st) := st.draw
    (st.generateName (st.lists.getFent [.dir] rr) e.ft).map fun g =>
      .request {
        call := .rename src g.path
        note := some g.path
        ok := (g.st.removeFent e.ft e.fent.id).addFent e.ft g g.id_lt
        failed := g.st.reportErr }

/-- `fdatasync_like`: it draws a number of its own to pick the file. -/
def fdatasyncLike (q : Quiet) : Effect :=
  let (rr, st) := st.draw
  st.dataOp q [.reg] rr

/-- The operations on ranges, which only Linux has. -/
def fallocRange (linux : Bool) (q : Quiet) (r : ℕ) : Effect :=
  if linux then st.dataOp q [.reg] r else .quiet st

def runOp (linux : Bool) (q : Quiet) (op : Op) (r : ℕ) : Option Effect :=
  match op with
  | .creat => st.creat r
  | .write | .writeV | .mWrite => some (st.dataOp q [.reg] r)
  | .read | .readV | .mRead => some (st.dataOp q [.reg, .sym] r)
  | .mkdir => st.mkdir r
  | .mknod => st.mknod r
  | .symlink => st.symlink r
  | .rename => st.rename r
  | .truncate => some (st.dataOp q [.reg, .sym] r)
  | .setFattr | .getFattr | .removeFattr => some (st.dataOp q [.reg, .dir] r)
  | .link => st.link r
  | .unlink => some (st.unlink r)
  | .rmDir => some (st.rmdir r)
  | .readLink => some (st.dataOp q [.sym] r)
  | .stat | .getAttr => some (st.dataOp q [.dir, .reg, .sym, .chr, .blk, .sock] r)
  | .getDents => some (st.dataOp q [.dir] r)
  | .fsync | .fdatasync => some (st.fdatasyncLike q)
  | .sync => some (.quiet st)
  | .fallocate | .punch | .zero | .collapse | .insert => some (st.fallocRange linux q r)
  | .cloneRange | .copyRange => some (.quiet st)

/-- One turn of the loop of a thread, up to its call. -/
def nextOp (linux : Bool) (q : Quiet) (table : List Op) : Option Effect :=
  let (x, st) := st.draw
  match table[x % table.length]? with
  | none => none
  | some op =>
    let (r, st) := st.draw
    st.runOp linux q op r

end ThreadState

/-! ## What an operation comes to -/

/-- The calls that make a new name of a type. -/
inductive NewCall : Ft → Path → Call → Prop
  | creat (p : Path) : NewCall .reg p (.creat p)
  | mkdir (p : Path) : NewCall .dir p (.mkdir p)
  | mknodChr (p : Path) : NewCall .chr p (.mknod p)
  | mknodBlk (p : Path) : NewCall .blk p (.mknod p)
  | symlink (target : String) (p : Path) : NewCall .sym p (.symlink target p)

/-- The requests that a thread makes in a state. -/
inductive Makes (st : ThreadState) : Request → Prop
  | new {parent : Option st.lists.Picked} {ft : Ft} {g : ThreadState.Generated} {call : Call}
    (hdir : ∀ e, parent = some e → e.ft = .dir) (hg : st.generateName parent ft = some g)
    (hcall : NewCall ft g.path call) : Makes st (ThreadState.requestNew g ft call)
  | link {parent : Option st.lists.Picked} {g : ThreadState.Generated} (src : st.lists.Picked)
    (hsrc : src.ft ≠ .dir) (hdir : ∀ e, parent = some e → e.ft = .dir)
    (hg : st.generateName parent src.ft = some g) :
    Makes st (ThreadState.requestNew g src.ft
      (.link (st.lists.fentToName src.ft src.fent) g.path))
  | unlink (e : st.lists.Picked) (he : e.ft ≠ .dir) : Makes st {
      call := .unlink (st.lists.fentToName e.ft e.fent)
      note := none
      ok := st.removeFent e.ft e.fent.id
      failed := st.reportErr }
  | rmdir (e : st.lists.Picked) (he : e.ft = .dir) : Makes st {
      call := .rmdir (st.lists.fentToName .dir e.fent)
      note := none
      ok := st.removeFent .dir e.fent.id
      failed := st.reportErr }
  | rename {parent : Option st.lists.Picked} {g : ThreadState.Generated} (e : st.lists.Picked)
    (he : e.ft ≠ .dir) (hdir : ∀ e, parent = some e → e.ft = .dir)
    (hg : st.generateName parent e.ft = some g) : Makes st {
      call := .rename (st.lists.fentToName e.ft e.fent) g.path
      note := some g.path
      ok := (g.st.removeFent e.ft e.fent.id).addFent e.ft g g.id_lt
      failed := g.st.reportErr }

namespace ThreadState

/-- The lists and the next id are the same. -/
def SameIds (st st' : ThreadState) : Prop := st'.lists = st.lists ∧ st'.nameseq = st.nameseq

/-- What holds of every effect of an operation: it leaves the lists, or makes a request. -/
def Comes (st : ThreadState) : Effect → Prop
  | .quiet st' => st.SameIds st'
  | .request req => ∃ st₁, st.SameIds st₁ ∧ Makes st₁ req

variable {st : ThreadState} {e : Effect} {q : Quiet} {linux : Bool} {r : ℕ}

theorem comes_dataOp (st : ThreadState) (q : Quiet) (types : List Ft) (r : ℕ) :
    st.Comes (st.dataOp q types r) := by
  rw [dataOp]
  split
  · exact ⟨rfl, rfl⟩
  · exact ⟨rfl, rfl⟩

theorem dir_of_getFent {l : Lists} {r : ℕ} : ∀ e, l.getFent [.dir] r = some e → e.ft = .dir :=
  fun _ h => List.mem_singleton.mp (Lists.getFent_ft h)

theorem leaf_of_getFent {l : Lists} {r : ℕ} {e : l.Picked} (h : l.getFent leafTypes r = some e) :
    e.ft ≠ .dir := by
  intro hdir
  have hmem := Lists.getFent_ft h
  rw [hdir] at hmem
  revert hmem
  decide

/-- An operation that makes a new name in a directory. -/
theorem comes_new {ft : Ft} {call : Generated → Call} (hcall : ∀ g, NewCall ft g.path (call g))
    (h : (st.generateName (st.lists.getFent [.dir] r) ft).map
      (fun g => Effect.request (requestNew g ft (call g))) = some e) : st.Comes e := by
  obtain ⟨g, hg, rfl⟩ := Option.map_eq_some_iff.mp h
  exact ⟨st, ⟨rfl, rfl⟩, .new dir_of_getFent hg (hcall g)⟩

theorem comes_mknod (h : st.mknod r = some e) : st.Comes e := by
  rw [mknod] at h
  split at h
  · exact comes_new (fun g => .mknodChr g.path) h
  · exact comes_new (fun g => .mknodBlk g.path) h

theorem comes_link (h : st.link r = some e) : st.Comes e := by
  rw [link] at h
  split at h
  · cases h
    exact ⟨rfl, rfl⟩
  · rename_i src hsrc
    obtain ⟨g, hg, rfl⟩ := Option.map_eq_some_iff.mp h
    exact ⟨st.draw.2, ⟨rfl, rfl⟩,
      @Makes.link st.draw.2 _ g src (leaf_of_getFent hsrc) dir_of_getFent hg⟩

theorem comes_unlink (st : ThreadState) (r : ℕ) : st.Comes (st.unlink r) := by
  rw [unlink]
  split
  · exact ⟨rfl, rfl⟩
  · rename_i e he
    exact ⟨st, ⟨rfl, rfl⟩, .unlink e (leaf_of_getFent he)⟩

theorem comes_rmdir (st : ThreadState) (r : ℕ) : st.Comes (st.rmdir r) := by
  rw [rmdir]
  split
  · exact ⟨rfl, rfl⟩
  · rename_i e he
    exact ⟨st, ⟨rfl, rfl⟩, .rmdir e (dir_of_getFent e he)⟩

theorem comes_rename (h : st.rename r = some e) : st.Comes e := by
  rw [rename] at h
  split at h
  · cases h
    exact ⟨rfl, rfl⟩
  · rename_i src hsrc
    obtain ⟨g, hg, rfl⟩ := Option.map_eq_some_iff.mp h
    exact ⟨st.draw.2, ⟨rfl, rfl⟩,
      @Makes.rename st.draw.2 _ g src (leaf_of_getFent hsrc) dir_of_getFent hg⟩

/-- **What every operation comes to.** -/
theorem comes_runOp {op : Op} (h : st.runOp linux q op r = some e) : st.Comes e := by
  have hdata : ∀ {types : List Ft} {r : ℕ}, some (st.dataOp q types r) = some e → st.Comes e := by
    intro types r h
    cases h
    exact comes_dataOp st q types r
  have hfalloc : some (st.fallocRange linux q r) = some e → st.Comes e := by
    intro h
    cases linux with
    | true => exact hdata h
    | false =>
      cases h
      exact ⟨rfl, rfl⟩
  have hsync : some (st.fdatasyncLike q) = some e → st.Comes e := by
    intro h
    cases h
    exact comes_dataOp st.draw.2 q [.reg] st.draw.1
  have hnone : some (.quiet st) = some e → st.Comes e := by
    intro h
    cases h
    exact ⟨rfl, rfl⟩
  cases op with
  | creat => exact comes_new (fun g => .creat g.path) h
  | mkdir => exact comes_new (fun g => .mkdir g.path) h
  | mknod => exact comes_mknod h
  | symlink => exact comes_new (fun g => .symlink _ g.path) h
  | link => exact comes_link h
  | unlink =>
    cases h
    exact comes_unlink st r
  | rmDir =>
    cases h
    exact comes_rmdir st r
  | rename => exact comes_rename h
  | write | writeV | mWrite | read | readV | mRead | truncate | setFattr | getFattr | removeFattr
  | readLink | stat | getAttr | getDents => exact hdata h
  | fsync | fdatasync => exact hsync h
  | fallocate | punch | zero | collapse | insert => exact hfalloc h
  | sync | cloneRange | copyRange => exact hnone h

theorem comes_nextOp {table : List Op} (h : st.nextOp linux q table = some e) : st.Comes e := by
  cases hop : table[st.draw.1 % table.length]? with
  | none =>
    simp only [nextOp, hop] at h
    cases h
  | some op =>
    simp only [nextOp, hop] at h
    have hcomes : st.draw.2.draw.2.Comes e := comes_runOp h
    exact hcomes

end ThreadState

end Fstest.Fsstress
