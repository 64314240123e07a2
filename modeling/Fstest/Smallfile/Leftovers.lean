import Fstest.Lib.Recast
import Fstest.Smallfile.Readdir
import Fstest.Smallfile.SwiftPut

/-!
# What invocations of smallfile leave

An invocation with `--operation` goes through one phase. A call of a thread may fail, a write may fail in
its middle, and the program may be killed at any moment; the next invocation finds what there is then
(`Left`). All that the phases put below the top directory has one of a few names (`Litter`), whatever
comes in their way, and these are the names that `do_cleanup` tries (`Smallfile.Worker.leaves`).

The operations that list directories change nothing. Those of Swift and `await-create` are left out.
-/

namespace Fstest.Smallfile

open NameTree
open Threads (Only OnlyX Reaches recastX)

/-! ## Calls that may fail -/

inductive SysCall where
  | base (c : Call)
  | symlink (orig p : Path)
  | chmod (p : Path) (mode : ℕ)
  | setXattr (p : Path) (name : String) (value : Bytes)
  | getXattr (p : Path) (name : String)

/-- What becomes of a call. -/
inductive Event where
  /-- The call is done. The value is that of the attribute, if the call asks for one. -/
  | done (value : Option Bytes)
  | fault (e : FsError)
  /-- A write fails after `n` bytes. -/
  | short (e : FsError) (n : ℕ)
  deriving DecidableEq, Repr

/-- The tree, and what becomes of the next calls. -/
structure World where
  tree : NameTree Bytes
  events : List Event

/-- The link is a leaf: no path leads through it. Attributes are no part of the tree. -/
def perform (value : Option Bytes) : SysCall → NameTree Bytes → Reply × NameTree Bytes
  | .base c, t => apply c t
  | .symlink _ p, t => settle t (add t p (.leaf []))
  | .chmod p _, t | .setXattr p _ _, t => apply (.stat p) t
  | .getXattr p _, t =>
    match (apply (.stat p) t).1 with
    | .ok _ => (.ok (value.elim .done .data), t)
    | .error e => (.error e, t)

/-- What is done of a call that fails after `n` bytes. -/
def cutShort (n : ℕ) : SysCall → NameTree Bytes → NameTree Bytes
  | .base (.write p pos data), t => (apply (.write p pos (data.take n)) t).2
  | _, t => t

def eff (c : SysCall) (m : World) : Reply × World :=
  match m.events with
  | [] => ((perform none c m.tree).1, ⟨(perform none c m.tree).2, []⟩)
  | .done value :: rest => ((perform value c m.tree).1, ⟨(perform value c m.tree).2, rest⟩)
  | .fault e :: rest => (.error e, ⟨m.tree, rest⟩)
  | .short e n :: rest => (.error e, ⟨cutShort n c m.tree, rest⟩)

/-! ## The operations -/

abbrev SysThread := ExceptT Failure (Prog SysCall Reply)

abbrev lift {α : Type} (x : Thread α) : SysThread α := recastX .base x

def sysCall (c : SysCall) : SysThread Answer := do
  match ← ExceptT.lift (Prog.ask c) with
  | .ok a => pure a
  | .error e => throw (.os e)

/-- The operations of `do_simple`. -/
inductive SimpleOp where
  | delete
  | stat
  | chmod
  | mkdir
  | rmdir
  deriving DecidableEq, Repr

inductive PhaseOp where
  | suite (op : SuiteOp)
  | simple (op : SimpleOp)
  | overwrite
  | truncateOverwrite
  | symlink
  | setxattr
  | getxattr
  deriving DecidableEq, Repr

def PhaseOp.opname : PhaseOp → OpName
  | suite op => op.opname
  | simple .delete => .delete
  | simple .stat => .stat
  | simple .chmod => .chmod
  | simple .mkdir => .mkdir
  | simple .rmdir => .rmdir
  | overwrite => .overwrite
  | truncateOverwrite => .truncateOverwrite
  | symlink => .symlink
  | setxattr => .setxattr
  | getxattr => .getxattr

def simpleCall (op : SimpleOp) (fnm : Path) : SysCall :=
  match op with
  | .delete => .base (.unlink fnm)
  | .stat => .base (.stat fnm)
  | .chmod => .chmod fnm 0o646
  | .mkdir => .base (.mkdir (suffixed fnm ".d"))
  | .rmdir => .base (.rmdir (suffixed fnm ".d"))

def userXattrName (j : ℕ) : String := "user.smallfile-" ++ toString j

namespace Worker

variable (w : Worker) (o : Put.Options)

def eachFileSys (body : ℕ → SysThread Unit) : SysThread Unit := (List.range' 1 w.p.iterations).forM body

def doSimple (op : SimpleOp) : SysThread Unit := w.eachFileSys fun filenum => do
  let _ ← sysCall (simpleCall op (w.mkFileNm .src filenum))

def doSymlink : SysThread Unit := w.eachFileSys fun filenum => do
  let orig := w.mkFileNm .src filenum
  let _ ← sysCall (.symlink orig (suffixed (w.mkFileNm .dest filenum) ".s"))

def doSetxattr : SysThread Unit := w.eachFileSys fun filenum => do
  let fnm := w.mkFileNm .src filenum
  let _ ← sysCall (.base (.openFile fnm false))
  (List.range o.xattrCount).forM fun j => do
    let _ ← sysCall (.setXattr fnm (userXattrName j) (Put.xattrValue o (w.uniqueOffset filenum) j))

/-- An attribute that is not there, or has another value, is an error. -/
def doGetxattr : SysThread Unit := w.eachFileSys fun filenum => do
  let fnm := w.mkFileNm .src filenum
  (List.range o.xattrCount).forM fun j => do
    let value ← sysCall (.getXattr fnm (userXattrName j))
    if value = .data (Put.xattrValue o (w.uniqueOffset filenum) j) then pure () else throw .other

def runPhaseOp : PhaseOp → SysThread Unit
  | .suite op => lift (w.runOp op)
  | .simple op => w.doSimple op
  | .overwrite => lift (w.doWrite false false)
  | .truncateOverwrite => lift (w.doWrite false true)
  | .symlink => w.doSymlink
  | .setxattr => w.doSetxattr o
  | .getxattr => w.doGetxattr o

def phaseSetup (op : PhaseOp) : SysThread Unit :=
  if needsSetup op.opname then lift w.makeAllSubdirs else pure ()

/-- The closure that `run_phase` spawns, once the worker is made. -/
def phaseProgram (op : PhaseOp) : SysThread Unit := do
  let _ ← w.phaseSetup op
  ExceptT.lift Prog.pause
  w.runPhaseOp o op

/-- The names that `do_cleanup` tries for one file, in its order. -/
def leaves (filenum : ℕ) : List Path :=
  let basenm := w.mkFileNm .src filenum
  let dest := w.mkFileNm .dest filenum
  [suffixed dest ".s", basenm, suffixed basenm ".rnm", dest, suffixed dest ".rnm"]

def subdir (filenum : ℕ) : Path := suffixed (w.mkFileNm .src filenum) ".d"

end Worker

/-- **The trees that invocations leave**, with whatever operations, from an empty top directory: after
the base directories, or what there is of them, and at any moment of a phase. -/
inductive Left (p : SuiteParams) (dirs : List (List String)) (o : Put.Options) : NameTree Bytes → Prop
  | empty {t : NameTree Bytes} (h : SuiteRun.EmptyTop p t) : Left p dirs o t
  | bases {t : NameTree Bytes} (h : Left p dirs o t) (events : List Event) :
    Left p dirs o ((lift p.createBases).run.exec eff ⟨t, events⟩).2.tree
  | phase {t : NameTree Bytes} (h : Left p dirs o t) (events : List Event) (op : PhaseOp)
    (hbases : ((lift p.createBases).run.exec eff ⟨t, events⟩).1 = .ok ())
    {s : Threads.State (Fin p.threads) SysCall Reply Status World}
    (hrun : Reaches eff ⟨fun i => ((worker p dirs i).phaseProgram o op).run,
      ((lift p.createBases).run.exec eff ⟨t, events⟩).2⟩ s) : Left p dirs o s.mem.tree

section

variable (p : SuiteParams) (dirs : List (List String))

def LeafSpot (q : Path) : Prop :=
  ∃ (i : Fin p.threads) (n : ℕ), (worker p dirs i).InRange n ∧ q ∈ (worker p dirs i).leaves n

def SubdirSpot (q : Path) : Prop :=
  ∃ (i : Fin p.threads) (n : ℕ), (worker p dirs i).InRange n ∧ q = (worker p dirs i).subdir n

def LitterSpot (q : Path) : Node Bytes → Prop
  | .dir => DirSpot p dirs q ∨ SubdirSpot p dirs q
  | .leaf _ => LeafSpot p dirs q

/-- The calls of the phases. -/
def LitterCall : SysCall → Prop
  | .base (.mkdir q) => LitterSpot p dirs q .dir
  | .base (.createNew q) | .base (.rename _ q) | .symlink _ q => LeafSpot p dirs q
  | .base (.rmdir q) => q ≠ p.top
  | _ => True

/-- Below the top directory there is nothing but what has one of the names. -/
structure Litter (t : NameTree Bytes) : Prop where
  rooted : Rooted t
  top : IsDir t p.top
  spot : ∀ q node, p.top <+: q → q ≠ p.top → t.lookup q = some node → LitterSpot p dirs q node

end

variable {p : SuiteParams} {dirs : List (List String)} {o : Put.Options} {t t' : NameTree Bytes}
  {q d : Path} {node : Node Bytes}

/-! ## What the calls keep -/

/-- What a call puts at a path. -/
def Call.Puts (q : Path) (node : Node Bytes) : Call → Prop
  | .mkdir p => q = p ∧ node = .dir
  | .createNew p => q = p ∧ node = .leaf []
  | .rename _ dest => q = dest ∧ ∃ a, node = .leaf a
  | _ => False

theorem lookup_settle_some {r : Except FsError (NameTree Bytes)} {P : Prop}
    (h : (settle t r).2.lookup q = some node) (hr : ∀ t', r = .ok t' → t'.lookup q = some node → P)
    (hsame : t.lookup q = some node → P) : P := by
  cases r with
  | error e => exact hsame h
  | ok t' => exact hr t' rfl h

theorem lookup_insert_some {a : Node Bytes} (h : (t.insert d a).lookup q = some node) :
    q = d ∧ node = a ∨ t.lookup q = some node := by
  by_cases hq : q = d
  · rw [hq, AList.lookup_insert] at h
    exact .inl ⟨hq, (Option.some.inj h).symm⟩
  · rw [AList.lookup_insert_ne hq] at h
    exact .inr h

theorem lookup_erase_some (h : (t.erase d).lookup q = some node) : t.lookup q = some node := by
  by_cases hq : q = d
  · rw [hq, AList.lookup_erase] at h
    cases h
  · rwa [AList.lookup_erase_ne hq] at h

theorem lookup_onFile_some {f : Bytes → Answer × NameTree Bytes} {P : Prop}
    (h : (onFile t d f).2.lookup q = some node)
    (hf : ∀ a, t.lookup d = some (.leaf a) → (f a).2.lookup q = some node → P)
    (hsame : t.lookup q = some node → P) : P := by
  rw [onFile] at h
  split at h
  · rename_i a ha
    exact hf a (leafAt_ok ha) h
  · exact hsame h

/-- **What there is after a call** was there before, but for the contents of a file, or the call has put
it there. -/
theorem lookup_apply_some {c : Call} (h : (apply c t).2.lookup q = some node) :
    t.lookup q = some node ∨ (∃ a b, node = .leaf a ∧ t.lookup q = some (.leaf b)) ∨ c.Puts q node := by
  have hwritten : ∀ {d : Path} {a b : Bytes}, t.lookup d = some (.leaf b) →
      (t.insert d (.leaf a)).lookup q = some node → t.lookup q = some node ∨
        (∃ a b, node = .leaf a ∧ t.lookup q = some (.leaf b)) ∨ c.Puts q node := by
    intro d a b hb hq
    rcases lookup_insert_some hq with ⟨rfl, hnode⟩ | hq
    · exact .inr (.inl ⟨a, b, hnode, hb⟩)
    · exact .inl hq
  cases c with
  | mkdir p =>
    refine lookup_settle_some h (fun t' ht hq => ?_) .inl
    obtain ⟨-, -, -, rfl⟩ := add_ok ht
    exact (lookup_insert_some hq).elim (fun hput => .inr (.inr hput)) .inl
  | createNew p =>
    refine lookup_settle_some h (fun t' ht hq => ?_) .inl
    obtain ⟨-, -, -, rfl⟩ := add_ok ht
    exact (lookup_insert_some hq).elim (fun hput => .inr (.inr hput)) .inl
  | rmdir p =>
    refine lookup_settle_some h (fun t' ht hq => ?_) .inl
    obtain ⟨-, -, rfl⟩ := rmdir_ok ht
    exact .inl (lookup_erase_some hq)
  | unlink p =>
    refine lookup_settle_some h (fun t' ht hq => ?_) .inl
    obtain ⟨-, rfl⟩ := unlink_ok ht
    exact .inl (lookup_erase_some hq)
  | rename src dest =>
    refine lookup_settle_some h (fun t' ht hq => ?_) .inl
    obtain ⟨a, -, -, -, -, rfl | rfl⟩ := move_ok ht
    · exact .inl hq
    · rcases lookup_insert_some hq with ⟨hdest, hnode⟩ | hq
      · exact .inr (.inr ⟨hdest, a, hnode⟩)
      · exact .inl (lookup_erase_some hq)
  | stat p =>
    rw [apply] at h
    split at h <;> exact .inl h
  | openFile p truncate =>
    refine lookup_onFile_some h (fun b hb hq => ?_) .inl
    split at hq
    · exact hwritten hb hq
    · exact .inl hq
  | seekEnd p => exact lookup_onFile_some h (fun _ _ hq => .inl hq) .inl
  | write p pos data => exact lookup_onFile_some h (fun b hb hq => hwritten hb hq) .inl
  | read p pos n => exact lookup_onFile_some h (fun _ _ hq => .inl hq) .inl

/-- A directory stays, unless it is the one that is removed. -/
theorem isDir_apply {c : Call} (h : IsDir t d) (hc : ∀ p, c = .rmdir p → p ≠ d) :
    IsDir (apply c t).2 d := by
  have hadd : ∀ p node, IsDir (settle t (add t p node)).2 d := by
    intro p node
    cases hadd : add t p node with
    | error e => exact h
    | ok t' =>
      obtain ⟨-, -, hnew, rfl⟩ := add_ok hadd
      exact h.insert fun hdir => absurd (mem_of_lookup hdir) hnew
  have hleaf : ∀ {p : Path} {a : Bytes}, t.lookup p = some (.leaf a) → d = [] ∨ d ≠ p := by
    intro p a ha
    refine h.imp id fun hdir heq => ?_
    rw [heq, ha] at hdir
    cases hdir
  have hfile : ∀ {p : Path} {f : Bytes → Answer × NameTree Bytes},
      (∀ a, t.lookup p = some (.leaf a) → IsDir (f a).2 d) → IsDir (onFile t p f).2 d := by
    intro p f hf
    rw [onFile]
    split
    · rename_i a ha
      exact hf a (leafAt_ok ha)
    · exact h
  have hwritten : ∀ {p : Path} {a b : Bytes}, t.lookup p = some (.leaf a) →
      IsDir (t.insert p (.leaf b)) d := fun ha => h.insert fun hdir => by
    rw [ha] at hdir
    cases hdir
  cases c with
  | mkdir p => exact hadd p .dir
  | createNew p => exact hadd p (.leaf [])
  | rmdir p =>
    rw [apply]
    cases hr : rmdir t p with
    | error e => exact h
    | ok t' =>
      obtain ⟨-, -, rfl⟩ := rmdir_ok hr
      exact h.erase (hc p rfl).symm
  | unlink p =>
    rw [apply]
    cases hr : unlink t p with
    | error e => exact h
    | ok t' =>
      obtain ⟨⟨a, ha⟩, rfl⟩ := unlink_ok hr
      exact (hleaf ha).elim .inl fun hne => h.erase hne
  | rename src dest =>
    rw [apply]
    cases hr : move t src dest with
    | error e => exact h
    | ok t' =>
      obtain ⟨a, ha, -, -, hdest, rfl | rfl⟩ := move_ok hr
      · exact h
      · rcases hleaf ha with hnil | hne
        · exact .inl hnil
        · exact (h.erase hne).insert fun hdir => absurd (lookup_erase_some hdir) hdest
  | stat p =>
    rw [apply]
    split <;> exact h
  | openFile p truncate =>
    refine hfile fun a ha => ?_
    split
    · exact hwritten ha
    · exact h
  | seekEnd p => exact hfile fun _ _ => h
  | write p pos data => exact hfile fun _ ha => hwritten ha
  | read p pos n => exact hfile fun _ _ => h

theorem Litter.apply {c : Call} (h : Litter p dirs t) (hc : LitterCall p dirs (.base c)) :
    Litter p dirs (apply c t).2 where
  rooted := rooted_apply h.rooted c
  top := isDir_apply h.top fun q hq => by
    rw [hq] at hc
    exact hc
  spot q node hge hne hq := by
    rcases lookup_apply_some hq with hold | ⟨a, b, rfl, hold⟩ | hput
    · exact h.spot q node hge hne hold
    · exact h.spot q (.leaf b) hge hne hold
    · cases c with
      | mkdir p =>
        obtain ⟨rfl, rfl⟩ := hput
        exact hc
      | createNew p =>
        obtain ⟨rfl, rfl⟩ := hput
        exact hc
      | rename src dest =>
        obtain ⟨rfl, a, rfl⟩ := hput
        exact hc
      | _ => exact hput.elim

/-- A link is put where a file may be. -/
theorem Litter.add_leaf (h : Litter p dirs t) (hd : LeafSpot p dirs d) :
    Litter p dirs (settle t (add t d (.leaf []))).2 :=
  h.apply (c := .createNew d) hd

theorem Litter.perform {c : SysCall} (h : Litter p dirs t) (hc : LitterCall p dirs c) (value :
    Option Bytes) :
    Litter p dirs (perform value c t).2 := by
  cases c with
  | base c => exact h.apply hc
  | symlink orig q => exact h.add_leaf hc
  | chmod q mode => exact h.apply (c := .stat q) trivial
  | setXattr q name v => exact h.apply (c := .stat q) trivial
  | getXattr q name =>
    rw [Smallfile.perform]
    split <;> exact h

theorem Litter.cutShort (h : Litter p dirs t) (n : ℕ) (c : SysCall) : Litter p dirs (cutShort n c t) := by
  unfold Smallfile.cutShort
  split
  · rename_i q pos data
    exact h.apply (c := .write q pos (data.take n)) trivial
  · exact h

/-- **No call of a phase leaves anything else**, whatever becomes of it. -/
theorem litter_eff (c : SysCall) (m : World) (hc : LitterCall p dirs c) (h : Litter p dirs m.tree) :
    Litter p dirs (eff c m).2.tree := by
  rw [eff]
  split
  · exact h.perform hc none
  · exact h.perform hc _
  · exact h
  · exact h.cutShort _ c

/-! ## What the programs call -/

/-- All calls of the part are those of the phases. -/
abbrev Tidy (p : SuiteParams) (dirs : List (List String)) {α : Type} (x : Thread α) : Prop :=
  OnlyX (fun c => LitterCall p dirs (.base c)) x

theorem Tidy.lift {α : Type} {x : Thread α} (h : Tidy p dirs x) : OnlyX (LitterCall p dirs) (lift x) :=
  OnlyX.recast h

theorem ask_tidy {c : Call} (h : LitterCall p dirs (.base c)) : Tidy p dirs (ask c) := OnlyX.ask h

theorem sys_tidy {c : Call} (h : LitterCall p dirs (.base c)) : Tidy p dirs (sys c) := by
  refine (ask_tidy h).bind fun r => ?_
  cases r with
  | ok a => exact .pure
  | error e => exact .throw

theorem sysCall_only {c : SysCall} (h : LitterCall p dirs c) : OnlyX (LitterCall p dirs) (sysCall c) := by
  refine (OnlyX.ask h).bind fun r => ?_
  cases r with
  | ok a => exact .pure
  | error e => exact .throw

theorem okIfDir_tidy (d : Path) (e : FsError) : Tidy p dirs (okIfDir d e) := by
  refine (OnlyX.ask trivial).bind fun r => ?_
  split
  · exact .pure
  · exact .throw

/-- An error that says that the parent is missing leads up, to where there is nothing to make. -/
theorem createDirAll_tidy (hd : DirSpot p dirs d) : Tidy p dirs (createDirAll d) := by
  have hmkdir : LitterCall p dirs (.base (.mkdir d)) := .inl hd
  induction d using List.reverseRecOn with
  | nil =>
    rw [createDirAll]
    refine (ask_tidy hmkdir).bind fun r => ?_
    split
    · exact .pure
    · exact .throw
    · exact okIfDir_tidy _ _
  | append_singleton d n ih =>
    have hne : d ++ [n] ≠ [] := List.append_ne_nil_of_right_ne_nil _ (List.cons_ne_nil _ _)
    have hparent : DirSpot p dirs d := hd.of_prefix (List.prefix_append d [n])
    rw [createDirAll]
    refine (ask_tidy hmkdir).bind fun r => ?_
    split
    · exact .pure
    · rw [dif_neg hne, List.dropLast_concat]
      refine (ih hparent (.inl hparent)).bind fun _ => (ask_tidy hmkdir).bind fun r => ?_
      split
      · exact .pure
      · exact okIfDir_tidy _ _
    · exact okIfDir_tidy _ _

theorem createBases_tidy : Tidy p dirs p.createBases := by
  refine OnlyX.forM fun d hd => createDirAll_tidy (.inl ?_)
  rcases List.mem_pair.mp hd with rfl | rfl
  exacts [⟨.src, List.prefix_refl _⟩, ⟨.dest, List.prefix_refl _⟩]

theorem ensureDeleted_tidy (q : Path) : Tidy p dirs (ensureDeleted q) := by
  refine (OnlyX.ask trivial).bind fun r => ?_
  split
  · exact .pure
  · exact .pure
  · exact .throw

theorem climb_tidy {root : Path} (hroot : p.top.length < root.length) (cur : Path) :
    Tidy p dirs (climb root cur) := by
  induction cur using List.reverseRecOn with
  | nil =>
    rw [climb, dif_neg fun h => ne_nil_of_below h rfl]
    exact .pure
  | append_singleton cur n ih =>
    rw [climb]
    split
    · rename_i hbelow
      have hne : cur ++ [n] ≠ p.top := fun heq => by
        have := hbelow.1.length_le
        rw [heq] at this
        omega
      have hrmdir : LitterCall p dirs (.base (.rmdir (cur ++ [n]))) := hne
      refine (ask_tidy hrmdir).bind fun r => ?_
      rw [List.dropLast_concat]
      split
      · exact ih
      · exact ih
      · exact .pure
      · exact .pure
      · exact .pure
      · exact .throw
    · exact .pure

theorem writeRecords_tidy (fnm : Path) (uo pos : ℕ) (kbs : List ℕ) :
    Tidy p dirs (writeRecords fnm uo pos kbs) := by
  induction kbs generalizing pos with
  | nil => exact .pure
  | cons kb kbs ih => exact (sys_tidy (by trivial)).bind fun _ => ih _

theorem readRecords_tidy (verify : Bool) (fnm : Path) (uo pos : ℕ) (kbs : List ℕ) :
    Tidy p dirs (readRecords verify fnm uo pos kbs) := by
  induction kbs generalizing pos with
  | nil => exact .pure
  | cons kb kbs ih =>
    refine (sys_tidy (by trivial)).bind fun scratch => ?_
    split
    · exact .throw
    · split
      · exact .throw
      · exact ih _

namespace Worker

variable {i : Fin p.threads} {n : ℕ}

theorem mem_leaves_src (w : Worker) (n : ℕ) : w.mkFileNm .src n ∈ w.leaves n :=
  List.mem_cons_of_mem _ List.mem_cons_self

theorem renamed_mem_leaves (w : Worker) (n : ℕ) : w.renamed n ∈ w.leaves n := by
  have hdest : ∀ x : Path, x = w.mkFileNm .dest n ∨ x = suffixed (w.mkFileNm .dest n) ".rnm" →
      x ∈ w.leaves n := by
    rintro x (rfl | rfl) <;> simp [leaves]
  refine hdest _ ?_
  rw [renamed]
  split
  · exact .inr rfl
  · exact .inl rfl

theorem eachFile_only {P : SysCall → Prop} {body : ℕ → SysThread Unit} (w : Worker)
    (h : ∀ n, w.InRange n → OnlyX P (body n)) : OnlyX P (w.eachFileSys body) :=
  OnlyX.forM fun n hn => h n (by rw [List.mem_range'_1] at hn; exact ⟨hn.1, by omega⟩)

theorem eachFile_tidy {body : ℕ → Thread Unit} (w : Worker) (h : ∀ n, w.InRange n → Tidy p dirs (body n)) :
    Tidy p dirs (w.eachFile body) :=
  OnlyX.forM fun n hn => h n (by rw [List.mem_range'_1] at hn; exact ⟨hn.1, by omega⟩)

theorem top_lt_root (s : Side) : p.top.length < ((worker p dirs i).root s).length := by
  rw [length_root]
  split <;> omega

theorem subdir_ne_top : (worker p dirs i).subdir n ≠ p.top := fun heq => by
  have hlen := congrArg List.length heq
  have hroot : p.top.length < ((worker p dirs i).root .src).length := top_lt_root .src
  rw [subdir, suffixed, mkFileNm_eq_root, List.dropLast_concat, List.length_append,
    List.length_append] at hlen
  omega

theorem makeAllSubdirs_tidy : Tidy p dirs (worker p dirs i).makeAllSubdirs := by
  rw [makeAllSubdirs]
  split
  · exact .pure
  · refine OnlyX.forM fun d hd => createDirAll_tidy (.inr ?_)
    obtain ⟨s, hs⟩ := mem_dirset_subdirs.mp hd
    exact ⟨i, s, d, hs, List.prefix_refl d⟩

theorem doWrite_tidy (append truncate : Bool) : Tidy p dirs ((worker p dirs i).doWrite append truncate) := by
  refine eachFile_tidy _ fun n _ => (sys_tidy ?_).bind fun _ => ?_
  · exact trivial
  · cases append with
    | true => exact (sys_tidy (by trivial)).bind fun _ => writeRecords_tidy _ _ _ _
    | false => exact OnlyX.pure.bind fun _ => writeRecords_tidy _ _ _ _

theorem cleanAllSubdirs_tidy : Tidy p dirs (worker p dirs i).cleanAllSubdirs := by
  rw [cleanAllSubdirs]
  split
  · exact .pure
  · exact OnlyX.forM fun s _ => OnlyX.forM fun d _ => climb_tidy (top_lt_root s) d

/-- **Every operation of a suite** makes calls of the phases only. -/
theorem runOp_tidy (op : SuiteOp) : Tidy p dirs ((worker p dirs i).runOp op) := by
  cases op with
  | cleanup =>
    refine (eachFile_tidy _ fun n hn => ?_).bind fun _ => cleanAllSubdirs_tidy
    refine (OnlyX.forM fun q _ => ensureDeleted_tidy q).bind fun _ => ?_
    refine (ask_tidy (by trivial)).bind fun r => ?_
    have hrmdir : LitterCall p dirs (.base (.rmdir ((worker p dirs i).subdir n))) := subdir_ne_top
    split
    · exact (sys_tidy hrmdir).bind fun _ => .pure
    · exact .pure
  | create =>
    refine eachFile_tidy _ fun n hn => ?_
    have hcreate : LitterCall p dirs (.base (.createNew ((worker p dirs i).mkFileNm .src n))) :=
      ⟨i, n, hn, mem_leaves_src _ n⟩
    exact (sys_tidy hcreate).bind fun _ => writeRecords_tidy _ _ _ _
  | read => exact eachFile_tidy _ fun n _ => (sys_tidy (by trivial)).bind fun _ => readRecords_tidy _ _ _ _ _
  | append => exact doWrite_tidy true false
  | rename =>
    refine eachFile_tidy _ fun n hn => ?_
    have hrename : LitterCall p dirs
        (.base (.rename ((worker p dirs i).mkFileNm .src n) ((worker p dirs i).renamed n))) :=
      ⟨i, n, hn, renamed_mem_leaves _ n⟩
    exact (sys_tidy hrename).bind fun _ => .pure
  | deleteRenamed => exact eachFile_tidy _ fun n _ => (sys_tidy (by trivial)).bind fun _ => .pure

theorem simpleCall_litter (op : SimpleOp) (hn : (worker p dirs i).InRange n) :
    LitterCall p dirs (simpleCall op ((worker p dirs i).mkFileNm .src n)) := by
  cases op with
  | mkdir => exact .inr ⟨i, n, hn, rfl⟩
  | rmdir => exact subdir_ne_top
  | _ => trivial

/-- **Every operation** makes calls of the phases only. -/
theorem runPhaseOp_only (o : Put.Options) (op : PhaseOp) :
    OnlyX (LitterCall p dirs) ((worker p dirs i).runPhaseOp o op) := by
  cases op with
  | suite op => exact (runOp_tidy op).lift
  | simple op => exact eachFile_only _ fun n hn => (sysCall_only (simpleCall_litter op hn)).bind fun _ =>
    .pure
  | overwrite => exact (doWrite_tidy false false).lift
  | truncateOverwrite => exact (doWrite_tidy false true).lift
  | symlink =>
    refine eachFile_only _ fun n hn => ?_
    have hlink : LitterCall p dirs (.symlink ((worker p dirs i).mkFileNm .src n)
        (suffixed ((worker p dirs i).mkFileNm .dest n) ".s")) := ⟨i, n, hn, List.mem_cons_self⟩
    exact (sysCall_only hlink).bind fun _ => .pure
  | setxattr =>
    refine eachFile_only _ fun n _ => (sysCall_only (by trivial)).bind fun _ => OnlyX.forM fun j _ => ?_
    exact (sysCall_only (by trivial)).bind fun _ => .pure
  | getxattr =>
    refine eachFile_only _ fun n _ => OnlyX.forM fun j _ => (sysCall_only (by trivial)).bind fun value => ?_
    split
    · exact .pure
    · exact .throw

theorem phaseProgram_only (o : Put.Options) (op : PhaseOp) :
    OnlyX (LitterCall p dirs) ((worker p dirs i).phaseProgram o op) := by
  have hsetup : OnlyX (LitterCall p dirs) ((worker p dirs i).phaseSetup op) := by
    rw [phaseSetup]
    split
    · exact makeAllSubdirs_tidy.lift
    · exact .pure
  exact hsetup.bind fun _ => OnlyX.pause.bind fun _ => runPhaseOp_only (i := i) o op

end Worker

/-! ## What invocations leave -/

theorem litter_of_emptyTop (h : SuiteRun.EmptyTop p t) : Litter p dirs t where
  rooted := h.rooted
  top := h.top
  spot q node hge hne hq := by
    rw [h.empty q hge hne] at hq
    cases hq

theorem litter_bases (h : Litter p dirs t) (events : List Event) :
    Litter p dirs ((lift p.createBases).run.exec eff ⟨t, events⟩).2.tree :=
  Only.exec (J := fun m : World => Litter p dirs m.tree) (fun c m hc hm => litter_eff c m hc hm)
    createBases_tidy.lift h

/-- **All that invocations leave** has one of the names. -/
theorem Left.litter (h : Left p dirs o t) : Litter p dirs t := by
  induction h with
  | empty h => exact litter_of_emptyTop h
  | bases _ events ih => exact litter_bases ih events
  | phase _ events op _ hrun ih =>
    have honly : ∀ i, Only (LitterCall p dirs) ((worker p dirs i).phaseProgram o op).run := fun i =>
      Worker.phaseProgram_only (i := i) o op
    exact Only.keeps (J := fun m : World => Litter p dirs m.tree) (fun c m hc hm => litter_eff c m hc hm)
      honly (litter_bases ih events) hrun

/-! ## Phases without failures -/

theorem eff_base (c : Call) (t : NameTree Bytes) :
    eff (.base c) ⟨t, []⟩ = ((apply c t).1, ⟨(apply c t).2, []⟩) := rfl

theorem Worker.phaseProgram_suite (w : Worker) (o : Put.Options) (op : SuiteOp) :
    w.phaseProgram o (.suite op) = lift (w.threadProgram op) := by
  have hsetup : w.phaseSetup (.suite op) = lift (w.setup op) := by
    rw [phaseSetup, setup, PhaseOp.opname]
    split <;> rfl
  rw [phaseProgram, threadProgram, hsetup]
  have hbind := Threads.recastX_bind (f := SysCall.base) (w.setup op) fun _ => do
    ExceptT.lift Prog.pause
    w.runOp op
  exact hbind.symm

/-- **What a phase of a suite leaves** at any moment is among the trees that invocations leave. -/
theorem Left.of_reaches {op : SuiteOp} {t₁ : NameTree Bytes} (h : Left p dirs o t)
    (hbases : p.createBases.run.exec apply t = (.ok (), t₁))
    {s : Threads.State (Fin p.threads) Call Reply Status (NameTree Bytes)}
    (hrun : Reaches apply ⟨fun i => ((worker p dirs i).threadProgram op).run, t₁⟩ s) :
    Left p dirs o s.mem := by
  have hexec : (lift p.createBases).run.exec eff ⟨t, []⟩ = (.ok (), ⟨t₁, []⟩) :=
    (Threads.exec_recast (u := fun t => World.mk t []) eff_base p.createBases.run t).trans (by rw [hbases])
  have hall := Threads.reaches_recast (u := fun t => World.mk t []) eff_base hrun
  have hstart : Threads.recastState .base (fun t => World.mk t [])
      ⟨fun i => ((worker p dirs i).threadProgram op).run, t₁⟩ =
        ⟨fun i => ((worker p dirs i).phaseProgram o (.suite op)).run, ⟨t₁, []⟩⟩ := by
    refine congrArg (Threads.State.mk · _) (funext fun i => ?_)
    rw [Worker.phaseProgram_suite]
    rfl
  rw [hstart] at hall
  exact .phase h [] (.suite op) (by rw [hexec]) (by rw [hexec]; exact hall)

end Fstest.Smallfile
