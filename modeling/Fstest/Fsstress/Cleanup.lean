import Fstest.Fsstress.Ops
import Fstest.Lib.Run
import Mathlib.Data.List.Sort

/-!
# The threads of fsstress and its cleanup

The threads share the base directory and the set of the paths they have made. A thread makes the call
of an operation in one step and notes the path in a later one, so in between a path exists that is not
in the set (`Sys.step`). A call fails, or does what POSIX says, on names that other threads may have
made, removed or replaced.

`Kept` holds in every reachable state: what exists is noted or about to be, and the letter of a name
tells its kind, so that no call that creates a file goes through a symbolic link to a path that nobody
notes. Once all threads have ended, `cleanup` finds every path in the set, and by their lengths in an
order in which what is in a directory goes before it (`cleanup_empties`).
-/

namespace Fstest.Fsstress

/-! ## Cleanup -/

/-- `PathBuf::push`. -/
def push (path name : String) : String :=
  if path = "" ∨ path.endsWith '/' then path ++ name else path ++ "/" ++ name

/-- The length of a path, with the base before it. -/
def osLen (base : String) (p : Path) : ℕ := (p.foldl push base).utf8ByteSize

/-- One pass over the directories that are left, and whether it has removed any. -/
def removeDirs (paths : List Path) (t : NameTree Inode) : NameTree Inode × Bool :=
  paths.foldl (fun (t, any) p =>
    match t.rmdir p with
    | .ok t' => (t', true)
    | .error _ => (t, any)) (t, false)

def passes (paths : List Path) : ℕ → NameTree Inode → NameTree Inode
  | 0, t => t
  | n + 1, t =>
    let (t, any) := removeDirs paths t
    if any then passes paths n t else t

/-- The cleanup of `run`, on the paths in the order in which the set returns them. -/
def cleanup (base : String) (paths : List Path) (t : NameTree Inode) : NameTree Inode :=
  let paths := paths.mergeSort fun p q => osLen base q ≤ osLen base p
  passes paths.reverse 4 (paths.foldl NameTree.remove t)

theorem osLen_concat (base : String) (p : Path) {n : String} (hn : n ≠ "") :
    osLen base p < osLen base (p ++ [n]) := by
  have hpos : 0 < n.utf8ByteSize := by
    rw [Nat.pos_iff_ne_zero]
    exact fun h => hn (String.utf8ByteSize_eq_zero_iff.mp h)
  rw [osLen, osLen, List.foldl_append, List.foldl_cons, List.foldl_nil, push]
  split
  · rw [String.utf8ByteSize_append]
    omega
  · rw [String.utf8ByteSize_append, String.utf8ByteSize_append]
    omega

/-- An empty tree stays as it is. -/
theorem passes_empty (paths : List Path) (n : ℕ) : passes paths n ∅ = ∅ := by
  have hrmdir : ∀ p, ∃ e, NameTree.rmdir (∅ : NameTree Inode) p = .error e := by
    intro p
    cases hr : NameTree.rmdir (∅ : NameTree Inode) p with
    | error e => exact ⟨e, rfl⟩
    | ok t =>
      obtain ⟨hdir, -, -⟩ := NameTree.rmdir_ok hr
      cases hdir
  have hpass : ∀ any, paths.foldl (fun (t, any) p =>
      match NameTree.rmdir t p with
      | .ok t' => (t', true)
      | .error _ => (t, any)) ((∅ : NameTree Inode), any) = (∅, any) := by
    intro any
    induction paths with
    | nil => rfl
    | cons p paths ih =>
      obtain ⟨e, he⟩ := hrmdir p
      rw [List.foldl_cons]
      simp only [he]
      exact ih
  cases n with
  | zero => rfl
  | succ n => rw [passes, removeDirs, hpass]; rfl

/-! ## The threads -/

structure Thread where
  st : ThreadState
  /-- The path that the thread notes next. -/
  pending : Option Path

structure Sys (n : ℕ) where
  threads : Fin n → Thread
  fs : Fs
  created : List Path

/-- A step of a thread: an operation up to its call, where `ok` is whether the file system carries
the call out, or the note after it. -/
inductive Act where
  | op (ok : Bool) (q : Quiet)
  | note

namespace Sys

variable {n : ℕ}

/-- The threads on an empty directory. -/
def start (rngs : Fin n → ℕ → UInt32) : Sys n where
  threads := fun t => ⟨.new (rngs t), none⟩
  fs := ⟨∅, 0⟩
  created := []

def withThread (s : Sys n) (t : Fin n) (th : Thread) : Sys n :=
  { s with threads := Function.update s.threads t th }

/-- The state after the call of thread `t`. -/
def answer (s : Sys n) (t : Fin n) (ok : Bool) (req : Request) : Sys n :=
  match s.fs.perform req.call with
  | .ok fs =>
    if ok then { s.withThread t ⟨req.ok, req.note⟩ with fs }
    else s.withThread t ⟨req.failed, none⟩
  | .error _ => s.withThread t ⟨req.failed, none⟩

/-- `note_created`. -/
def noteCreated (s : Sys n) (t : Fin n) (p : Path) : Sys n :=
  { s.withThread t ⟨(s.threads t).st, none⟩ with created := s.created.insert p }

/-- It shows whether the step was an operation. -/
def step (linux : Bool) (table : List Op) (s : Sys n) (a : Fin n × Act) : Option (Sys n × Bool) :=
  let th := s.threads a.1
  match a.2, th.pending with
  | .op ok q, none =>
    match th.st.nextOp linux q table with
    | none => none
    | some (.quiet st) => some (s.withThread a.1 ⟨st, none⟩, true)
    | some (.request req) => some (s.answer a.1 ok req, true)
  | .note, some p => some (s.noteCreated a.1 p, false)
  | _, _ => none

/-- No thread has a path to note. -/
def Settled (s : Sys n) : Prop := ∀ t, (s.threads t).pending = none

end Sys

/-! ## Names and kinds -/

/-- The kind of the inodes that are made for a type. -/
def Ft.made : Ft → Ft
  | .blk => .chr
  | ft => ft

def NodeOf (ft : Ft) : Node Inode → Prop
  | .dir => ft = .dir
  | .leaf inode => ft ≠ .dir ∧ inode.kind = ft.made

/-- Everything has a name that tells its kind. -/
def Tagged (t : NameTree Inode) : Prop :=
  ∀ p node, t.lookup p = some node → ∃ d ft id, p = d ++ [Lists.name ft id] ∧ NodeOf ft node

/-- The calls that the operations make, and what they note. -/
inductive Proper : Call → Option Path → Prop
  | creat (d : Path) (id : ℕ) :
    Proper (.creat (d ++ [Lists.name .reg id])) (some (d ++ [Lists.name .reg id]))
  | mkdir (d : Path) (id : ℕ) :
    Proper (.mkdir (d ++ [Lists.name .dir id])) (some (d ++ [Lists.name .dir id]))
  | mknod (d : Path) (id : ℕ) {ft : Ft} (h : ft = .chr ∨ ft = .blk) :
    Proper (.mknod (d ++ [Lists.name ft id])) (some (d ++ [Lists.name ft id]))
  | symlink (target : String) (d : Path) (id : ℕ) :
    Proper (.symlink target (d ++ [Lists.name .sym id])) (some (d ++ [Lists.name .sym id]))
  | link (c d : Path) (ft : Ft) (i id : ℕ) :
    Proper (.link (c ++ [Lists.name ft i]) (d ++ [Lists.name ft id]))
      (some (d ++ [Lists.name ft id]))
  | unlink (p : Path) : Proper (.unlink p) none
  | rmdir (p : Path) : Proper (.rmdir p) none
  | rename (c d : Path) (ft : Ft) (i id : ℕ) :
    Proper (.rename (c ++ [Lists.name ft i]) (d ++ [Lists.name ft id]))
      (some (d ++ [Lists.name ft id]))

section

variable {fs fs' : Fs} {t : NameTree Inode} {p : Path} {node : Node Inode} {call : Call}
  {note : Option Path}

theorem Tagged.nodeOf (h : Tagged t) {d : Path} {ft : Ft} {id : ℕ}
    (hlook : t.lookup (d ++ [Lists.name ft id]) = some node) : NodeOf ft node := by
  obtain ⟨d', ft', id', hp, hnode⟩ := h _ _ hlook
  obtain ⟨-, hname⟩ := List.append_inj' hp rfl
  obtain ⟨rfl, -⟩ := Lists.name_injective (List.cons.inj hname).1
  exact hnode

theorem withTree_ok {r : Except FsError (NameTree Inode)} (h : fs.withTree r = .ok fs') :
    r = .ok fs'.tree := by
  cases r with
  | error e => cases h
  | ok tree =>
    cases h
    rfl

theorem make_ok {kind : Ft} {target : String} (h : fs.make p kind target = .ok fs') :
    fs.tree.add p (.leaf ⟨fs.next, kind, target⟩) = .ok fs'.tree := by
  rw [Fs.make] at h
  cases hadd : fs.tree.add p (.leaf ⟨fs.next, kind, target⟩) with
  | error e =>
    rw [hadd] at h
    cases h
  | ok tree =>
    rw [hadd] at h
    cases h
    rfl

/-- The name of a regular file leads to no symbolic link. -/
theorem openCreate_ok (hT : Tagged fs.tree) {d : Path} {id n : ℕ}
    (h : fs.openCreate (n + 1) (d ++ [Lists.name .reg id]) = .ok fs') :
    fs' = fs ∨ fs.make (d ++ [Lists.name .reg id]) .reg "" = .ok fs' := by
  rw [Fs.openCreate] at h
  split at h
  · cases h
  · exact .inr h
  · cases h
  · rename_i inode hfind
    have hkind := (hT.nodeOf (NameTree.of_find hfind nofun).2.2).2
    rw [if_neg (by rw [hkind]; decide)] at h
    exact .inl (Except.ok.inj h).symm

/-- What is in the tree after a call was in it before, or has just been made under the noted name. -/
def Grows (t t' : NameTree Inode) (note : Option Path) : Prop :=
  ∀ p node, t'.lookup p = some node → t.lookup p = some node ∨
    note = some p ∧ ∃ d ft id, p = d ++ [Lists.name ft id] ∧ NodeOf ft node

theorem grows_insert {d : Path} {ft : Ft} {id : ℕ} (hnode : NodeOf ft node) :
    Grows t (t.insert (d ++ [Lists.name ft id]) node) (some (d ++ [Lists.name ft id])) := by
  intro q node' hlook
  by_cases hq : q = d ++ [Lists.name ft id]
  · subst hq
    rw [AList.lookup_insert] at hlook
    cases hlook
    exact .inr ⟨rfl, d, ft, id, rfl, hnode⟩
  · rw [AList.lookup_insert_ne hq] at hlook
    exact .inl hlook

theorem grows_erase (t : NameTree Inode) (p : Path) : Grows t (t.erase p) none := by
  intro q node hlook
  by_cases hq : q = p
  · rw [hq, AList.lookup_erase] at hlook
    cases hlook
  · rw [AList.lookup_erase_ne hq] at hlook
    exact .inl hlook

/-- **What a call does**, in a tree of names that tell their kinds. -/
theorem perform_ok (hR : fs.tree.Rooted) (hT : Tagged fs.tree) (hp : Proper call note)
    (h : fs.perform call = .ok fs') : fs'.tree.Rooted ∧ Grows fs.tree fs'.tree note := by
  have hmake : ∀ {d : Path} {ft : Ft} {id : ℕ} {target : String}, ft ≠ .dir →
      fs.make (d ++ [Lists.name ft id]) ft.made target = .ok fs' →
      fs'.tree.Rooted ∧ Grows fs.tree fs'.tree (some (d ++ [Lists.name ft id])) := by
    intro d ft id target hft hm
    have hadd := make_ok hm
    refine ⟨hR.add hadd, ?_⟩
    rw [(NameTree.add_ok hadd).2.2.2]
    exact grows_insert ⟨hft, rfl⟩
  cases hp with
  | creat d id =>
    rcases openCreate_ok hT h with rfl | hm
    · exact ⟨hR, fun _ _ hlook => .inl hlook⟩
    · exact hmake nofun hm
  | mkdir d id =>
    have hadd := withTree_ok h
    refine ⟨hR.add hadd, ?_⟩
    rw [(NameTree.add_ok hadd).2.2.2]
    exact grows_insert rfl
  | mknod d id hft => rcases hft with rfl | rfl <;> exact hmake nofun h
  | symlink target d id =>
    rw [Fs.perform] at h
    split at h
    · cases h
    · exact hmake nofun h
  | link c d ft i id =>
    have hlink := withTree_ok h
    obtain ⟨a, ha, -, -, -, heq⟩ := NameTree.link_ok hlink
    refine ⟨hR.link hlink, ?_⟩
    rw [heq]
    exact grows_insert (hT.nodeOf ha)
  | unlink p =>
    have hu := withTree_ok h
    refine ⟨hR.unlink hu, ?_⟩
    rw [(NameTree.unlink_ok hu).2]
    exact grows_erase _ _
  | rmdir p =>
    have hr := withTree_ok h
    refine ⟨hR.rmdir hr, ?_⟩
    rw [(NameTree.rmdir_ok hr).2.2]
    exact grows_erase _ _
  | rename c d ft i id =>
    have hren := withTree_ok h
    obtain ⟨a, ha, -, -, -, hcases⟩ := NameTree.rename_ok hren
    refine ⟨hR.rename hren, ?_⟩
    rcases hcases with ⟨-, heq⟩ | ⟨-, heq⟩
    · rw [heq]
      exact fun _ _ hlook => .inl hlook
    · rw [heq]
      intro q node hlook
      rcases grows_insert (hT.nodeOf ha) q node hlook with hold | hnew
      · rcases grows_erase _ _ q node hold with hold | ⟨hnone, -⟩
        · exact .inl hold
        · cases hnone
      · exact .inr hnew

end

/-! ## What the threads keep -/

theorem proper_of_makes {st : ThreadState} {req : Request} (h : Makes st req) :
    Proper req.call req.note := by
  cases h with
  | new hdir hg hcall =>
    obtain ⟨d, hd⟩ := ThreadState.generateName_last hdir hg
    dsimp only [ThreadState.requestNew]
    rw [hd] at hcall ⊢
    cases hcall with
    | creat => exact .creat _ _
    | mkdir => exact .mkdir _ _
    | mknodChr => exact .mknod _ _ (.inl rfl)
    | mknodBlk => exact .mknod _ _ (.inr rfl)
    | symlink target => exact .symlink target _ _
  | link src hsrc hdir hg =>
    obtain ⟨d, hd⟩ := ThreadState.generateName_last hdir hg
    obtain ⟨c, hc⟩ := Lists.fentToName_last st.lists src.ft src.fent
    dsimp only [ThreadState.requestNew]
    rw [hd, hc]
    exact .link _ _ _ _ _
  | unlink e he => exact .unlink _
  | rmdir e he => exact .rmdir _
  | rename e he hdir hg =>
    obtain ⟨d, hd⟩ := ThreadState.generateName_last hdir hg
    obtain ⟨c, hc⟩ := Lists.fentToName_last st.lists e.ft e.fent
    dsimp only
    rw [hd, hc]
    exact .rename _ _ _ _ _

namespace Sys

variable {n : ℕ} {s s' : Sys n} {t : Fin n} {th : Thread} {p : Path}

/-- The path is in the set, or a thread is about to put it there. -/
def Noted (s : Sys n) (p : Path) : Prop := p ∈ s.created ∨ ∃ t, (s.threads t).pending = some p

structure Kept (s : Sys n) : Prop where
  rooted : s.fs.tree.Rooted
  tagged : Tagged s.fs.tree
  noted : ∀ p ∈ s.fs.tree, s.Noted p
  named : ∀ p, s.Noted p → ∃ d ft id, p = d ++ [Lists.name ft id]

theorem kept_start (rngs : Fin n → ℕ → UInt32) : (start rngs).Kept where
  rooted := NameTree.rooted_empty
  tagged := nofun
  noted := nofun
  named := by
    rintro p (hp | ⟨t, ht⟩)
    · cases hp
    · cases ht

@[simp] theorem threads_withThread_self : (s.withThread t th).threads t = th :=
  Function.update_self ..

@[simp] theorem threads_withThread_ne {u : Fin n} (h : u ≠ t) :
    (s.withThread t th).threads u = s.threads u := Function.update_of_ne h ..

theorem noted_withThread (hidle : (s.threads t).pending = none) :
    (s.withThread t th).Noted p ↔ s.Noted p ∨ th.pending = some p := by
  constructor
  · rintro (hp | ⟨u, hu⟩)
    · exact .inl (.inl hp)
    · by_cases hut : u = t
      · subst hut
        rw [threads_withThread_self] at hu
        exact .inr hu
      · rw [threads_withThread_ne hut] at hu
        exact .inl (.inr ⟨u, hu⟩)
  · rintro ((hp | ⟨u, hu⟩) | hp)
    · exact .inl hp
    · have hut : u ≠ t := fun heq => by
        rw [heq, hidle] at hu
        cases hu
      exact .inr ⟨u, by rw [threads_withThread_ne hut]; exact hu⟩
    · exact .inr ⟨t, by rw [threads_withThread_self]; exact hp⟩

/-- The path goes from the thread to the set. -/
theorem noted_noteCreated {q : Path} (hp : (s.threads t).pending = some p) :
    (s.noteCreated t p).Noted q ↔ s.Noted q := by
  have hmem : q ∈ (s.noteCreated t p).created ↔ q = p ∨ q ∈ s.created := List.mem_insert_iff
  unfold Noted
  rw [hmem]
  constructor
  · rintro ((rfl | hq) | ⟨u, hu⟩)
    · exact .inr ⟨t, hp⟩
    · exact .inl hq
    · by_cases hut : u = t
      · subst hut
        have hnone : (s.withThread u ⟨(s.threads u).st, none⟩).threads u = ⟨(s.threads u).st, none⟩ :=
          threads_withThread_self
        have hu' : ((s.withThread u ⟨(s.threads u).st, none⟩).threads u).pending = some q := hu
        rw [hnone] at hu'
        cases hu'
      · exact .inr ⟨u, (congrArg Thread.pending (threads_withThread_ne hut)).symm.trans hu⟩
  · rintro (hq | ⟨u, hu⟩)
    · exact .inl (.inr hq)
    · by_cases hut : u = t
      · subst hut
        rw [hp] at hu
        cases hu
        exact .inl (.inl rfl)
      · exact .inr ⟨u, (congrArg Thread.pending (threads_withThread_ne hut)).trans hu⟩

theorem Kept.withThread (h : s.Kept) (hidle : (s.threads t).pending = none) (st : ThreadState) :
    (s.withThread t ⟨st, none⟩).Kept where
  rooted := h.rooted
  tagged := h.tagged
  noted p hp := (noted_withThread hidle).mpr (.inl (h.noted p hp))
  named p hp := h.named p (((noted_withThread hidle).mp hp).resolve_right nofun)

theorem Kept.answer (h : s.Kept) (hidle : (s.threads t).pending = none) {st : ThreadState}
    {req : Request} (hreq : Makes st req) (ok : Bool) : (s.answer t ok req).Kept := by
  have hproper := proper_of_makes hreq
  rw [Sys.answer]
  split
  · rename_i fs hcall
    split
    · obtain ⟨hR, hgrows⟩ := perform_ok h.rooted h.tagged hproper hcall
      have hnoted : ∀ p, ({ s.withThread t ⟨req.ok, req.note⟩ with fs } : Sys n).Noted p ↔
          s.Noted p ∨ req.note = some p := fun p => noted_withThread hidle
      refine ⟨hR, fun p node hlook => ?_, fun p hp => ?_, fun p hp => ?_⟩
      · exact (hgrows p node hlook).elim (h.tagged p node) And.right
      · obtain ⟨node, hlook⟩ := Option.isSome_iff_exists.mp (AList.lookup_isSome.mpr hp)
        rw [hnoted]
        exact (hgrows p node hlook).imp (fun hold => h.noted p (NameTree.mem_of_lookup hold)) And.left
      · rcases (hnoted p).mp hp with hp | hp
        · exact h.named p hp
        · rw [hp] at hproper
          generalize req.call = call at hproper
          cases hproper <;> exact ⟨_, _, _, rfl⟩
    · exact h.withThread hidle _
  · exact h.withThread hidle _

/-- **Every step keeps it.** -/
theorem Kept.step {linux : Bool} {table : List Op} {a : Fin n × Act} {b : Bool} (h : s.Kept)
    (hs : s.step linux table a = some (s', b)) : s'.Kept := by
  obtain ⟨t, act⟩ := a
  cases act with
  | op ok q =>
    cases hp : (s.threads t).pending with
    | some p => simp only [Sys.step, hp, reduceCtorEq] at hs
    | none =>
      simp only [Sys.step, hp] at hs
      split at hs
      · cases hs
      · cases hs
        exact h.withThread hp _
      · rename_i req hop
        cases hs
        obtain ⟨st₁, -, hreq⟩ := ThreadState.comes_nextOp hop
        exact h.answer hp hreq ok
  | note =>
    cases hp : (s.threads t).pending with
    | none => simp only [Sys.step, hp, reduceCtorEq] at hs
    | some p =>
      simp only [Sys.step, hp, Option.some.injEq, Prod.mk.injEq] at hs
      obtain ⟨rfl, -⟩ := hs
      exact ⟨h.rooted, h.tagged, fun q hq => (noted_noteCreated hp).mpr (h.noted q hq),
        fun q hq => h.named q ((noted_noteCreated hp).mp hq)⟩

/-- **The cleanup removes everything that any thread has made**, whatever the threads did and in
which order the set returns its paths. -/
theorem cleanup_empties {linux : Bool} {table : List Op} {rngs : Fin n → ℕ → UInt32}
    {tr : List Bool} (hrun : Labelled.Run (step linux table) (fun _ _ => True) (start rngs) tr s)
    (hend : s.Settled) (base : String) {paths : List Path} (hpaths : paths.Perm s.created) :
    cleanup base paths s.fs.tree = ∅ := by
  have hkept : s.Kept := hrun.invariant (I := fun _ s => s.Kept) (kept_start rngs)
    fun _ _ _ _ _ _ hk _ hs => hk.step hs
  have hmem : ∀ p, p ∈ paths.mergeSort (fun p q => osLen base q ≤ osLen base p) ↔ p ∈ s.created :=
    fun p => List.mem_mergeSort.trans hpaths.mem_iff
  have hall : ∀ p ∈ s.fs.tree, p ∈ paths.mergeSort fun p q => osLen base q ≤ osLen base p := by
    intro p hp
    rw [hmem]
    refine (hkept.noted p hp).resolve_right fun ⟨t, ht⟩ => ?_
    rw [hend t] at ht
    cases ht
  have hsorted : (paths.mergeSort fun p q => osLen base q ≤ osLen base p).Pairwise
      fun p q => ∀ n, q ≠ p ++ [n] := by
    have hpair : (paths.mergeSort fun p q => osLen base q ≤ osLen base p).Pairwise
        fun p q => decide (osLen base q ≤ osLen base p) = true := by
      apply List.pairwise_mergeSort
      · intro a b c hab hbc
        simp only [decide_eq_true_eq] at *
        omega
      · intro a b
        simp only [Bool.or_eq_true, decide_eq_true_eq]
        omega
    refine (List.pairwise_iff_forall_sublist.mpr fun {p q} hsub m heq => ?_)
    have hle := List.pairwise_iff_forall_sublist.mp hpair hsub
    obtain ⟨d, ft, id, hq⟩ := hkept.named q (.inl ((hmem q).mp (hsub.subset (by simp))))
    rw [heq] at hq
    obtain ⟨-, hlast⟩ := List.append_inj' hq rfl
    have hlt := osLen_concat base p (n := m)
      (by rw [(List.cons.inj hlast).1]; exact Lists.name_ne_empty ft id)
    rw [← heq] at hlt
    exact absurd (of_decide_eq_true hle) (by omega)
  rw [cleanup, NameTree.removeAll_empty hkept.rooted hall hsorted]
  exact passes_empty _ _

/-- Two threads make the same file, and note it after both calls. -/
def sameFile : List (Fin 2 × Act) :=
  [(0, .op true ⟨0, 0⟩), (1, .op true ⟨0, 0⟩), (1, .note), (0, .note)]

theorem two_creators_cleaned : ∃ tr, ∃ s : Sys 2,
    Labelled.Run (step true [.creat]) (fun _ _ => True) (start fun _ _ => 0) tr s ∧
    ["f0"] ∈ s.fs.tree ∧ cleanup "/mnt" s.created s.fs.tree = ∅ := by
  have hrun : (Labelled.execute (step true [.creat]) (fun _ _ => True) sameFile
      (start fun _ _ => 0)).map (fun r => decide ((∀ t, (r.2.threads t).pending = none) ∧
        ["f0"] ∈ r.2.fs.tree.keys)) = some true := by
    decide +kernel
  obtain ⟨⟨tr, s⟩, hexec, heq⟩ := Option.map_eq_some_iff.mp hrun
  obtain ⟨hend, hfile⟩ := of_decide_eq_true heq
  have h := Labelled.Run.of_execute hexec
  exact ⟨tr, s, h, AList.mem_keys.mpr hfile, cleanup_empties h hend "/mnt" (.refl _)⟩

end Sys

end Fstest.Fsstress
