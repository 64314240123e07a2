import Fstest.Lib.Endings
import Fstest.Lib.Run
import Fstest.Mptest.Command
import Mathlib.Data.List.Nodup

/-!
# Selected scripts and their directories

`resolve_selection` makes the list of scripts, each name once. The jobs of `run` each take one script
and work in a directory under the work root that has the name of the script without its endings; a job
begins by removing what is there. Two names can differ and have the same directory, or one outside the
work root (`ownDirectories_iff`). Between the jobs any order of steps is possible, also while a
directory is being removed.
-/

namespace Fstest.Mptest

open Labelled

/-! ## The selection -/

/-- The names of the embedded scripts. -/
def scripts : List Bytes :=
  ["config01.test", "config02.test", "crash01.test", "crash02.subtest", "multiwrite01.test"].map ascii

def candidate (s : Bytes) : Bytes :=
  if ascii ".test" <:+ s ∨ ascii ".subtest" <:+ s then s else s ++ ascii ".test"

/-- A name is selected once. -/
def addName (out : List Bytes) (s : Bytes) : List Bytes := if s ∈ out then out else out ++ [s]

/-- The loop of `resolve_selection` over the names of `--script`. -/
def selectFrom (isFile : Bytes → Bool) (out : List Bytes) : List Bytes → Except Bytes (List Bytes)
  | [] => .ok out
  | s :: rest =>
    if candidate s ∈ scripts then selectFrom isFile (addName out (candidate s)) rest
    else if slash ∈ s ∧ isFile s = true then selectFrom isFile (addName out s) rest
    else
      .error (s ++ ascii ": not an embedded mptest script (config01, config02, crash01, multiwrite01)" ++
        ascii " and not a file")

def resolveSelection (isFile : Bytes → Bool) (script filter : List Bytes) : Except Bytes (List Bytes) :=
  match selectFrom isFile [] script with
  | .error e => .error e
  | .ok out =>
    let out := if filter = [] then out else out.filter fun s => filter.any fun f => decide (f <:+: s)
    if out = [] then .error (ascii "no scripts selected (check --script/--filter)") else .ok out

/-! ## Directories -/

/-- A directory, as the names on the way to it. -/
abbrev Dir := List Bytes

def stem (script : Bytes) : Bytes :=
  trimEndMatches (ascii ".subtest") (trimEndMatches (ascii ".test") (filenameTail script))

/-- Where a path leads that ends in the given name. -/
def joinName (root : Dir) (name : Bytes) : Dir :=
  if name = [] ∨ name = ascii "." then root
  else if name = ascii ".." then root.dropLast
  else root ++ [name]

def workDir (root : Dir) (script : Bytes) : Dir := joinName root (stem script)

def database (root : Dir) (script : Bytes) : Dir := workDir root script ++ [stem script ++ ascii ".db"]

/-! ## Jobs -/

inductive JobStage where
  | waiting
  /-- In `remove_dir_all`. -/
  | clearing
  /-- Before `create_dir_all`. -/
  | creating
  | running
  /-- Without a directory, the script is reported as broken. -/
  | ended (made : Bool)
  deriving DecidableEq, Repr

/-- A worker has taken the job and not ended it. -/
def JobStage.active : JobStage → Bool
  | .clearing | .creating | .running => true
  | .waiting | .ended _ => false

/-- The job has made its directory. -/
def JobStage.made : JobStage → Bool
  | .running | .ended true => true
  | _ => false

structure Jobs where
  /-- All files and directories there are. -/
  tree : List Dir
  stages : List JobStage
  deriving DecidableEq

inductive JobAction where
  /-- A worker takes the next job. -/
  | take
  /-- `remove_dir_all` removes one of its entries. -/
  | remove (i : ℕ) (p : Dir)
  /-- It returns, with or without an error. -/
  | removed (i : ℕ)
  | create (i : ℕ) (ok : Bool)
  | write (i : ℕ) (p : Dir)
  | unlink (i : ℕ) (p : Dir)
  | finish (i : ℕ)
  deriving DecidableEq, Repr

section

variable (root : Dir) (sel : List Bytes) (jobs : ℕ)

def Jobs.goTo (s : Jobs) (i : ℕ) (tree : List Dir) (stage : JobStage) : Jobs where
  tree := tree
  stages := s.stages.set i stage

/-- A step of job `i`, which is at `stage` and has the directory `dir`. -/
def jobStep (s : Jobs) (i : ℕ) (dir : Dir) : JobAction → JobStage → Option Jobs
  | .remove _ p, .clearing => if dir <+: p then some { s with tree := s.tree.filter (· ≠ p) } else none
  | .removed _, .clearing => some (s.goTo i s.tree .creating)
  | .create _ ok, .creating =>
    if ok then some (s.goTo i (s.tree ++ dir.inits) .running) else some (s.goTo i s.tree (.ended false))
  | .write _ p, .running => if dir <+: p then some { s with tree := p :: s.tree } else none
  | .unlink _ p, .running =>
    if dir <+: p ∧ dir ≠ p then some { s with tree := s.tree.filter (· ≠ p) } else none
  | .finish _, .running => some (s.goTo i s.tree (.ended true))
  | _, _ => none

def JobAction.job (s : Jobs) : JobAction → ℕ
  | .take => s.stages.idxOf .waiting
  | .remove i _ | .removed i | .create i _ | .write i _ | .unlink i _ | .finish i => i

/-- A step of the workers of `run_parallel`, with the job that makes it. They take the jobs in their
order, and at most `jobs` are under way. -/
def jobsStep (s : Jobs) (a : JobAction) : Option (Jobs × ℕ) :=
  let i := a.job s
  match a with
  | .take =>
    if i < s.stages.length ∧ s.stages.countP JobStage.active < max jobs 1 then
      some (s.goTo i s.tree .clearing, i)
    else none
  | a =>
    match s.stages[i]?, sel[i]? with
    | some stage, some script => (jobStep s i (workDir root script) a stage).map fun s' => (s', i)
    | _, _ => none

def startJobs (tree : List Dir) : Jobs := ⟨tree, sel.map fun _ => .waiting⟩

/-- What can be reached from any tree, in any order of steps. -/
def Reached (s : Jobs) : Prop :=
  ∃ tree tr, Run (jobsStep root sel jobs) (fun _ _ => True) (startJobs sel tree) tr s

/-- A job has its directory: it has made it, for the script `script`. -/
def Jobs.Made (s : Jobs) (sel : List Bytes) (i : ℕ) (script : Bytes) : Prop :=
  sel[i]? = some script ∧ ∃ stage, s.stages[i]? = some stage ∧ stage.made = true

/-- Every script has a directory and a database of its own, and keeps it. -/
structure OwnDirectories (root : Dir) (sel : List Bytes) : Prop where
  dirs : ∀ a ∈ sel, ∀ b ∈ sel, a ≠ b → workDir root a ≠ workDir root b
  databases : ∀ a ∈ sel, ∀ b ∈ sel, a ≠ b → database root a ≠ database root b
  below : ∀ a ∈ sel, root <+: workDir root a ∧ workDir root a ≠ root
  /-- The directory is there from when it is made. -/
  kept : ∀ jobs s i script, Reached root sel jobs s → s.Made sel i script → workDir root script ∈ s.tree
  /-- No other job takes anything away that is in it. -/
  untouched : ∀ jobs s i script a s' j, Reached root sel jobs s → s.Made sel i script →
    jobsStep root sel jobs s a = some (s', j) → i ≠ j →
    ∀ p ∈ s.tree, workDir root script <+: p → p ∈ s'.tree

/-! ## Names -/

/-- `u` is the name `t` without its endings: first all `.test`, then all `.subtest`. -/
def Bare (t u : Bytes) : Prop := ∃ v, Trimmed (ascii ".test") t v ∧ Trimmed (ascii ".subtest") v u

/-- No two scripts have the same last name up to endings, and none has only endings, behind nothing or
behind `.` or `..`. -/
structure Apart (sel : List Bytes) : Prop where
  different : ∀ a ∈ sel, ∀ b ∈ sel, ∀ u, Bare (filenameTail a) u → Bare (filenameTail b) u → a = b
  proper : ∀ a ∈ sel, ∀ u ∈ [[], ascii ".", ascii ".."], ¬ Bare (filenameTail a) u

end

theorem bare_iff {script u : Bytes} : Bare (filenameTail script) u ↔ u = stem script := by
  have htest := trimmed_trimEndMatches (show ascii ".test" ≠ [] by decide) (filenameTail script)
  have hsubtest := trimmed_trimEndMatches (show ascii ".subtest" ≠ [] by decide)
    (trimEndMatches (ascii ".test") (filenameTail script))
  constructor
  · rintro ⟨v, hv, hu⟩
    rw [hv.unique htest] at hu
    exact hu.unique hsubtest
  · rintro rfl
    exact ⟨_, htest, hsubtest⟩

theorem joinName_of_proper (root : Dir) {name : Bytes} (h : name ∉ [[], ascii ".", ascii ".."]) :
    joinName root name = root ++ [name] := by
  simp only [List.mem_cons, List.not_mem_nil, or_false, not_or] at h
  rw [joinName, if_neg (not_or.mpr ⟨h.1, h.2.1⟩), if_neg h.2.2]

/-- Only a name of its own leads to a place under the root. -/
theorem proper_of_below {root : Dir} {name : Bytes} (hpre : root <+: joinName root name)
    (hne : joinName root name ≠ root) : name ∉ [[], ascii ".", ascii ".."] := by
  intro hmem
  simp only [List.mem_cons, List.not_mem_nil, or_false] at hmem
  unfold joinName at hpre hne
  split at hne
  · exact hne rfl
  · rename_i hnot
    rw [if_neg hnot] at hpre
    rcases hmem with rfl | rfl | rfl
    · exact hnot (.inl rfl)
    · exact hnot (.inr rfl)
    · rw [if_pos rfl] at hne hpre
      have hlen := hpre.length_le
      rw [List.length_dropLast] at hlen
      obtain rfl := List.length_eq_zero_iff.mp (show root.length = 0 by omega)
      exact hne rfl

namespace Apart

variable {root : Dir} {sel : List Bytes} {a b : Bytes}

theorem stem_injective (h : Apart sel) (ha : a ∈ sel) (hb : b ∈ sel) (hstem : stem a = stem b) : a = b :=
  h.different a ha b hb (stem a) (bare_iff.mpr rfl) (bare_iff.mpr hstem)

theorem workDir_eq (h : Apart sel) (ha : a ∈ sel) : workDir root a = root ++ [stem a] :=
  joinName_of_proper root fun hmem => h.proper a ha _ hmem (bare_iff.mpr rfl)

/-- Nothing is in the directories of two scripts. -/
theorem eq_of_prefix (h : Apart sel) (ha : a ∈ sel) (hb : b ∈ sel) {p : Dir}
    (hpa : workDir root a <+: p) (hpb : workDir root b <+: p) : a = b := by
  rw [h.workDir_eq ha] at hpa
  rw [h.workDir_eq hb] at hpb
  have hpre := List.prefix_of_prefix_length_le hpa hpb (by simp)
  have heq := hpre.eq_of_length (by simp)
  exact h.stem_injective ha hb (List.singleton_inj.mp (List.append_cancel_left heq))

end Apart

/-! ## Runs of the jobs -/

section

variable {root dir : Dir} {sel : List Bytes} {jobs i j : ℕ} {s s' : Jobs} {a : JobAction} {stage : JobStage}

theorem getElem?_goTo_self {tree : List Dir} (h : s.stages[j]? = some stage) (next : JobStage) :
    (s.goTo j tree next).stages[j]? = some next :=
  List.getElem?_set_self (List.getElem?_eq_some_iff.mp h).1

theorem getElem?_goTo_of_ne {tree : List Dir} (h : i ≠ j) (next : JobStage) :
    (s.goTo j tree next).stages[i]? = s.stages[i]? :=
  List.getElem?_set_ne h.symm

/-- What a step of job `j` does: it leaves the stages of the others alone and everything outside its
directory, and once it has made this directory it does not remove it. -/
structure JobSpec (s : Jobs) (j : ℕ) (dir : Dir) (s' : Jobs) : Prop where
  others : ∀ i, i ≠ j → s'.stages[i]? = s.stages[i]?
  outside : ∀ p ∈ s.tree, ¬ dir <+: p → p ∈ s'.tree
  made : ∀ stage', s'.stages[j]? = some stage' → stage'.made = true →
    dir ∈ s'.tree ∨ ∃ stage, s.stages[j]? = some stage ∧ stage.made = true ∧ (dir ∈ s.tree → dir ∈ s'.tree)

/-- A stage in which the directory is not made, and nothing else. -/
theorem jobSpec_goTo (hstage : s.stages[j]? = some stage) {next : JobStage} (hnext : next.made = false) :
    JobSpec s j dir (s.goTo j s.tree next) := by
  refine ⟨fun i hi => getElem?_goTo_of_ne hi _, fun p hp _ => hp, fun stage' hstage' hmade => ?_⟩
  obtain rfl := Option.some.inj ((getElem?_goTo_self hstage _).symm.trans hstage')
  exact absurd hmade (by simp [hnext])

theorem jobStep_spec (hstage : s.stages[j]? = some stage) (h : jobStep s j dir a stage = some s') :
    JobSpec s j dir s' := by
  have hgone {p q : Dir} (hp : p ∈ s.tree) (hpq : p ≠ q) : p ∈ s.tree.filter (· ≠ q) :=
    List.mem_filter.mpr ⟨hp, decide_eq_true hpq⟩
  unfold jobStep at h
  split at h
  · -- an entry is removed: it is in the directory
    split at h
    · rename_i hpre
      cases h
      refine ⟨fun i _ => rfl, fun p hp hout => hgone hp fun heq => hout (heq ▸ hpre), ?_⟩
      intro stage' hstage' hmade
      obtain rfl := Option.some.inj (hstage.symm.trans hstage')
      cases hmade
    · cases h
  · cases h
    exact jobSpec_goTo hstage rfl
  · split at h
    · cases h
      refine ⟨fun i hi => getElem?_goTo_of_ne hi _, fun p hp _ => List.mem_append_left _ hp, ?_⟩
      intro stage' _ _
      exact .inl (List.mem_append_right _ ((List.mem_inits _ _).mpr (List.prefix_refl dir)))
    · cases h
      exact jobSpec_goTo hstage rfl
  · split at h
    · cases h
      exact ⟨fun i _ => rfl, fun p hp _ => List.mem_cons_of_mem _ hp,
        fun _ _ _ => .inr ⟨.running, hstage, rfl, fun hdir => List.mem_cons_of_mem _ hdir⟩⟩
    · cases h
  · -- the running script removes something below its directory
    split at h
    · rename_i hpre
      cases h
      exact ⟨fun i _ => rfl, fun p hp hout => hgone hp fun heq => hout (heq ▸ hpre.1),
        fun _ _ _ => .inr ⟨.running, hstage, rfl, fun hdir => hgone hdir hpre.2⟩⟩
    · cases h
  · cases h
    exact ⟨fun i hi => getElem?_goTo_of_ne hi _, fun p hp _ => hp,
      fun _ _ _ => .inr ⟨.running, hstage, rfl, fun hdir => hdir⟩⟩
  · cases h

/-- A step is that of a worker that takes a job, or of a job that is under way. -/
theorem jobsStep_spec (h : jobsStep root sel jobs s a = some (s', j)) :
    (s'.tree = s.tree ∧ ∀ dir, JobSpec s j dir s') ∨
      ∃ script, sel[j]? = some script ∧ JobSpec s j (workDir root script) s' := by
  unfold jobsStep at h
  split at h
  · dsimp only at h
    split at h
    · rename_i hlt
      cases h
      exact .inl ⟨rfl, fun dir => jobSpec_goTo (List.getElem?_eq_getElem hlt.1) rfl⟩
    · cases h
  · dsimp only at h
    split at h
    · rename_i stage script hstage hscript
      obtain ⟨s₁, hs₁, heq⟩ := Option.map_eq_some_iff.mp h
      cases heq
      exact .inr ⟨script, hscript, jobStep_spec hstage hs₁⟩
    · cases h

variable {script : Bytes} {tree : List Dir} {tr : List ℕ}

/-- A step of another job takes nothing out of a directory. -/
theorem Apart.untouched (h : Apart sel) (hnodup : sel.Nodup) (hscript : sel[i]? = some script)
    (hs : jobsStep root sel jobs s a = some (s', j)) (hij : i ≠ j) {p : Dir} (hp : p ∈ s.tree)
    (hpre : workDir root script <+: p) : p ∈ s'.tree := by
  rcases jobsStep_spec hs with ⟨htree, -⟩ | ⟨other, hother, hspec⟩
  · rwa [htree]
  · refine hspec.outside p hp fun hpre' => hij ?_
    have heq := h.eq_of_prefix (List.mem_of_getElem? hscript) (List.mem_of_getElem? hother) hpre hpre'
    subst heq
    exact (List.getElem?_inj (List.getElem?_eq_some_iff.mp hscript).1 hnodup).mp (hscript.trans hother.symm)

theorem not_made_startJobs : ¬ (startJobs sel tree).Made sel i script := by
  rintro ⟨-, stage, hstage, hmade⟩
  rw [startJobs, List.getElem?_map] at hstage
  obtain ⟨_, -, rfl⟩ := Option.map_eq_some_iff.mp hstage
  cases hmade

/-- One step keeps the directories that are made. -/
theorem Apart.kept_step (h : Apart sel) (hnodup : sel.Nodup)
    (ih : ∀ i script, s.Made sel i script → workDir root script ∈ s.tree)
    (hs : jobsStep root sel jobs s a = some (s', j)) (hmade : s'.Made sel i script) :
    workDir root script ∈ s'.tree := by
  obtain ⟨hscript, stage', hstage', hmade⟩ := hmade
  have hspec : i = j → JobSpec s j (workDir root script) s' := by
    rintro rfl
    rcases jobsStep_spec hs with ⟨-, hspec⟩ | ⟨other, hother, hspec⟩
    · exact hspec _
    · obtain rfl := Option.some.inj (hscript.symm.trans hother)
      exact hspec
  by_cases hij : i = j
  · subst hij
    rcases (hspec rfl).made stage' hstage' hmade with hdir | ⟨stage, hstage, hmade, hdir⟩
    · exact hdir
    · exact hdir (ih i script ⟨hscript, stage, hstage, hmade⟩)
  · have hstage : s.stages[i]? = some stage' := by
      rcases jobsStep_spec hs with ⟨-, hspec⟩ | ⟨_, -, hspec⟩
      · rw [← (hspec []).others i hij, hstage']
      · rw [← hspec.others i hij, hstage']
    exact h.untouched hnodup hscript hs hij (ih i script ⟨hscript, stage', hstage, hmade⟩) List.prefix_rfl

theorem Apart.kept (h : Apart sel) (hnodup : sel.Nodup) (hs : Reached root sel jobs s)
    (hmade : s.Made sel i script) : workDir root script ∈ s.tree := by
  obtain ⟨tree, tr, hrun⟩ := hs
  refine hrun.invariant (I := fun _ s => ∀ i script, s.Made sel i script → workDir root script ∈ s.tree)
    (fun i script hmade => absurd hmade not_made_startJobs) ?_ i script hmade
  intro tr s a s' j _ ih _ hs i script
  exact h.kept_step hnodup ih hs

/-- For a selection without repetitions. -/
theorem ownDirectories_iff_apart (hnodup : sel.Nodup) : OwnDirectories root sel ↔ Apart sel := by
  constructor
  · intro h
    refine ⟨fun a ha b hb u hua hub => ?_, fun a ha u hu hua => ?_⟩
    · by_contra hab
      refine h.dirs a ha b hb hab ?_
      rw [workDir, workDir, ← bare_iff.mp hua, ← bare_iff.mp hub]
    · rw [bare_iff.mp hua] at hu
      exact proper_of_below (h.below a ha).1 (h.below a ha).2 hu
  · intro h
    have hne {a b : Bytes} (ha : a ∈ sel) (hb : b ∈ sel) (hdir : workDir root a = workDir root b) : a = b :=
      have hpre : workDir root b <+: workDir root a := by rw [hdir]
      h.eq_of_prefix ha hb List.prefix_rfl hpre
    refine ⟨fun a ha b hb hab hdir => ?_, fun a ha b hb hab hdb => ?_, fun a ha => ?_,
      fun jobs s i script hs hmade => h.kept hnodup hs hmade,
      fun jobs s i script a s' j _ hmade hs hij p hp hpre => h.untouched hnodup hmade.1 hs hij hp hpre⟩
    · exact hab (hne ha hb hdir)
    · exact hab (hne ha hb (List.append_inj_left' hdb rfl))
    · rw [h.workDir_eq ha]
      exact ⟨List.prefix_append _ _, fun heq => by simpa using congrArg List.length heq⟩

end

/-! ## What `resolve_selection` accepts -/

section

variable {isFile : Bytes → Bool} {out sel script filter : List Bytes}

theorem nodup_addName (h : out.Nodup) (s : Bytes) : (addName out s).Nodup := by
  unfold addName
  split
  · exact h
  · rename_i hs
    exact List.nodup_append.mpr ⟨h, List.nodup_singleton s, fun a ha b hb hab => by
      obtain rfl := List.mem_singleton.mp hb
      exact hs (hab ▸ ha)⟩

theorem nodup_of_selectFrom (hout : out.Nodup) (h : selectFrom isFile out script = .ok sel) : sel.Nodup := by
  induction script generalizing out with
  | nil =>
    cases h
    exact hout
  | cons s rest ih =>
    unfold selectFrom at h
    split at h
    · exact ih (nodup_addName hout _) h
    · split at h
      · exact ih (nodup_addName hout _) h
      · cases h

theorem nodup_of_resolveSelection (h : resolveSelection isFile script filter = .ok sel) : sel.Nodup := by
  unfold resolveSelection at h
  split at h
  · cases h
  · rename_i out hout
    have hnodup := nodup_of_selectFrom List.nodup_nil hout
    have hkept : (if filter = [] then out
        else out.filter fun s => filter.any fun f => decide (f <:+: s)).Nodup := by
      split
      · exact hnodup
      · exact hnodup.filter _
    generalize (if filter = [] then out else _) = kept at h hkept
    dsimp only at h
    split at h
    · cases h
    · cases h
      exact hkept

/-- The scripts of a selection have directories of their own exactly if their names are apart. -/
theorem ownDirectories_iff {root : Dir} (h : resolveSelection isFile script filter = .ok sel) :
    OwnDirectories root sel ↔ Apart sel :=
  ownDirectories_iff_apart (nodup_of_resolveSelection h)

/-- Two external scripts with the same last name. -/
def sameTails : List Bytes := [ascii "/a/x.test", ascii "/b/x.test"]

def workRoot : Dir := [ascii "mnt", ascii ".fstest-sqlite"]

/-- The second job begins while the script of the first one runs. -/
def overlap : List JobAction :=
  [.take, .removed 0, .create 0 true, .take, .remove 1 (workRoot ++ [ascii "x"])]

theorem sameTails_share : ¬ ∀ (isFile : Bytes → Bool) (script filter sel : List Bytes) (root : Dir),
    resolveSelection isFile script filter = .ok sel → OwnDirectories root sel := by
  intro hclaim
  have hown := hclaim (fun s => decide (s ∈ sameTails)) sameTails [] sameTails workRoot (by decide +kernel)
  have hrun : execute (jobsStep workRoot sameTails 2) (fun _ _ => True) overlap
      (startJobs sameTails [workRoot]) =
        some ([0, 0, 0, 1, 1], ⟨[workRoot, [], [ascii "mnt"], workRoot], [.running, .clearing]⟩) := by
    decide +kernel
  have hdir := hown.kept 2 _ 0 (ascii "/a/x.test") ⟨[workRoot], _, .of_execute hrun⟩ ⟨rfl, .running, rfl, rfl⟩
  exact absurd hdir (by decide +kernel)

/-- Embedded scripts are apart from each other. -/
theorem apart_of_embedded (h : ∀ s ∈ sel, s ∈ scripts) : Apart sel := by
  have hstems : ∀ a ∈ scripts, stem a ∉ [[], ascii ".", ascii ".."] ∧
      ∀ b ∈ scripts, stem a = stem b → a = b := by decide +kernel
  refine ⟨fun a ha b hb u hua hub => ?_, fun a ha u hu hua => ?_⟩
  · exact (hstems a (h a ha)).2 b (h b hb) ((bare_iff.mp hua).symm.trans (bare_iff.mp hub))
  · exact (hstems a (h a ha)).1 (bare_iff.mp hua ▸ hu)

/-- The scripts that are selected by default. -/
theorem default_ownDirectories :
    OwnDirectories workRoot (["config01.test", "config02.test", "crash01.test", "multiwrite01.test"].map ascii) :=
  have h : resolveSelection (fun _ => false) (["config01", "config02", "crash01", "multiwrite01"].map ascii) [] =
      .ok (["config01.test", "config02.test", "crash01.test", "multiwrite01.test"].map ascii) := by
    decide +kernel
  (ownDirectories_iff h).mpr (apart_of_embedded (by decide +kernel))

end

end Fstest.Mptest
