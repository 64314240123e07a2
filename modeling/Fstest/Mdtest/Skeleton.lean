import Fstest.Mdtest.Placement

/-!
# The directories of mdtest and the items in them

Before its create phase an iteration makes the test directories and the skeleton of the tree.
`skeleton_covers_iff` says when that suffices: every item is put into a directory that has been
made, unless each rank has a working directory of its own. There `run_rank` makes the
skeleton below `mdtest_tree.R/mdtest_tree.0`, and `tree_root` looks for it at `mdtest_tree.R.0`.
-/

namespace Fstest.Mdtest

open LevelOrder

namespace Params

variable (p : Params)

/-- The tree creation of `run_rank`, between its two barriers. -/
def treeCreation (iteration rank : ℕ) : List Path :=
  (List.range p.directoryLoops).flatMap fun dirIter =>
    let testdir := p.testdir iteration dirIter
    if p.uniqueDir then
      let base := testdir ++ ["mdtest_tree." ++ toString rank]
      base :: p.createRemoveTree true base
    else if rank = 0 then p.createRemoveTree true testdir
    else []

/-- The directories that all ranks have made when the create phases of an iteration begin. -/
def skeleton (iteration : ℕ) : List Path :=
  (List.range p.threads).flatMap fun rank =>
    (List.range p.directoryLoops).map (p.testdir iteration) ++ p.treeCreation iteration rank

/-- The items of one kind are put into directories that exist. -/
def Covered (iteration : ℕ) (dirs : Bool) : Prop :=
  ∀ clock, ∀ item ∈ createdItems p clock iteration dirs, item.dropLast ∈ p.skeleton iteration

variable {p}

/-! ## Items below a root are in the tree below it -/

theorem mem_itemLoop {clock : Clock} {item : ℕ → Path} {left i : ℕ} {pr : Progress} {x : Path}
    (h : x ∈ (itemLoop clock item left i pr).1) : ∃ j, x = item j := by
  induction left generalizing i pr with
  | zero => cases h
  | succ left ih =>
    rw [itemLoop] at h
    split at h
    · split at h
      · exact ⟨i, List.mem_singleton.mp h⟩
      · rcases List.mem_cons.mp h with rfl | h
        · exact ⟨i, rfl⟩
        · exact ih h
    · rcases List.mem_cons.mp h with rfl | h
      · exact ⟨i, rfl⟩
      · exact ih h

/-- The items of a directory are in it. -/
theorem dropLast_itemRange {clock : Clock} {rank : ℕ} {dirs create : Bool} {path : Path}
    {start : ℕ} {pr : Progress} {x : Path}
    (h : x ∈ (p.itemRange clock rank dirs create path start pr).1) : x.dropLast = path := by
  obtain ⟨j, rfl⟩ := mem_itemLoop h
  exact List.dropLast_concat

/-- A property of all elements that a collecting loop adds. -/
theorem foldl_forall {β γ S : Type} {Q : γ → Prop} {f : List γ × S → β → List γ × S} (l : List β)
    (hstep : ∀ b ∈ l, ∀ acc s, (∀ x ∈ acc, Q x) → ∀ x ∈ (f (acc, s) b).1, Q x)
    {acc : List γ} {s : S} (hacc : ∀ x ∈ acc, Q x) : ∀ x ∈ (l.foldl f (acc, s)).1, Q x := by
  induction l generalizing acc s with
  | nil => exact hacc
  | cons b l ih =>
    rw [List.foldl_cons]
    exact ih (fun b' hb' => hstep b' (by simp [hb'])) (hstep b (by simp) acc s hacc)

theorem mem_createRemoveBelow {clock : Clock} {rank : ℕ} {dirs create : Bool} {left : ℕ}
    {path : Path} {dirNum : ℕ} {pr : Progress} :
    ∀ x ∈ (p.createRemoveBelow clock rank dirs create left path dirNum pr).1,
      x.dropLast ∈ p.treeBelow true left path dirNum := by
  induction left generalizing path dirNum pr with
  | zero => intro x hx; cases hx
  | succ left ih =>
    rw [createRemoveBelow]
    refine foldl_forall _ (fun i hi acc pr hacc x hx => ?_) (fun x hx => by cases hx)
    have hchild : ∀ y, y = path ++ [treeDir (dirNum + i)] ∨
        y ∈ p.treeBelow true left (path ++ [treeDir (dirNum + i)])
          ((dirNum + i) * p.branchFactor + 1) → y ∈ p.treeBelow true (left + 1) path dirNum := by
      intro y hy
      rw [treeBelow, List.mem_flatMap]
      refine ⟨i, hi, ?_⟩
      simp only [if_true, List.mem_cons]
      rwa [Nat.mul_comm p.branchFactor]
    simp only [List.mem_append] at hx
    rcases hx with (hx | hx) | hx
    · exact hacc x hx
    · apply hchild
      split at hx
      · exact .inl (dropLast_itemRange hx)
      · cases hx
    · exact hchild _ (.inr (ih x hx))

/-- Every item below a root is put into a directory that the creation of the tree makes. -/
theorem mem_createRemoveItems {clock : Clock} {rank : ℕ} {dirs create : Bool} {parent : Path}
    {pr : Progress} {x : Path}
    (h : x ∈ (p.createRemoveItems clock rank dirs create (parent ++ [treeDir 0]) pr).1) :
    x.dropLast ∈ p.createRemoveTree true parent := by
  simp only [createRemoveTree, if_true, List.mem_cons]
  simp only [createRemoveItems, List.mem_append] at h
  rcases h with h | h
  · split at h
    · exact .inl (dropLast_itemRange h)
    · cases h
  · split at h
    · exact .inr (mem_createRemoveBelow x h)
    · cases h

theorem mem_createPhase {clock : Clock} {iteration rank : ℕ} {dirs : Bool} :
    ∀ x ∈ (p.createPhase clock iteration rank dirs).1, ∃ dirIter < p.directoryLoops, ∃ pr,
      x ∈ (p.createRemoveItems clock rank dirs true (p.root iteration rank 0 dirIter) pr).1 := by
  rw [createPhase]
  refine foldl_forall _ (fun i hi acc pr hacc x hx => ?_) (fun x hx => by cases hx)
  simp only [List.mem_append] at hx
  rcases hx with hx | hx
  · exact hacc x hx
  · exact ⟨i, List.mem_range.mp hi, _, hx⟩

theorem covered_of_shared (hu : p.uniqueDir = false) (iteration : ℕ) (dirs : Bool) :
    p.Covered iteration dirs := by
  intro clock x hx
  obtain ⟨rank, hrank, hx⟩ := List.mem_flatMap.mp hx
  obtain ⟨dirIter, hiter, pr, hx⟩ := mem_createPhase x hx
  rw [root_eq hu] at hx
  have hin := mem_createRemoveItems hx
  rw [List.mem_range] at hrank
  rw [skeleton, List.mem_flatMap]
  refine ⟨0, List.mem_range.mpr (by omega), List.mem_append_right _ ?_⟩
  rw [treeCreation, List.mem_flatMap]
  refine ⟨dirIter, List.mem_range.mpr hiter, ?_⟩
  simpa [hu] using hin

/-! ## With a working directory for each rank -/

theorem treeBelow_under {left dirNum : ℕ} {parent : Path} :
    ∀ x ∈ p.treeBelow true left parent dirNum, parent <+: x := by
  induction left generalizing parent dirNum with
  | zero => intro x hx; cases hx
  | succ left ih =>
    intro x hx
    rw [treeBelow, List.mem_flatMap] at hx
    obtain ⟨i, -, hx⟩ := hx
    simp only [if_true, List.mem_cons] at hx
    rcases hx with rfl | hx
    · exact List.prefix_append ..
    · exact (List.prefix_append ..).trans (ih x hx)

theorem createRemoveTree_under {parent : Path} :
    ∀ x ∈ p.createRemoveTree true parent, parent <+: x := by
  intro x hx
  simp only [createRemoveTree, if_true, List.mem_cons] at hx
  rcases hx with rfl | hx
  · exact List.prefix_append ..
  · exact (List.prefix_append ..).trans (treeBelow_under x hx)

/-- With a working directory for each rank, everything below a test directory is below one of
those. -/
theorem skeleton_unique (hu : p.uniqueDir = true) (hloops : p.directoryLoops = 1) {iteration : ℕ}
    {x : Path} (h : x ∈ p.skeleton iteration) : x = p.testdir iteration 0 ∨
      ∃ rank : ℕ, p.testdir iteration 0 ++ ["mdtest_tree." ++ toString rank] <+: x := by
  rw [skeleton, List.mem_flatMap] at h
  obtain ⟨rank, -, h⟩ := h
  simp only [hloops, List.range_one, List.map_singleton, List.mem_append, treeCreation,
    List.flatMap_singleton, hu, if_true, List.mem_cons, List.not_mem_nil, or_false] at h
  rcases h with rfl | rfl | h
  · exact .inl rfl
  · exact .inr ⟨rank, List.prefix_rfl⟩
  · exact .inr ⟨rank, createRemoveTree_under x h⟩

/-- Some item is created where the timer stays silent. -/
theorem exists_created (hloops : p.directoryLoops = 1) (hipd : 0 < p.itemsPerDir)
    (hbranch : 0 < p.depth → 0 < p.branchFactor) (hthreads : 0 < p.threads) (iteration : ℕ)
    (dirs : Bool) : ∃ l name,
      p.root iteration 0 0 0 ++ l ++ [name] ∈ createdItems p (fun _ _ => false) iteration dirs := by
  have hitemDirs : 0 < p.itemDirs := by
    unfold itemDirs
    split
    · rcases Nat.eq_zero_or_pos p.depth with h0 | h0
      · simp [h0]
      · exact Nat.pow_pos (hbranch h0)
    · rw [treeSize]
      omega
  have hmem : p.firstDir ∈ forest p.branchFactor p.leafOnly (p.depth + 1) 0 1 := by
    rw [(forest_perm p).mem_iff, List.mem_range'_1]
    omega
  have hnum : p.firstDir * p.itemsPerDir ∈
      itemsOf p.itemsPerDir 0 (forest p.branchFactor p.leafOnly (p.depth + 1) 0 1) :=
    List.mem_flatMap.mpr ⟨_, hmem, List.mem_map.mpr ⟨0, by rw [List.mem_range'_1]; omega, rfl⟩⟩
  have hlimits : Limits (fun _ => false) 0 p.itemsPerDir
      { p.startProgress with stoneWallTimer := if dirs then 0 else p.stonewall } :=
    ⟨rfl, rfl, .inr fun _ => rfl⟩
  obtain ⟨pr', hrun, -⟩ := createRemoveItems_quiet 0 dirs true (p.root iteration 0 0 0) hlimits
  have hphase : (p.createPhase (fun _ => false) iteration 0 dirs).1 =
      (p.createRemoveItems (fun _ => false) 0 dirs true (p.root iteration 0 0 0)
        { p.startProgress with stoneWallTimer := if dirs then 0 else p.stonewall }).1 := by
    simp [createPhase, hloops, startProgress]
  obtain ⟨l, name, hpath⟩ : ∃ l name, p.itemPath "mdtest_tree" dirs (p.itemPrefix 0 0)
      (p.firstDir * p.itemsPerDir) = l ++ [name] := ⟨_, _, rfl⟩
  refine ⟨l, name, List.mem_flatMap.mpr ⟨0, List.mem_range.mpr hthreads, ?_⟩⟩
  rw [hphase, hrun, List.append_assoc, ← hpath]
  exact List.mem_map.mpr ⟨_, hnum, rfl⟩

theorem not_covered_of_unique (hu : p.uniqueDir = true) (hloops : p.directoryLoops = 1)
    (hipd : 0 < p.itemsPerDir) (hbranch : 0 < p.depth → 0 < p.branchFactor)
    (hthreads : 0 < p.threads) (iteration : ℕ) (dirs : Bool) : ¬ p.Covered iteration dirs := by
  intro h
  obtain ⟨l, name, hitem⟩ := exists_created hloops hipd hbranch hthreads iteration dirs
  have hin := h _ _ hitem
  rw [List.dropLast_concat, root, treeRoot, if_pos hu, List.append_assoc] at hin
  rcases skeleton_unique hu hloops hin with hbare | ⟨rank, r, hr⟩
  · have hlen := congrArg List.length hbare
    simp at hlen
  · rw [List.append_assoc] at hr
    have hname := (List.cons.inj (List.append_cancel_left hr)).1
    have hdot := congrArg String.toList (append_left_cancel
      (hname.trans (String.append_assoc ..)))
    refine dot_notMem_toString rank ?_
    rw [hdot, String.toList_append]
    exact List.mem_append_right _ (by decide)

end Params

/-- The create phases of a run put their items into directories that exist. -/
def SkeletonCovers (p : Params) : Prop :=
  ∀ iteration < p.iterations, p.createOnly = true →
    ∀ dirs, (if dirs then p.dirsOnly else p.filesOnly) = true → p.Covered iteration dirs

/-- **The skeleton holds every item exactly if the ranks share one tree**, or there is no create
phase. -/
theorem skeleton_covers_iff {a : Args} {top : Path} {now : ℕ} {p : Params}
    (hp : configure a top now = .ok p) :
    SkeletonCovers p ↔ p.uniqueDir = false ∨ p.createOnly = false ∨ p.iterations = 0 := by
  have hconf := configure_configured hp
  constructor
  · intro h
    by_contra hno
    simp only [not_or, Bool.not_eq_false] at hno
    obtain ⟨hu, hcreate, hiter⟩ := hno
    have hloops : p.directoryLoops = 1 := by
      rw [hconf.loops, if_neg]
      simp [← hconf.uniqueDir, hu]
    have hthreads : 0 < p.threads := by
      rw [hconf.threads]
      omega
    have hkind : ∀ dirs, ¬ p.Covered 0 dirs := Params.not_covered_of_unique hu hloops
      hconf.itemsPerDir hconf.branch hthreads 0
    rcases hconf.kinds with hd | hf
    · exact hkind true (h 0 (by omega) hcreate true hd)
    · exact hkind false (h 0 (by omega) hcreate false hf)
  · rintro (hu | hcreate | hiter) iteration hit hc dirs -
    · exact Params.covered_of_shared hu iteration dirs
    · rw [hc] at hcreate
      cases hcreate
    · omega

/-- One rank with a shared tree. -/
theorem skeleton_covers_single : ∃ p, configure { items := 1 } ["mnt"] 0 = .ok p ∧
    (SkeletonCovers p ↔ p.uniqueDir = false ∨ p.createOnly = false ∨ p.iterations = 0) :=
  ⟨_, rfl, skeleton_covers_iff (a := { items := 1 }) rfl⟩

/-- One rank with a working directory of its own puts its only file into a directory that nobody
has made. -/
theorem unique_dir_uncovered : ∃ p, configure { items := 1, uniqueDir := true } ["mnt"] 0 = .ok p ∧
    ["mnt", "test-dir.0-0", "mdtest_tree.0.0", "file.mdtest.0.0"] ∈
      createdItems p (fun _ _ => false) 0 false ∧
    ["mnt", "test-dir.0-0", "mdtest_tree.0.0"] ∉ p.skeleton 0 := by
  refine ⟨_, rfl, ?_, ?_⟩
  · decide
  · decide

end Fstest.Mdtest
