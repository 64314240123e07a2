import Fstest.Mdtest.Tree

/-!
# The items a walk of mdtest comes to

Where the stonewall timer stays silent, `createRemoveItems` comes to the items of the directories
that hold items, each directory's numbers in a row (`createRemoveItems_quiet`), and it comes to each
item at the path that `itemPath` reconstructs from its number. The directories are numbered level
by level, so the numbers are those that a lookup counts through (`numbers_perm`).
-/

namespace Fstest.Mdtest

open LevelOrder

namespace Params

variable (p : Params)

/-! ## A silent timer -/

/-- The timer is off, or has not expired at any look. -/
def Quiet (clock : Clock) (pr : Progress) : Prop :=
  pr.stoneWallTimer = 0 ∨ ∀ k, clock k = false

/-- The limits that a walk reads and does not change. -/
structure Limits (clock : Clock) (start ipd : ℕ) (pr : Progress) : Prop where
  itemsStart : pr.itemsStart = start
  itemsPerDir : pr.itemsPerDir = ipd
  quiet : Quiet clock pr

theorem itemLoop_quiet {clock : Clock} {start ipd : ℕ} (item : ℕ → Path) (left i : ℕ)
    {pr : Progress} (h : Limits clock start ipd pr) :
    ∃ pr', itemLoop clock item left i pr = ((List.range' i left).map item, pr') ∧
      Limits clock start ipd pr' := by
  induction left generalizing i pr with
  | zero => exact ⟨_, rfl, h.itemsStart, h.itemsPerDir, h.quiet⟩
  | succ left ih =>
    rw [itemLoop]
    by_cases ht : 0 < pr.stoneWallTimer
    · have hno : ∀ k, clock k = false := h.quiet.resolve_left (by omega)
      have hnext : Limits clock start ipd { pr with itemsDone := i + 1, looks := pr.looks + 1 } :=
        ⟨h.itemsStart, h.itemsPerDir, .inr hno⟩
      obtain ⟨pr', hrun, h'⟩ := ih (i + 1) hnext
      refine ⟨pr', ?_, h'⟩
      simp only [ht, if_true, hno, Bool.false_eq_true, if_false, hrun]
      rw [List.range'_succ, List.map_cons]
    · have hnext : Limits clock start ipd { pr with itemsDone := i + 1 } :=
        ⟨h.itemsStart, h.itemsPerDir, h.quiet⟩
      obtain ⟨pr', hrun, h'⟩ := ih (i + 1) hnext
      refine ⟨pr', ?_, h'⟩
      simp only [ht, if_false, hrun]
      rw [List.range'_succ, List.map_cons]

/-- A loop that collects a list for each index and keeps a property of its state. -/
theorem foldl_collect {β γ : Type} {S : Type} {I : S → Prop} {g : β → List γ}
    (f : List γ × S → β → List γ × S) (l : List β)
    (hstep : ∀ b ∈ l, ∀ acc s, I s → ∃ s', f (acc, s) b = (acc ++ g b, s') ∧ I s')
    (acc : List γ) {s : S} (hs : I s) :
    ∃ s', l.foldl f (acc, s) = (acc ++ l.flatMap g, s') ∧ I s' := by
  induction l generalizing acc s with
  | nil => exact ⟨s, by simp, hs⟩
  | cons b l ih =>
    obtain ⟨s₁, h₁, hs₁⟩ := hstep b (by simp) acc s hs
    obtain ⟨s₂, h₂, hs₂⟩ := ih (fun b' hb' => hstep b' (by simp [hb'])) (acc ++ g b) hs₁
    refine ⟨s₂, ?_, hs₂⟩
    rw [List.foldl_cons, h₁, h₂, List.append_assoc, List.flatMap_cons]

/-! ## The walk places each item at the path of its number -/

/-- The path of a directory of the tree, below the root of the tree. -/
def dirPath (d : ℕ) : Path := (if 0 < d then ancestors p.branchFactor d else []).map treeDir

theorem dirPath_child {d i : ℕ} (hi : i < p.branchFactor) :
    p.dirPath (d * p.branchFactor + 1 + i) =
      p.dirPath d ++ [treeDir (d * p.branchFactor + 1 + i)] := by
  rw [dirPath, if_pos (by omega), dirPath]
  by_cases hd : 0 < d
  · rw [if_pos hd, ancestors_child _ hd hi, List.map_append]
    rfl
  · have hd0 : d = 0 := by omega
    subst hd0
    rw [if_neg (by omega), ancestors_top _ (by omega)]
    rfl

theorem itemPath_eq (dirs : Bool) (namePrefix : String) {d j : ℕ} (hj : j < p.itemsPerDir) :
    p.itemPath "mdtest_tree" dirs namePrefix (d * p.itemsPerDir + j) =
      p.dirPath d ++ [itemName dirs namePrefix (d * p.itemsPerDir + j)] := by
  have hparent : (d * p.itemsPerDir + j) / p.itemsPerDir = d := by
    rw [Nat.add_comm, Nat.add_mul_div_right _ _ (by omega), Nat.div_eq_of_lt hj, Nat.zero_add]
  rw [itemPath, hparent, dirPath]
  rfl

/-- The items from number `start` on in the directories `ds`, by number. -/
def itemsOf (ipd start : ℕ) (ds : List ℕ) : List ℕ :=
  ds.flatMap fun d => (List.range' start (ipd - start)).map (d * ipd + ·)

theorem itemsOf_append (ipd start : ℕ) (ds es : List ℕ) :
    itemsOf ipd start (ds ++ es) = itemsOf ipd start ds ++ itemsOf ipd start es :=
  List.flatMap_append

variable {p} {clock : Clock} {start : ℕ}

theorem itemRange_quiet (rank : ℕ) (dirs create : Bool) (root : Path) (d : ℕ) {pr : Progress}
    (h : Limits clock start p.itemsPerDir pr) :
    ∃ pr', p.itemRange clock rank dirs create (root ++ p.dirPath d) (d * p.itemsPerDir) pr =
      ((itemsOf p.itemsPerDir start [d]).map fun n => root ++ p.itemPath "mdtest_tree" dirs
        (p.itemPrefix rank (if create then 0 else 3)) n, pr') ∧
      Limits clock start p.itemsPerDir pr' := by
  obtain ⟨pr', hrun, h'⟩ := itemLoop_quiet (fun i => root ++ p.dirPath d ++
    [itemName dirs (p.itemPrefix rank (if create then 0 else 3)) (d * p.itemsPerDir + i)])
    (p.itemsPerDir - start) start h
  refine ⟨pr', ?_, h'⟩
  have hitem : (if create then p.itemPrefix rank 0 else p.itemPrefix rank 3) =
      p.itemPrefix rank (if create then 0 else 3) := by cases create <;> rfl
  rw [itemRange, h.itemsStart, h.itemsPerDir]
  simp only [hitem]
  rw [hrun]
  simp only [itemsOf, List.flatMap_singleton, List.map_map, Prod.mk.injEq, and_true]
  refine List.map_congr_left fun j hj => ?_
  have hlt : j < p.itemsPerDir := by
    rw [List.mem_range'_1] at hj
    omega
  simp only [Function.comp_apply]
  rw [itemPath_eq p dirs _ hlt, List.append_assoc]

/-- **The walk below a directory comes to the items of the forest below it, each at the path that
its number leads to.** -/
theorem createRemoveBelow_quiet (rank : ℕ) (dirs create : Bool) (root : Path) (left d : ℕ)
    {pr : Progress} (h : Limits clock start p.itemsPerDir pr) :
    ∃ pr', p.createRemoveBelow clock rank dirs create left (root ++ p.dirPath d)
        (d * p.branchFactor + 1) pr =
      ((itemsOf p.itemsPerDir start
          (forest p.branchFactor p.leafOnly left (d * p.branchFactor + 1) p.branchFactor)).map
        fun n => root ++ p.itemPath "mdtest_tree" dirs
          (p.itemPrefix rank (if create then 0 else 3)) n, pr') ∧
      Limits clock start p.itemsPerDir pr' := by
  induction left generalizing d pr with
  | zero => exact ⟨pr, rfl, h⟩
  | succ left ih =>
    -- What the loop collects at child `i`: its own items, and those of the subtree under it.
    let path := fun n => root ++ p.itemPath "mdtest_tree" dirs
      (p.itemPrefix rank (if create then 0 else 3)) n
    let nodes := fun c => (if !p.leafOnly || left == 0 then [c] else []) ++
      forest p.branchFactor p.leafOnly left (c * p.branchFactor + 1) p.branchFactor
    obtain ⟨pr', hrun, h'⟩ := foldl_collect
      (g := fun i => (itemsOf p.itemsPerDir start (nodes (d * p.branchFactor + 1 + i))).map path)
      (fun st i =>
        let sub := root ++ p.dirPath d ++ [treeDir (d * p.branchFactor + 1 + i)]
        let here :=
          if !p.leafOnly || left == 0 then
            p.itemRange clock rank dirs create sub
              ((d * p.branchFactor + 1 + i) * st.2.itemsPerDir) st.2
          else ([], st.2)
        let below := createRemoveBelow p clock rank dirs create left sub
          ((d * p.branchFactor + 1 + i) * p.branchFactor + 1) here.2
        (st.1 ++ here.1 ++ below.1, below.2)) (List.range p.branchFactor) (fun i hi acc pr₀ h₀ => by
          have hsub : root ++ p.dirPath d ++ [treeDir (d * p.branchFactor + 1 + i)] =
              root ++ p.dirPath (d * p.branchFactor + 1 + i) := by
            rw [dirPath_child p (List.mem_range.mp hi), List.append_assoc]
          simp only [hsub, h₀.itemsPerDir]
          by_cases hplace : (!p.leafOnly || left == 0) = true
          · obtain ⟨pr₁, hr₁, h₁⟩ := itemRange_quiet rank dirs create root
              (d * p.branchFactor + 1 + i) h₀
            obtain ⟨pr₂, hr₂, h₂⟩ := ih (d * p.branchFactor + 1 + i) h₁
            refine ⟨pr₂, ?_, h₂⟩
            simp only [hplace, if_true, hr₁, hr₂, nodes, itemsOf_append, List.map_append,
              List.append_assoc, path]
          · obtain ⟨pr₂, hr₂, h₂⟩ := ih (d * p.branchFactor + 1 + i) h₀
            refine ⟨pr₂, ?_, h₂⟩
            simp only [if_neg hplace, hr₂, nodes, List.nil_append, List.append_nil, path])
      [] h
    refine ⟨pr', ?_, h'⟩
    rw [createRemoveBelow]
    refine hrun.trans ?_
    rw [List.nil_append, forest, List.range'_eq_map_range, List.flatMap_map, itemsOf,
      List.flatMap_assoc, List.map_flatMap]
    rfl

/-- The whole walk, from the root of the tree. -/
theorem createRemoveItems_quiet (rank : ℕ) (dirs create : Bool) (root : Path) {pr : Progress}
    (h : Limits clock start p.itemsPerDir pr) :
    ∃ pr', p.createRemoveItems clock rank dirs create root pr =
      ((itemsOf p.itemsPerDir start
          (forest p.branchFactor p.leafOnly (p.depth + 1) 0 1)).map
        fun n => root ++ p.itemPath "mdtest_tree" dirs
          (p.itemPrefix rank (if create then 0 else 3)) n, pr') ∧
      Limits clock start p.itemsPerDir pr' := by
  have hroot : root ++ p.dirPath 0 = root := List.append_nil root
  have hbelow : ∀ {pr : Progress}, Limits clock start p.itemsPerDir pr →
      ∃ pr', (if 0 < p.depth then p.createRemoveBelow clock rank dirs create p.depth root 1 pr
          else ([], pr)) =
        ((itemsOf p.itemsPerDir start
            (forest p.branchFactor p.leafOnly p.depth 1 p.branchFactor)).map
          fun n => root ++ p.itemPath "mdtest_tree" dirs
            (p.itemPrefix rank (if create then 0 else 3)) n, pr') ∧
        Limits clock start p.itemsPerDir pr' := by
    intro pr hpr
    by_cases hd : 0 < p.depth
    · obtain ⟨pr', hrun, h'⟩ := createRemoveBelow_quiet rank dirs create root p.depth 0 hpr
      rw [hroot, Nat.zero_mul, Nat.zero_add] at hrun
      exact ⟨pr', by rw [if_pos hd, hrun], h'⟩
    · have hd0 : p.depth = 0 := by omega
      exact ⟨pr, by rw [if_neg hd, hd0]; rfl, hpr⟩
  have hforest : forest p.branchFactor p.leafOnly (p.depth + 1) 0 1 =
      (if !p.leafOnly || p.depth == 0 then [0] else []) ++
        forest p.branchFactor p.leafOnly p.depth 1 p.branchFactor := by
    rw [forest]
    simp [List.range']
  rw [createRemoveItems, hforest, itemsOf_append, List.map_append]
  by_cases hplace : (!p.leafOnly || p.depth == 0) = true
  · obtain ⟨pr₁, hr₁, h₁⟩ := itemRange_quiet rank dirs create root 0 h
    rw [hroot, Nat.zero_mul] at hr₁
    obtain ⟨pr₂, hr₂, h₂⟩ := hbelow h₁
    refine ⟨pr₂, ?_, h₂⟩
    simp only [hplace, if_true, hr₁, hr₂]
  · obtain ⟨pr₂, hr₂, h₂⟩ := hbelow h
    refine ⟨pr₂, ?_, h₂⟩
    simp only [if_neg hplace, hr₂, itemsOf, List.flatMap_nil, List.map_nil]

/-! ## The numbers of the items -/

theorem itemsOf_range' (ipd m len : ℕ) :
    itemsOf ipd 0 (List.range' m len) = List.range' (m * ipd) (len * ipd) := by
  induction len with
  | zero => simp [itemsOf]
  | succ len ih =>
    rw [List.range'_1_concat, itemsOf_append, ih, Nat.succ_mul, ← List.range'_append_1, itemsOf,
      List.flatMap_singleton, Nat.sub_zero, List.map_add_range']
    congr 2
    ring

theorem itemsOf_perm {ds es : List ℕ} (ipd start : ℕ) (h : ds.Perm es) :
    (itemsOf ipd start ds).Perm (itemsOf ipd start es) :=
  h.flatMap_right _

/-- The first of the directories that hold items. -/
def firstDir (p : Params) : ℕ := if p.leafOnly then treeSize p.branchFactor 1 p.depth else 0

/-- The number of directories that hold items. -/
def itemDirs (p : Params) : ℕ :=
  if p.leafOnly then p.branchFactor ^ p.depth else treeSize p.branchFactor 1 (p.depth + 1)

/-- The directories that hold items are an interval of numbers. -/
theorem forest_perm (p : Params) : (forest p.branchFactor p.leafOnly (p.depth + 1) 0 1).Perm
    (List.range' p.firstDir p.itemDirs) := by
  have hrow : 0 * p.branchFactor + 1 = 0 + 1 := by omega
  unfold firstDir itemDirs
  cases p.leafOnly with
  | false => exact forest_all_perm p.branchFactor (p.depth + 1) hrow
  | true =>
    rw [forest_leaves p.branchFactor p.depth hrow, Nat.zero_add, Nat.one_mul]
    exact .refl _

/-- What `configure` establishes about the tree and, where one of the two counts of items is
given, about the items. -/
structure Tallied (p : Params) : Prop where
  numDirs : p.numDirsInTree = treeSize p.branchFactor 1 (p.depth + 1)
  items : p.items = p.itemDirs * p.itemsPerDir
  loops : p.directoryLoops = 1

theorem leafOffset_eq (h : p.numDirsInTree = treeSize p.branchFactor 1 (p.depth + 1)) :
    p.leafOffset = p.firstDir * p.itemsPerDir := by
  have hsize := treeSize_succ p.branchFactor 1 p.depth
  rw [leafOffset, firstDir, h, hsize, Nat.one_mul, Nat.add_sub_cancel]
  split
  · exact Nat.mul_comm ..
  · exact (Nat.zero_mul _).symm

/-- The numbers of the items that a walk comes to are those that a lookup counts through. -/
theorem numbers_perm (h : Tallied p) :
    (itemsOf p.itemsPerDir 0 (forest p.branchFactor p.leafOnly (p.depth + 1) 0 1)).Perm
      ((List.range p.items).map (· + p.leafOffset)) := by
  refine (itemsOf_perm p.itemsPerDir 0 (forest_perm p)).trans ?_
  rw [itemsOf_range', leafOffset_eq h.numDirs, h.items, List.range'_eq_map_range]
  refine .of_eq (List.map_congr_left fun i _ => ?_)
  exact Nat.add_comm ..

end Params

end Fstest.Mdtest
