import Fstest.Mdtest.Placement
import Mathlib.Data.Finset.Card

/-!
# The directory loops of mdtest

A rank creates its items in one test directory after the other. `item_range` leaves in the progress
record how far it has come in the last directory, and the creation of files starts there in the next
test directory, while the creation of directories starts at 0. Where the timer stays silent,
`item_range` has always come to the end of its directory, so files are created in the first test
directory only (`filesInEveryLoop_iff`).

What is recorded as created is the same number, so it is that of one directory (`reports_created_iff`).
-/

namespace Fstest.Mdtest

open LevelOrder

namespace Params

variable {p : Params} {clock : Clock} {start : ℕ}

/-! ## Where a walk ends -/

theorem itemLoop_done (item : ℕ → Path) (left i : ℕ) {pr : Progress} (hquiet : Quiet clock pr) :
    (itemLoop clock item left i pr).2.itemsDone = pr.itemsPerDir := by
  induction left generalizing i pr with
  | zero => rfl
  | succ left ih =>
    rw [itemLoop]
    by_cases ht : 0 < pr.stoneWallTimer
    · have hno : ∀ k, clock k = false := hquiet.resolve_left (by omega)
      simp only [ht, if_true, hno, Bool.false_eq_true, if_false]
      exact ih _ (.inr hno)
    · simp only [ht, if_false]
      exact ih _ (hquiet.imp_left id)

/-- **`item_range` comes to the end of its directory.** -/
theorem itemRange_done (rank : ℕ) (dirs create : Bool) (path : Path) (first : ℕ) {pr : Progress}
    (h : Limits clock start p.itemsPerDir pr) :
    (p.itemRange clock rank dirs create path first pr).2.itemsDone = p.itemsPerDir := by
  rw [itemRange, ← h.itemsPerDir]
  exact itemLoop_done _ _ _ h.quiet

/-- A loop, each round of which establishes `P`. -/
theorem foldl_establish {β S : Type} {I P : S → Prop} {f : S → β → S} (l : List β)
    (hstep : ∀ b ∈ l, ∀ s, I s → I (f s b) ∧ P (f s b)) {s : S} (hs : I s) (h : l ≠ [] ∨ P s) :
    P (l.foldl f s) := by
  induction l generalizing s with
  | nil => exact h.resolve_left (absurd rfl)
  | cons b l ih =>
    obtain ⟨hinv, hP⟩ := hstep b List.mem_cons_self s hs
    exact ih (fun b' hb' => hstep b' (List.mem_cons_of_mem b hb')) hinv (.inr hP)

theorem createRemoveBelow_done (rank : ℕ) (dirs create : Bool) (root : Path) (left d : ℕ)
    {pr : Progress} (h : Limits clock start p.itemsPerDir pr)
    (hdone : 0 < left ∧ 0 < p.branchFactor ∨ pr.itemsDone = p.itemsPerDir) :
    (p.createRemoveBelow clock rank dirs create left (root ++ p.dirPath d) (d * p.branchFactor + 1)
      pr).2.itemsDone = p.itemsPerDir := by
  induction left generalizing d pr with
  | zero => exact hdone.resolve_left fun h => absurd h.1 (Nat.lt_irrefl 0)
  | succ left ih =>
    rw [createRemoveBelow]
    refine foldl_establish (I := fun s : List Path × Progress => Limits clock start p.itemsPerDir s.2)
      (P := fun s => s.2.itemsDone = p.itemsPerDir) (List.range p.branchFactor) (fun i hi s hs => ?_) h
      (hdone.imp_left fun h => ?_)
    · have hlt := List.mem_range.mp hi
      have hsub : root ++ p.dirPath d ++ [treeDir (d * p.branchFactor + 1 + i)] =
          root ++ p.dirPath (d * p.branchFactor + 1 + i) := by
        rw [dirPath_child p hlt, List.append_assoc]
      obtain ⟨acc, pr₀⟩ := s
      have hs : Limits clock start p.itemsPerDir pr₀ := hs
      simp only [hsub, hs.itemsPerDir]
      by_cases hplace : (!p.leafOnly || left == 0) = true
      · -- The items of this directory come first.
        have hhere := itemRange_done rank dirs create (root ++ p.dirPath (d * p.branchFactor + 1 + i))
          ((d * p.branchFactor + 1 + i) * p.itemsPerDir) hs
        obtain ⟨pr₁, hr₁, h₁⟩ := itemRange_quiet rank dirs create root (d * p.branchFactor + 1 + i) hs
        rw [hr₁] at hhere
        obtain ⟨pr₂, hr₂, h₂⟩ := createRemoveBelow_quiet rank dirs create root left
          (d * p.branchFactor + 1 + i) h₁
        have hbelow := ih (d * p.branchFactor + 1 + i) h₁ (.inr hhere)
        simp only [hplace, if_true, hr₁, hr₂] at hbelow ⊢
        exact ⟨h₂, hbelow⟩
      · -- There are directories further down.
        have hleft : 0 < left := by
          simp only [Bool.or_eq_true, beq_iff_eq, not_or] at hplace
          exact Nat.pos_of_ne_zero hplace.2
        obtain ⟨pr₂, hr₂, h₂⟩ := createRemoveBelow_quiet rank dirs create root left
          (d * p.branchFactor + 1 + i) hs
        have hbelow := ih (d * p.branchFactor + 1 + i) hs (.inl ⟨hleft, by omega⟩)
        simp only [if_neg hplace, hr₂] at hbelow ⊢
        exact ⟨h₂, hbelow⟩
    · exact List.ne_nil_of_length_pos (by rw [List.length_range]; exact h.2)

/-- **So a walk ends at the end of a directory.** -/
theorem createRemoveItems_done (hbranch : 0 < p.depth → 0 < p.branchFactor) (rank : ℕ)
    (dirs create : Bool) (root : Path) {pr : Progress} (h : Limits clock start p.itemsPerDir pr) :
    (p.createRemoveItems clock rank dirs create root pr).2.itemsDone = p.itemsPerDir := by
  have hroot : root ++ p.dirPath 0 = root := List.append_nil root
  by_cases hdepth : 0 < p.depth
  · have hbelow : ∀ {pr : Progress}, Limits clock start p.itemsPerDir pr →
        (p.createRemoveBelow clock rank dirs create p.depth root 1 pr).2.itemsDone = p.itemsPerDir := by
      intro pr hpr
      have hdone := createRemoveBelow_done rank dirs create root p.depth 0 hpr (.inl ⟨hdepth, hbranch hdepth⟩)
      rwa [hroot, Nat.zero_mul] at hdone
    rw [createRemoveItems]
    by_cases hplace : (!p.leafOnly || p.depth == 0) = true
    · obtain ⟨pr₁, hr₁, h₁⟩ := itemRange_quiet rank dirs create root 0 h
      rw [hroot, Nat.zero_mul] at hr₁
      simp only [hplace, if_true, hr₁, if_pos hdepth]
      exact hbelow h₁
    · simp only [if_neg hplace, if_pos hdepth]
      exact hbelow h
  · have hzero : p.depth = 0 := by omega
    rw [createRemoveItems]
    simp only [hzero, beq_self_eq_true, Bool.or_true, if_true, Nat.lt_irrefl, if_false]
    exact itemRange_done rank dirs create root 0 h

/-! ## The items in their directories -/

variable (p) in
/-- The directories that hold items, in the order of a walk. -/
def heldDirs : List ℕ := forest p.branchFactor p.leafOnly (p.depth + 1) 0 1

variable (p) in
/-- The items of one directory, below a root. -/
def itemsIn (rank : ℕ) (dirs : Bool) (root : Path) (d : ℕ) : List Path :=
  (List.range p.itemsPerDir).map fun j =>
    root ++ p.dirPath d ++ [itemName dirs (p.itemPrefix rank 0) (d * p.itemsPerDir + j)]

variable (p) in
/-- The items of one test directory. -/
def itemsBelow (rank : ℕ) (dirs : Bool) (root : Path) : List Path :=
  p.heldDirs.flatMap (p.itemsIn rank dirs root)

theorem mem_heldDirs {d : ℕ} : d ∈ p.heldDirs ↔ p.firstDir ≤ d ∧ d < p.firstDir + p.itemDirs := by
  rw [heldDirs, (forest_perm p).mem_iff, List.mem_range'_1]

theorem nodup_heldDirs (p : Params) : p.heldDirs.Nodup :=
  (forest_perm p).nodup_iff.mpr List.nodup_range'

theorem length_heldDirs (p : Params) : p.heldDirs.length = p.itemDirs := by
  rw [heldDirs, (forest_perm p).length_eq, List.length_range']

theorem map_itemPath (rank : ℕ) (dirs : Bool) (root : Path) (ds : List ℕ) :
    (itemsOf p.itemsPerDir 0 ds).map (fun n => root ++ p.itemPath "mdtest_tree" dirs (p.itemPrefix rank 0) n) =
      ds.flatMap (p.itemsIn rank dirs root) := by
  rw [itemsOf, List.map_flatMap]
  refine List.flatMap_congr fun d _ => ?_
  rw [itemsIn, Nat.sub_zero, ← List.range_eq_range', List.map_map]
  refine List.map_congr_left fun j hj => ?_
  rw [Function.comp_apply, itemPath_eq p dirs _ (List.mem_range.mp hj), List.append_assoc]

theorem dropLast_of_mem_itemsIn {rank d : ℕ} {dirs : Bool} {root q : Path}
    (h : q ∈ p.itemsIn rank dirs root d) : q.dropLast = root ++ p.dirPath d := by
  obtain ⟨j, -, rfl⟩ := List.mem_map.mp h
  exact List.dropLast_concat

/-- A directory's path determines its number. -/
theorem dirPath_injective {d e : ℕ} (h : p.dirPath d = p.dirPath e) : d = e := by
  have hlast : ∀ d, (p.dirPath d).getLast? = if 0 < d then some (treeDir d) else none := by
    intro d
    rw [dirPath]
    split
    · rw [List.getLast?_map, getLast?_ancestors]
      rfl
    · rfl
  have hboth := congrArg List.getLast? h
  rw [hlast, hlast] at hboth
  split at hboth <;> split at hboth
  · exact toString_injective (append_left_cancel (Option.some.inj hboth))
  · cases hboth
  · cases hboth
  · omega

/-- Of the lists for the elements of a list without repetitions, one has all. -/
theorem flatMap_single {α β : Type} {l : List α} {f : α → List β} {a : α} (hl : l.Nodup) (ha : a ∈ l)
    (hf : ∀ b ∈ l, b ≠ a → f b = []) : l.flatMap f = f a := by
  induction l with
  | nil => cases ha
  | cons b l ih =>
    obtain ⟨hb, hl⟩ := List.nodup_cons.mp hl
    rw [List.flatMap_cons]
    rcases List.mem_cons.mp ha with rfl | ha
    · have hnil : l.flatMap f = [] := List.flatMap_eq_nil_iff.mpr fun c hc =>
        hf c (List.mem_cons_of_mem _ hc) fun heq => hb (heq ▸ hc)
      rw [hnil, List.append_nil]
    · rw [hf b List.mem_cons_self fun heq => hb (heq ▸ ha), List.nil_append]
      exact ih hl ha fun c hc => hf c (List.mem_cons_of_mem _ hc)

/-- **A directory that holds items has its own, and no others.** -/
theorem filter_itemsBelow (rank : ℕ) (dirs : Bool) (root : Path) {d : ℕ} (hd : d ∈ p.heldDirs) :
    (p.itemsBelow rank dirs root).filter (fun q => q.dropLast = root ++ p.dirPath d) =
      p.itemsIn rank dirs root d := by
  rw [itemsBelow, List.filter_flatMap]
  refine (flatMap_single (nodup_heldDirs p) hd fun e _ hne => ?_).trans ?_
  · refine List.filter_eq_nil_iff.mpr fun q hq => ?_
    rw [dropLast_of_mem_itemsIn hq, decide_eq_true_eq, List.append_right_inj]
    exact fun heq => hne (dirPath_injective heq)
  · exact List.filter_eq_self.mpr fun q hq => decide_eq_true (dropLast_of_mem_itemsIn hq)

theorem itemsIn_nodup (rank : ℕ) (dirs : Bool) (root : Path) (d : ℕ) :
    (p.itemsIn rank dirs root d).Nodup := by
  refine List.Nodup.map_on (fun i _ j _ heq => ?_) List.nodup_range
  have hname := (List.cons.inj (List.append_cancel_left heq)).1
  have := (itemName_injective hname).2
  omega

theorem length_itemsIn (rank : ℕ) (dirs : Bool) (root : Path) (d : ℕ) :
    (p.itemsIn rank dirs root d).length = p.itemsPerDir := by
  rw [itemsIn, List.length_map, List.length_range]

/-! ## The create phases -/

variable (p) in
/-- One round of a create phase. -/
def createRound (clock : Clock) (iteration rank : ℕ) (dirs : Bool) (s : List Path × Progress)
    (dirIter : ℕ) : List Path × Progress :=
  let start := if dirs || dirIter == 0 then 0 else s.2.itemsDone
  let (items, pr) := p.createRemoveItems clock rank dirs true (p.root iteration rank 0 dirIter)
    { s.2 with itemsStart := start }
  (s.1 ++ items, pr)

/-- Between two rounds. -/
structure Rounds (p : Params) (clock : Clock) (pr : Progress) : Prop where
  itemsPerDir : pr.itemsPerDir = p.itemsPerDir
  quiet : Quiet clock pr

/-- A round goes through its test directory from `start` on, and comes to the end of its last
directory. -/
theorem createRound_quiet (hbranch : 0 < p.depth → 0 < p.branchFactor) (iteration rank dirIter : ℕ)
    (dirs : Bool) {pr : Progress} (h : Rounds p clock pr)
    (hstart : (if dirs || dirIter == 0 then 0 else pr.itemsDone) = start) (acc : List Path) :
    ∃ pr', p.createRound clock iteration rank dirs (acc, pr) dirIter =
      (acc ++ (itemsOf p.itemsPerDir start p.heldDirs).map fun n => p.root iteration rank 0 dirIter ++
        p.itemPath "mdtest_tree" dirs (p.itemPrefix rank 0) n, pr') ∧
      Rounds p clock pr' ∧ pr'.itemsDone = p.itemsPerDir := by
  have hlimits : Limits clock start p.itemsPerDir { pr with itemsStart := start } :=
    ⟨rfl, h.itemsPerDir, h.quiet⟩
  obtain ⟨pr', hrun, h'⟩ :=
    createRemoveItems_quiet rank dirs true (p.root iteration rank 0 dirIter) hlimits
  have hdone := createRemoveItems_done hbranch rank dirs true (p.root iteration rank 0 dirIter) hlimits
  rw [hrun] at hdone
  refine ⟨pr', ?_, ⟨h'.itemsPerDir, h'.quiet⟩, hdone⟩
  simp only [createRound, hstart, hrun]
  rfl

theorem rounds_start {clock : Clock} (hquiet : p.stonewall = 0 ∨ ∀ k, clock k = false) (dirs : Bool) :
    Rounds p clock { p.startProgress with stoneWallTimer := if dirs then 0 else p.stonewall } := by
  refine ⟨rfl, hquiet.imp_left fun h => ?_⟩
  simp [h]

/-- **Directories are created in every test directory.** -/
theorem createPhase_dirs (hbranch : 0 < p.depth → 0 < p.branchFactor)
    (hquiet : p.stonewall = 0 ∨ ∀ k, clock k = false) (iteration rank : ℕ) :
    (p.createPhase clock iteration rank true).1 = (List.range p.directoryLoops).flatMap fun dirIter =>
      p.itemsBelow rank true (p.root iteration rank 0 dirIter) := by
  obtain ⟨pr', hrun, -⟩ := foldl_collect (I := Rounds p clock)
    (g := fun dirIter => p.itemsBelow rank true (p.root iteration rank 0 dirIter))
    (p.createRound clock iteration rank true) (List.range p.directoryLoops) (fun dirIter _ acc pr hpr => by
      obtain ⟨pr', hrun, h', -⟩ := createRound_quiet hbranch iteration rank dirIter true hpr rfl acc
      refine ⟨pr', ?_, h'⟩
      rw [hrun]
      exact congrArg (fun items => (acc ++ items, pr')) (map_itemPath rank true _ p.heldDirs))
    [] (rounds_start hquiet true)
  exact congrArg Prod.fst hrun

/-- **Files are created in the first test directory only.** -/
theorem createPhase_files (hbranch : 0 < p.depth → 0 < p.branchFactor)
    (hquiet : p.stonewall = 0 ∨ ∀ k, clock k = false) (hloops : 1 ≤ p.directoryLoops)
    (iteration rank : ℕ) : ∃ pr, p.createPhase clock iteration rank false =
      (p.itemsBelow rank false (p.root iteration rank 0 0), pr) ∧ pr.itemsDone = p.itemsPerDir := by
  obtain ⟨left, hleft⟩ : ∃ left, p.directoryLoops = left + 1 := ⟨p.directoryLoops - 1, by omega⟩
  have hzero : (if false || (0 : ℕ) == 0 then 0 else p.startProgress.itemsDone) = 0 := rfl
  obtain ⟨pr₁, hfirst, h₁, hdone₁⟩ :=
    createRound_quiet hbranch iteration rank 0 false (rounds_start hquiet false) hzero []
  obtain ⟨pr', hrest, -, hdone'⟩ := foldl_collect (g := fun _ => [])
    (I := fun pr => Rounds p clock pr ∧ pr.itemsDone = p.itemsPerDir)
    (p.createRound clock iteration rank false) (List.range' 1 left) (fun dirIter hmem acc pr hpr => by
      have hpos : dirIter ≠ 0 := by
        have := (List.mem_range'_1.mp hmem).1
        omega
      have hstart : (if false || dirIter == 0 then 0 else pr.itemsDone) = p.itemsPerDir := by
        rw [Bool.false_or, if_neg (by simpa using hpos), hpr.2]
      -- Each directory is at its end before its first item.
      have hnone : itemsOf p.itemsPerDir p.itemsPerDir p.heldDirs = [] :=
        List.flatMap_eq_nil_iff.mpr fun d _ => by rw [Nat.sub_self]; rfl
      obtain ⟨pr', hrun, h'⟩ := createRound_quiet hbranch iteration rank dirIter false hpr.1 hstart acc
      rw [hnone] at hrun
      exact ⟨pr', hrun, h'⟩)
    (p.itemsBelow rank false (p.root iteration rank 0 0)) (s := pr₁) ⟨h₁, hdone₁⟩
  refine ⟨pr', ?_, hdone'⟩
  have hnil : (List.range' 1 left).flatMap (fun _ => ([] : List Path)) = [] :=
    List.flatMap_eq_nil_iff.mpr fun _ _ => rfl
  rw [hnil, List.append_nil] at hrest
  change (List.range p.directoryLoops).foldl (p.createRound clock iteration rank false) _ = _
  rw [hleft, List.range_eq_range', List.range'_succ, List.foldl_cons, hfirst, List.nil_append, map_itemPath]
  exact hrest

/-! ## Files in every test directory -/

/-- The files that a rank creates in one directory. -/
def filesIn (p : Params) (clock : Clock) (iteration rank : ℕ) (dir : Path) : List Path :=
  (p.createPhase clock iteration rank false).1.filter fun q => q.dropLast = dir

/-- Every directory that holds items gets its number of files in each test directory, and the files
are placed as the directories are. -/
structure FilesInEveryLoop (p : Params) (clock : Clock) (iteration rank : ℕ) : Prop where
  count : ∀ dirIter < p.directoryLoops, ∀ d, p.firstDir ≤ d → d < p.firstDir + p.itemDirs →
    (p.filesIn clock iteration rank (p.root iteration rank 0 dirIter ++ p.dirPath d)).Nodup ∧
    (p.filesIn clock iteration rank (p.root iteration rank 0 dirIter ++ p.dirPath d)).length =
      p.itemsPerDir
  placement : ((p.createPhase clock iteration rank false).1.map List.dropLast).Perm
    ((p.createPhase clock iteration rank true).1.map List.dropLast)

theorem map_dropLast_itemsBelow (rank : ℕ) (dirs : Bool) (root : Path) :
    (p.itemsBelow rank dirs root).map List.dropLast =
      p.heldDirs.flatMap fun d => (List.range p.itemsPerDir).map fun _ => root ++ p.dirPath d := by
  rw [itemsBelow, List.map_flatMap]
  refine List.flatMap_congr fun d _ => ?_
  rw [itemsIn, List.map_map]
  exact List.map_congr_left fun j _ => List.dropLast_concat

/-- The roots in two test directories are no prefixes of one path. -/
theorem eq_of_root {iteration rank i j : ℕ} {x y : Path}
    (h : p.root iteration rank 0 i ++ x = p.root iteration rank 0 j ++ y) : i = j := by
  have hroot : ∀ i x, ∃ rest, p.root iteration rank 0 i ++ x =
      p.top ++ (("test-dir." ++ toString iteration ++ "-" ++ toString i) :: rest) := by
    intro i x
    rw [root, treeRoot, testdir]
    split
    · exact ⟨_, by rw [List.append_assoc, List.append_assoc]; rfl⟩
    · exact ⟨_, by rw [List.append_assoc, List.append_assoc]; rfl⟩
  obtain ⟨rest, hi⟩ := hroot i x
  obtain ⟨rest', hj⟩ := hroot j y
  rw [hi, hj] at h
  exact toString_injective (append_left_cancel (List.cons.inj (List.append_cancel_left h)).1)

theorem itemDirs_pos (hbranch : 0 < p.depth → 0 < p.branchFactor) : 0 < p.itemDirs := by
  rw [itemDirs]
  split
  · rcases Nat.eq_zero_or_pos p.depth with h | h
    · rw [h, pow_zero]
      exact Nat.one_pos
    · exact Nat.pow_pos (hbranch h)
  · rw [treeSize]
    omega

/-- After the first test directory no files are created. -/
theorem filesIn_later (hbranch : 0 < p.depth → 0 < p.branchFactor)
    (hquiet : p.stonewall = 0 ∨ ∀ k, clock k = false) (hloops : 1 ≤ p.directoryLoops)
    (iteration rank : ℕ) {dirIter : ℕ} (h : dirIter ≠ 0) (d : ℕ) :
    p.filesIn clock iteration rank (p.root iteration rank 0 dirIter ++ p.dirPath d) = [] := by
  obtain ⟨pr, hrun, -⟩ := createPhase_files hbranch hquiet hloops iteration rank
  rw [filesIn, hrun]
  refine List.filter_eq_nil_iff.mpr fun q hq => ?_
  obtain ⟨e, -, hq⟩ := List.mem_flatMap.mp hq
  rw [dropLast_of_mem_itemsIn hq, decide_eq_true_eq]
  exact fun heq => h (eq_of_root heq).symm

/-- **When files are created in every test directory**: if there is one only. -/
theorem filesInEveryLoop_iff {a : Args} {top : Path} {now : ℕ} (hp : configure a top now = .ok p)
    (htimer : a.stonewall = 0 ∨ ∀ k, clock k = false) (hloops : 1 ≤ p.directoryLoops)
    (iteration rank : ℕ) : FilesInEveryLoop p clock iteration rank ↔ p.directoryLoops = 1 := by
  have hconf := configure_configured hp
  have hquiet : p.stonewall = 0 ∨ ∀ k, clock k = false := htimer.imp_left hconf.stonewall.trans
  have hdirs := itemDirs_pos hconf.branch
  constructor
  · intro hevery
    by_contra hne
    have hcount := (hevery.count 1 (by omega) p.firstDir (Nat.le_refl _) (by omega)).2
    rw [filesIn_later hconf.branch hquiet hloops iteration rank Nat.one_ne_zero, List.length_nil] at hcount
    exact absurd hcount.symm hconf.itemsPerDir.ne'
  · intro hone
    obtain ⟨pr, hfiles, -⟩ := createPhase_files hconf.branch hquiet hloops iteration rank
    have hdirlist := createPhase_dirs hconf.branch hquiet iteration rank
    refine ⟨fun dirIter hlt d hge hd => ?_, ?_⟩
    · obtain rfl : dirIter = 0 := by omega
      rw [filesIn, hfiles, filter_itemsBelow rank false _ (mem_heldDirs.mpr ⟨hge, hd⟩)]
      exact ⟨itemsIn_nodup .., length_itemsIn ..⟩
    · rw [hfiles, hdirlist, hone, map_dropLast_itemsBelow]
      change List.Perm _ ((p.itemsBelow rank true (p.root iteration rank 0 0) ++ []).map List.dropLast)
      rw [List.append_nil, map_dropLast_itemsBelow]

/-- One test directory for each rank. -/
theorem filesInEveryLoop_single : ∃ p, configure { items := 4, itemsPerDir := 4, depth := 2 } ["mnt"] 0 =
    .ok p ∧ FilesInEveryLoop p (fun _ => false) 0 0 :=
  ⟨_, rfl, (filesInEveryLoop_iff (a := { items := 4, itemsPerDir := 4, depth := 2 }) rfl (.inl rfl)
    (by decide) 0 0).mpr rfl⟩

/-- **Of two test directories, the second gets no files.** -/
theorem second_loop_without_files : ∃ p, configure { items := 2, itemsPerDir := 1 } ["mnt"] 0 = .ok p ∧
    p.directoryLoops = 2 ∧ ¬ FilesInEveryLoop p (fun _ => false) 0 0 := by
  refine ⟨_, rfl, rfl, fun hevery => ?_⟩
  have hcount := (hevery.count 1 (by decide) 0 (by decide) (by decide)).2
  rw [filesIn_later (fun h => absurd h (by decide)) (.inl rfl) (by decide) 0 0 Nat.one_ne_zero] at hcount
  exact absurd hcount (by decide)

/-! ## What is reported -/

/-- What a rank records for the creation of files. -/
def recordedFiles (p : Params) (clock : Clock) (iteration rank : ℕ) : ℕ :=
  min (p.createPhase clock iteration rank false).2.itemsDone p.items

/-- Whether it logs that it has hit the stonewall. -/
def logsStonewall (p : Params) (clock : Clock) (iteration rank : ℕ) : Bool :=
  p.recordedFiles clock iteration rank < p.items

/-- The number of files that it has created. -/
def createdFiles (p : Params) (clock : Clock) (iteration rank : ℕ) : ℕ :=
  (p.createPhase clock iteration rank false).1.toFinset.card

theorem itemsBelow_nodup (rank : ℕ) (dirs : Bool) (root : Path) : (p.itemsBelow rank dirs root).Nodup := by
  refine List.nodup_flatMap.mpr ⟨fun d _ => itemsIn_nodup rank dirs root d, ?_⟩
  refine (nodup_heldDirs p).imp fun {d e} hne q hd he => ?_
  have heq := (dropLast_of_mem_itemsIn hd).symm.trans (dropLast_of_mem_itemsIn he)
  exact hne (dirPath_injective (List.append_cancel_left heq))

theorem length_itemsBelow (rank : ℕ) (dirs : Bool) (root : Path) :
    (p.itemsBelow rank dirs root).length = p.itemDirs * p.itemsPerDir := by
  rw [itemsBelow, List.length_flatMap, ← length_heldDirs]
  simp only [length_itemsIn, List.map_const', List.sum_replicate_nat]

/-- **What is recorded is the number of items of one directory.** -/
theorem recordedFiles_eq (hbranch : 0 < p.depth → 0 < p.branchFactor)
    (hquiet : p.stonewall = 0 ∨ ∀ k, clock k = false) (hloops : p.directoryLoops = 1)
    (iteration rank : ℕ) : p.recordedFiles clock iteration rank = min p.itemsPerDir p.items ∧
      p.createdFiles clock iteration rank = p.itemDirs * p.itemsPerDir := by
  obtain ⟨pr, hrun, hdone⟩ := createPhase_files hbranch hquiet hloops.ge iteration rank
  rw [recordedFiles, createdFiles, hrun, hdone, List.toFinset_card_of_nodup (itemsBelow_nodup ..),
    length_itemsBelow]
  exact ⟨rfl, rfl⟩

/-- There is one directory that holds items. -/
theorem itemDirs_eq_one_iff (hbranch : 0 < p.depth → 0 < p.branchFactor) :
    p.itemDirs = 1 ↔ p.depth = 0 ∨ p.leafOnly = true ∧ p.branchFactor = 1 := by
  rw [itemDirs]
  cases p.leafOnly with
  | true =>
    rw [if_pos rfl, Nat.pow_eq_one, or_comm]
    exact or_congr_right (and_iff_right rfl).symm
  | false =>
    rw [if_neg Bool.false_ne_true, treeSize]
    refine ⟨fun h => .inl ?_, fun h => ?_⟩
    · by_contra hdepth
      obtain ⟨k, hk⟩ := Nat.exists_eq_succ_of_ne_zero hdepth
      have hpos := hbranch (Nat.pos_of_ne_zero hdepth)
      rw [hk, treeSize] at h
      omega
    · rcases h with h | h
      · rw [h]
        rfl
      · cases h.1

/-- **When the report on created files is right**: if there is one directory that holds items, and it
holds all of them. -/
theorem reports_created_iff {a : Args} {top : Path} {now : ℕ} (hp : configure a top now = .ok p)
    (htimer : a.stonewall = 0 ∨ ∀ k, clock k = false) (hloops : p.directoryLoops = 1)
    (iteration rank : ℕ) :
    (p.recordedFiles clock iteration rank = p.createdFiles clock iteration rank ∧
      p.createdFiles clock iteration rank = p.items ∧ p.logsStonewall clock iteration rank = false) ↔
    (p.depth = 0 ∨ p.leafOnly = true ∧ p.branchFactor = 1) ∧ p.items = p.itemsPerDir := by
  have hconf := configure_configured hp
  have hquiet : p.stonewall = 0 ∨ ∀ k, clock k = false := htimer.imp_left hconf.stonewall.trans
  obtain ⟨hrecorded, hcreated⟩ := recordedFiles_eq hconf.branch hquiet hloops iteration rank
  have hpos := itemDirs_pos hconf.branch
  have hipd := hconf.itemsPerDir
  rw [logsStonewall, decide_eq_false_iff_not, hrecorded, hcreated, ← itemDirs_eq_one_iff hconf.branch]
  constructor
  · rintro ⟨hsame, hitems, -⟩
    have hle : p.itemDirs * p.itemsPerDir ≤ 1 * p.itemsPerDir := by
      rw [← hsame, Nat.one_mul]
      exact Nat.min_le_left _ _
    have hone : p.itemDirs = 1 := Nat.le_antisymm (Nat.le_of_mul_le_mul_right hle hipd) hpos
    rw [hone, Nat.one_mul] at hitems
    exact ⟨hone, hitems.symm⟩
  · rintro ⟨hone, hitems⟩
    rw [hone, hitems, Nat.one_mul, Nat.min_self]
    exact ⟨rfl, rfl, Nat.lt_irrefl _⟩

theorem reports_created_flat : ∃ p, configure { items := 3 } ["mnt"] 0 = .ok p ∧
    (p.recordedFiles (fun _ => false) 0 0 = p.createdFiles (fun _ => false) 0 0 ∧
      p.createdFiles (fun _ => false) 0 0 = p.items ∧ p.logsStonewall (fun _ => false) 0 0 = false) :=
  ⟨_, rfl, (reports_created_iff (a := { items := 3 }) rfl (.inl rfl) rfl 0 0).mpr ⟨.inl rfl, rfl⟩⟩

/-- **With two directories, half of the files are reported**, and a stonewall that there is not. -/
theorem reports_half : ∃ p, configure { depth := 1, itemsPerDir := 1 } ["mnt"] 0 = .ok p ∧
    p.recordedFiles (fun _ => false) 0 0 = 1 ∧ p.createdFiles (fun _ => false) 0 0 = 2 ∧
    p.items = 2 ∧ p.logsStonewall (fun _ => false) 0 0 = true := by
  refine ⟨_, rfl, (recordedFiles_eq (fun _ => Nat.one_pos) (.inl rfl) rfl 0 0).1,
    (recordedFiles_eq (fun _ => Nat.one_pos) (.inl rfl) rfl 0 0).2, rfl, ?_⟩
  rw [logsStonewall, (recordedFiles_eq (fun _ => Nat.one_pos) (.inl rfl) rfl 0 0).1]
  rfl

end Params

end Fstest.Mdtest
