import Fstest.Mdtest.Walk
import Mathlib.Data.List.Nodup
import Mathlib.Data.List.Perm.Subperm
import Mathlib.Data.Nat.ModEq

/-!
# Where mdtest puts its items, and where it looks for them

In the stat, read and remove phases the ranks come to the items that they made in the create
phase, up to their order and to which rank comes to which item (`placement_agrees`). The ranks
trade places between phases, which is a permutation of them (`shifted_perm`).
-/

namespace Fstest.Mdtest

open LevelOrder

/-! ## What `configure` establishes -/

theorem bind_ok {ε α β : Type} {x : Except ε α} {f : α → Except ε β} {b : β}
    (h : x >>= f = .ok b) : ∃ a, x = .ok a ∧ f a = .ok b := by
  cases x with
  | error e => cases h
  | ok a => exact ⟨a, rfl, h⟩

theorem powU32_ok {x y n : ℕ} (h : powU32 x y = .ok n) : n = x ^ y := by
  unfold powU32 at h
  split at h <;> cases h
  rfl

theorem mulU64_ok {x y n : ℕ} (h : mulU64 x y = .ok n) : n = x * y := by
  unfold mulU64 at h
  split at h <;> cases h
  rfl

theorem numDirsInTree_eq {a : Args} {n : ℕ}
    (hbranch : ¬ (a.branchFactor < 1 ∧ 0 < a.depth)) (h : numDirsInTree a = .ok n) :
    n = treeSize a.branchFactor 1 (a.depth.toNat + 1) := by
  unfold numDirsInTree at h
  split at h
  · cases h
    have hd : a.depth.toNat = 0 := by omega
    rw [hd]
    rfl
  split at h
  · cases h
    rename_i h1
    rw [h1, treeSize_one, Nat.one_mul]
  · obtain ⟨m, hm, h⟩ := bind_ok h
    cases h
    rw [powU32_ok hm, treeSize_eq_div (by omega)]

/-- What the checks of the options establish. -/
structure Accepted (a : Args) (readOnly createOnly barriers : Bool) : Prop where
  stonewall : 0 < a.stonewall → a.branchFactor ≤ 1 ∧ barriers = true
  stride : barriers = false → a.nstride = 0
  depth : 0 ≤ a.depth
  branch : 0 < a.depth → 1 ≤ a.branchFactor
  shared : 0 < a.items → 0 < a.itemsPerDir → a.uniqueDir = false
  multiple : 0 < a.items → 0 < a.itemsPerDir → a.itemsPerDir ∣ a.items
  readPhase : a.verifyRead = true → readOnly = true
  readBytes : a.verifyRead = true → 0 < a.readBytes
  written : createOnly = true → readOnly = true → a.readBytes ≤ a.writeBytes

/-- Where nothing is rejected, the first check is passed. -/
theorem of_guard {c : Prop} [Decidable c] {text : String} {next : Option String}
    (h : (if c then some text else next) = none) : ¬ c ∧ next = none := by
  split at h
  · cases h
  · rename_i hc
    exact ⟨hc, h⟩

theorem accepted_of_rejection {a : Args} {readOnly createOnly barriers : Bool}
    (h : rejection a readOnly createOnly barriers = none) :
    Accepted a readOnly createOnly barriers := by
  obtain ⟨hstonewall, h⟩ := of_guard h
  obtain ⟨hstride, h⟩ := of_guard h
  obtain ⟨hdepth, h⟩ := of_guard h
  obtain ⟨hbranch, h⟩ := of_guard h
  obtain ⟨hshared, h⟩ := of_guard h
  obtain ⟨hmultiple, h⟩ := of_guard h
  obtain ⟨hphase, h⟩ := of_guard h
  obtain ⟨hbytes, h⟩ := of_guard h
  obtain ⟨hwritten, -⟩ := of_guard h
  exact {
    stonewall := fun hpos => by
      rw [not_and, not_or, not_lt, Bool.not_eq_false] at hstonewall
      exact hstonewall hpos
    stride := fun hb => by
      by_contra hne
      exact hstride ⟨hb, hne⟩
    depth := not_lt.mp hdepth
    branch := fun hpos => by
      by_contra hlt
      exact hbranch ⟨not_le.mp hlt, hpos⟩
    shared := fun hitems hipd => by
      by_contra hu
      exact hshared ⟨hitems, hipd, (Bool.not_eq_false _).mp hu⟩
    multiple := fun hitems hipd => by
      by_contra hdvd
      exact hmultiple ⟨hitems, hipd, fun hmod => hdvd (Nat.dvd_of_mod_eq_zero hmod)⟩
    readPhase := fun hv => by
      by_contra hr
      exact hphase ⟨hv, (Bool.not_eq_true _).mp hr⟩
    readBytes := fun hv => by
      by_contra hpos
      exact hbytes ⟨hv, by omega⟩
    written := fun hc hr => by
      by_contra hlt
      exact hwritten ⟨hc, hr, by omega⟩ }

/-- Where `run` starts its threads, the options have passed the checks, and the tree has been
counted. -/
theorem configure_accepted {a : Args} {top : Path} {now : ℕ} {p : Params}
    (h : configure a top now = .ok p) : Accepted a p.readOnly p.createOnly p.barriers ∧
      numDirsInTree a = .ok p.numDirsInTree ∧
      itemCounts a p.numDirsInTree = .ok (p.items, p.itemsPerDir) ∧ p.itemsPerDir ≠ 0 := by
  rw [configure] at h
  generalize hrej : rejection a _ _ _ = r at h
  cases r with
  | some text => cases h
  | none =>
    obtain ⟨n, hdirs, h⟩ := bind_ok h
    obtain ⟨⟨items, ipd⟩, hcounts, h⟩ := bind_ok h
    simp only [] at h
    split at h
    · cases h
    · rename_i hipd
      cases h
      exact ⟨accepted_of_rejection hrej, hdirs, hcounts, hipd⟩

/-- The fields of the parameters that the walks read, from the options. -/
structure Configured (a : Args) (top : Path) (p : Params) : Prop where
  threads : p.threads = max a.threads.toNat 1
  branchFactor : p.branchFactor = a.branchFactor
  depth : p.depth = a.depth.toNat
  uniqueDir : p.uniqueDir = a.uniqueDir
  leafOnly : p.leafOnly = a.leafOnly
  stonewall : p.stonewall = a.stonewall
  top : p.top = top
  kinds : p.dirsOnly = true ∨ p.filesOnly = true
  branch : 0 < p.depth → 0 < p.branchFactor
  itemsPerDir : 0 < p.itemsPerDir
  numDirs : p.numDirsInTree = treeSize p.branchFactor 1 (p.depth + 1)
  counts : itemCounts a p.numDirsInTree = .ok (p.items, p.itemsPerDir)
  loops : p.directoryLoops =
    if 0 < a.items ∧ 0 < a.itemsPerDir ∧ !a.uniqueDir then a.items / a.itemsPerDir % 2 ^ 32 else 1

theorem configure_configured {a : Args} {top : Path} {now : ℕ} {p : Params}
    (h : configure a top now = .ok p) : Configured a top p := by
  obtain ⟨haccepted, hdirs, hcounts, hipd⟩ := configure_accepted h
  have hbranch : ¬ (a.branchFactor < 1 ∧ 0 < a.depth) := fun hboth =>
    absurd (haccepted.branch hboth.2) (by omega)
  rw [configure] at h
  generalize rejection a _ _ _ = r at h
  cases r with
  | some text => cases h
  | none =>
    obtain ⟨n, -, h⟩ := bind_ok h
    obtain ⟨⟨items, ipd⟩, -, h⟩ := bind_ok h
    simp only [] at h
    split at h
    · cases h
    · cases h
      exact {
        threads := rfl, branchFactor := rfl, depth := rfl, uniqueDir := rfl, leafOnly := rfl
        stonewall := rfl, top := rfl
        kinds := by
          change (a.dirsOnly || _) = true ∨ (a.filesOnly || _) = true
          cases a.dirsOnly <;> cases a.filesOnly <;> decide
        branch := fun hd => by
          have hdepth : 0 < a.depth.toNat := hd
          change 0 < a.branchFactor
          omega
        itemsPerDir := Nat.pos_of_ne_zero hipd
        numDirs := numDirsInTree_eq hbranch hdirs
        counts := hcounts
        loops := rfl }

/-- One of the two counts of items is given. -/
def OneCount (a : Args) : Prop :=
  0 < a.items ∧ a.itemsPerDir = 0 ∨ a.items = 0 ∧ 0 < a.itemsPerDir

/-- All items of a rank are shared out over the directories that hold items. -/
theorem itemCounts_eq {a : Args} {n items ipd : ℕ} (hone : OneCount a)
    (h : itemCounts a n = .ok (items, ipd)) :
    items = (if a.leafOnly then a.branchFactor ^ a.depth.toNat else n) * ipd := by
  unfold itemCounts at h
  rcases hone with ⟨hi, hipd⟩ | ⟨hi, hipd⟩
  · rw [if_neg (by omega)] at h
    obtain ⟨leafDirs, hleaf, h⟩ := bind_ok h
    obtain rfl := powU32_ok hleaf
    obtain ⟨m, hm, h⟩ := bind_ok h
    cases h
    rw [mulU64_ok hm, Nat.mul_comm]
  · rw [if_pos hipd, if_pos hi] at h
    cases hlo : a.leafOnly with
    | true =>
      rw [hlo, if_pos rfl] at h
      obtain ⟨leafDirs, hleaf, h⟩ := bind_ok h
      obtain ⟨m, hm, h⟩ := bind_ok h
      cases h
      rw [mulU64_ok hm, powU32_ok hleaf, Nat.mul_comm]
      rfl
    | false =>
      rw [hlo] at h
      obtain ⟨m, hm, h⟩ := bind_ok h
      cases h
      rw [mulU64_ok hm, Nat.mul_comm]
      rfl

theorem Configured.threads_le {a : Args} {top : Path} {p : Params} (h : Configured a top p) :
    p.threads ≤ 2 ^ 32 := by
  have hword := a.threads.toNat_lt
  rw [h.threads]
  omega

theorem tallied_of_oneCount {a : Args} {top : Path} {p : Params} (h : Configured a top p)
    (hone : OneCount a) : Params.Tallied p := by
  refine ⟨h.numDirs, ?_, ?_⟩
  · rw [itemCounts_eq hone h.counts, Params.itemDirs, h.leafOnly, h.numDirs, h.branchFactor, h.depth]
  · rw [h.loops]
    split
    · rcases hone with ⟨-, h0⟩ | ⟨h0, -⟩ <;> omega
    · rfl

namespace Params

variable {p : Params}

/-! ## The ranks -/

/-- In the phase 0 a rank accesses its own items. -/
theorem shifted_zero (hword : p.threads ≤ 2 ^ 32) {rank : ℕ} (hr : rank < p.threads) :
    p.shifted rank 0 = rank := by
  rw [shifted, Nat.zero_mul, Nat.add_zero, Nat.mod_eq_of_lt (hr.trans_le hword), Nat.mod_eq_of_lt hr]

theorem shifted_of_fits (hfits : p.StrideFits) {rank phase : ℕ} (hr : rank < p.threads)
    (hphase : phase ≤ 3) : p.shifted rank phase = (rank + phase * p.nstride) % p.threads := by
  rw [shifted, Nat.mod_eq_of_lt (hfits rank hr phase hphase)]

/-- Every phase shares out all ranks' items among the ranks. -/
theorem shifted_perm (hfits : p.StrideFits) {phase : ℕ} (hphase : phase ≤ 3) :
    ((List.range p.threads).map (p.shifted · phase)).Perm (List.range p.threads) := by
  have hinj : ∀ r ∈ List.range p.threads, ∀ s ∈ List.range p.threads,
      p.shifted r phase = p.shifted s phase → r = s := by
    intro r hr s hs h
    rw [List.mem_range] at hr hs
    rw [shifted_of_fits hfits hr hphase, shifted_of_fits hfits hs hphase] at h
    have hmod := Nat.ModEq.add_right_cancel' (phase * p.nstride) (show _ ≡ _ [MOD p.threads] from h)
    rwa [Nat.ModEq, Nat.mod_eq_of_lt hr, Nat.mod_eq_of_lt hs] at hmod
  have hsub : ((List.range p.threads).map (p.shifted · phase)) ⊆ List.range p.threads := by
    intro x hx
    obtain ⟨r, hr, rfl⟩ := List.mem_map.mp hx
    rw [List.mem_range] at hr ⊢
    exact Nat.mod_lt _ (by omega)
  exact ((List.Nodup.map_on hinj List.nodup_range).subperm hsub).perm_of_length_le (by simp)

/-- What all ranks come to in a phase depends on the phase by the order of the ranks only. -/
theorem flatMap_shifted_perm {γ : Type} (hfits : p.StrideFits) {phase : ℕ} (hphase : phase ≤ 3)
    (f : ℕ → List γ) :
    ((List.range p.threads).flatMap fun r => f (p.shifted r phase)).Perm
      ((List.range p.threads).flatMap f) := by
  have h := (shifted_perm hfits hphase).flatMap_right f
  rwa [List.flatMap_map] at h

/-! ## The items of a phase -/

/-- The items of target rank `target` below `root`, by number. -/
def itemsAt (p : Params) (dirs : Bool) (root : Path) (target : ℕ) : List Path :=
  (List.range p.items).map fun i =>
    root ++ p.itemPath "mdtest_tree" dirs ("mdtest." ++ toString target ++ ".") (i + p.leafOffset)

theorem root_eq (hu : p.uniqueDir = false) (iteration rank phase dirIter : ℕ) :
    p.root iteration rank phase dirIter = p.testdir iteration dirIter ++ ["mdtest_tree.0"] := by
  simp [root, treeRoot, hu]

theorem base_eq (hu : p.uniqueDir = false) (rank phase : ℕ) : p.base rank phase = "mdtest_tree" := by
  simp [base, baseTreeName, hu]

/-- A walk with a silent timer comes to the items of its target. -/
theorem createRemoveItems_perm (h : Tallied p) {clock : Clock} (rank : ℕ) (dirs create : Bool)
    (root : Path) {pr : Progress} (hpr : Limits clock 0 p.itemsPerDir pr) :
    (p.createRemoveItems clock rank dirs create root pr).1.Perm
      (p.itemsAt dirs root (p.shifted rank (if create then 0 else 3))) := by
  obtain ⟨pr', hrun, -⟩ := createRemoveItems_quiet rank dirs create root hpr
  rw [hrun]
  have hmap := (numbers_perm h).map fun n => root ++ p.itemPath "mdtest_tree" dirs
    (p.itemPrefix rank (if create then 0 else 3)) n
  rwa [List.map_map] at hmap

/-- With one directory loop a phase goes through its first working directory. -/
theorem flatMap_loops {γ : Type} (h : p.directoryLoops = 1) (f : ℕ → List γ) :
    (List.range p.directoryLoops).flatMap f = f 0 := by
  rw [h]
  exact List.flatMap_singleton ..

theorem createPhase_perm (h : Tallied p) (hu : p.uniqueDir = false) {clock : Clock}
    (hquiet : p.stonewall = 0 ∨ ∀ k, clock k = false) (iteration rank : ℕ) (dirs : Bool) :
    (p.createPhase clock iteration rank dirs).1.Perm
      (p.itemsAt dirs (p.testdir iteration 0 ++ ["mdtest_tree.0"]) (p.shifted rank 0)) := by
  have hrun : (p.createPhase clock iteration rank dirs).1 =
      (p.createRemoveItems clock rank dirs true (p.root iteration rank 0 0)
        { p.startProgress with stoneWallTimer := if dirs then 0 else p.stonewall }).1 := by
    rw [createPhase, h.loops]
    cases dirs <;> rfl
  rw [hrun, root_eq hu]
  refine createRemoveItems_perm h rank dirs true _ ⟨rfl, rfl, ?_⟩
  rcases hquiet with h0 | hno
  · left
    simp [h0]
  · exact .inr hno

theorem removePhase_perm (h : Tallied p) (hu : p.uniqueDir = false) (iteration rank : ℕ)
    (dirs : Bool) : (p.removePhase iteration rank dirs).Perm
      (p.itemsAt dirs (p.testdir iteration 0 ++ ["mdtest_tree.0"]) (p.shifted rank 3)) := by
  have hrun : p.removePhase iteration rank dirs =
      (p.createRemoveItems (fun _ => false) rank dirs false (p.root iteration rank 3 0)
        p.startProgress).1 := flatMap_loops h.loops _
  rw [hrun, root_eq hu]
  exact createRemoveItems_perm h rank dirs false _ ⟨rfl, rfl, .inl rfl⟩

theorem readAll_eq (h : Tallied p) (hu : p.uniqueDir = false) (iteration rank : ℕ) :
    p.readAll iteration rank =
      p.itemsAt false (p.testdir iteration 0 ++ ["mdtest_tree.0"]) (p.shifted rank 2) := by
  have hstop : p.stopItems = p.items := if_neg (not_not_intro h.loops)
  rw [readAll, flatMap_loops h.loops, root_eq hu, base_eq hu, readPhase, hstop]
  rfl

/-! ## The random order -/

theorem shuffleLoop_perm (i state : ℕ) (arr : Array ℕ) :
    (shuffleLoop i state arr).toList.Perm arr.toList := by
  induction i generalizing state arr with
  | zero => exact .refl _
  | succ i ih =>
    rw [shuffleLoop]
    split
    · exact .refl _
    · refine (ih _ _).trans ?_
      rw [Array.swapIfInBounds_def]
      split
      · split
        · exact Array.perm_iff_toList_perm.mp (Array.swap_perm ..)
        · exact .refl _
      · exact .refl _

/-- A shuffle is a permutation of the item numbers. -/
theorem shuffled_perm (n seed : ℕ) : (shuffled n seed).toList.Perm (List.range n) := by
  have h := shuffleLoop_perm n (seed ||| 1) (Array.range n)
  rwa [Array.toList_range] at h

/-- Reading an array place by place. -/
theorem map_getElem_range (arr : Array ℕ) :
    (List.range arr.size).map (fun i => arr[i]?.getD 0) = arr.toList := by
  apply List.ext_getElem
  · simp
  · intro i h1 h2
    have hi : i < arr.size := by simpa using h2
    simp [hi]

/-- The item numbers that `stat_phase` visits in one test directory. -/
def statNumbers (p : Params) (rank : ℕ) : List ℕ :=
  (List.range p.stopItems).map fun i =>
    (match p.randOrder rank with
      | some arr => arr[i]?.getD 0
      | none => i) + p.leafOffset

theorem statPhase_eq (rank : ℕ) (dirs : Bool) (root : Path) (base : String) :
    p.statPhase rank dirs root base = (p.statNumbers rank).map fun num =>
      root ++ p.itemPath base dirs (p.itemPrefix rank 1) num := by
  rw [statNumbers, List.map_map]
  rfl

theorem statNumbers_sequential (h : p.random = false) (rank : ℕ) :
    p.statNumbers rank = (List.range p.stopItems).map (· + p.leafOffset) := by
  simp only [statNumbers, randOrder, h, Bool.false_eq_true, if_false]

/-- With all items in one test directory, a random order visits each of them. -/
theorem statNumbers_perm (hstop : p.stopItems = p.items) (rank : ℕ) :
    (p.statNumbers rank).Perm ((List.range p.items).map (· + p.leafOffset)) := by
  cases hr : p.random with
  | false => rw [statNumbers_sequential hr, hstop]
  | true =>
    simp only [statNumbers, randOrder, hr, if_true, hstop]
    have hperm := shuffled_perm p.items ((p.randomSeed + rank) % 2 ^ 64)
    generalize shuffled p.items ((p.randomSeed + rank) % 2 ^ 64) = arr at hperm
    have hsize : arr.size = p.items := by
      have := hperm.length_eq
      simpa using this
    have horder : ((List.range p.items).map fun i => arr[i]?.getD 0).Perm (List.range p.items) := by
      rw [← hsize, map_getElem_range, hsize]
      exact hperm
    have hmap := horder.map (· + p.leafOffset)
    rwa [List.map_map] at hmap

theorem statAll_perm (h : Tallied p) (hu : p.uniqueDir = false) (iteration rank : ℕ)
    (dirs : Bool) : (p.statAll iteration rank dirs).Perm
      (p.itemsAt dirs (p.testdir iteration 0 ++ ["mdtest_tree.0"]) (p.shifted rank 1)) := by
  have hstop : p.stopItems = p.items := if_neg (not_not_intro h.loops)
  rw [statAll, flatMap_loops h.loops, root_eq hu, base_eq hu, statPhase_eq]
  have hmap := (statNumbers_perm hstop rank).map fun num => p.testdir iteration 0 ++ ["mdtest_tree.0"] ++
    p.itemPath "mdtest_tree" dirs (p.itemPrefix rank 1) num
  rwa [List.map_map] at hmap

/-! ## The claims about all ranks -/

/-- The name of an item determines its rank and its number. -/
theorem itemName_injective {dirs : Bool} {r s m n : ℕ}
    (h : itemName dirs ("mdtest." ++ toString r ++ ".") m =
      itemName dirs ("mdtest." ++ toString s ++ ".") n) : r = s ∧ m = n := by
  simp only [itemName, String.append_assoc] at h
  have hdot := append_left_cancel (append_left_cancel h)
  rw [← String.append_assoc, ← String.append_assoc] at hdot
  exact dotted_injective hdot

theorem itemsAt_nodup (p : Params) (dirs : Bool) (root : Path) :
    ((List.range p.threads).flatMap (p.itemsAt dirs root)).Nodup := by
  have hlast : ∀ r n : ℕ, (root ++ p.itemPath "mdtest_tree" dirs ("mdtest." ++ toString r ++ ".")
      n).getLast? = some (itemName dirs ("mdtest." ++ toString r ++ ".") n) := by
    intro r n
    simp [itemPath]
  have hinj : ∀ {r s m n : ℕ}, root ++ p.itemPath "mdtest_tree" dirs ("mdtest." ++ toString r ++ ".") m =
      root ++ p.itemPath "mdtest_tree" dirs ("mdtest." ++ toString s ++ ".") n → r = s ∧ m = n := by
    intro r s m n h
    have hname := congrArg List.getLast? h
    rw [hlast, hlast, Option.some.injEq] at hname
    exact itemName_injective hname
  rw [List.nodup_flatMap]
  constructor
  · intro r _
    refine List.Nodup.map_on (fun i _ j _ hij => ?_) List.nodup_range
    have := (hinj hij).2
    omega
  · refine List.nodup_range.imp fun {r s} hrs => ?_
    intro x hx hy
    obtain ⟨i, -, rfl⟩ := List.mem_map.mp hx
    obtain ⟨j, -, hj⟩ := List.mem_map.mp hy
    exact hrs (hinj hj).1.symm

/-- The items of all ranks, where each rank comes to those of its target in the phase. -/
theorem allRanks_perm (hfits : p.StrideFits) {f : ℕ → List Path} {dirs : Bool} {root : Path} {phase : ℕ}
    (hphase : phase ≤ 3) (h : ∀ rank, (f rank).Perm (p.itemsAt dirs root (p.shifted rank phase))) :
    ((List.range p.threads).flatMap f).Perm
      ((List.range p.threads).flatMap (p.itemsAt dirs root)) :=
  (List.Perm.flatMap_left _ fun rank _ => h rank).trans (flatMap_shifted_perm hfits hphase _)

end Params

/-- What the ranks create in an iteration, each with its own clock. -/
def createdItems (p : Params) (clock : ℕ → Clock) (iteration : ℕ) (dirs : Bool) : List Path :=
  (List.range p.threads).flatMap fun rank => (p.createPhase (clock rank) iteration rank dirs).1

/-- **Lookup and placement agree.** Without a working directory for each rank, with one count of
items given, a stride that fits and a stonewall timer that is off or stays silent, the ranks together
stat, read and remove the items that they created, each once. -/
theorem placement_agrees {a : Args} {top : Path} {now : ℕ} {p : Params}
    (hp : configure a top now = .ok p) (hunique : a.uniqueDir = false) (hone : OneCount a)
    (hfits : p.StrideFits) (clock : ℕ → Clock) (htimer : a.stonewall = 0 ∨ ∀ rank k, clock rank k = false)
    (iteration : ℕ) (dirs : Bool) :
    (createdItems p clock iteration dirs).Nodup ∧
    ((List.range p.threads).flatMap fun rank => p.statAll iteration rank dirs).Perm
      (createdItems p clock iteration dirs) ∧
    (dirs = false → ((List.range p.threads).flatMap fun rank => p.readAll iteration rank).Perm
      (createdItems p clock iteration dirs)) ∧
    ((List.range p.threads).flatMap fun rank => p.removePhase iteration rank dirs).Perm
      (createdItems p clock iteration dirs) := by
  have hconf := configure_configured hp
  have htally := tallied_of_oneCount hconf hone
  have hu : p.uniqueDir = false := hconf.uniqueDir.trans hunique
  have hquiet : ∀ rank, p.stonewall = 0 ∨ ∀ k, clock rank k = false := fun rank =>
    htimer.imp (fun h => hconf.stonewall.trans h) fun h => h rank
  have hcreated := Params.allRanks_perm hfits (by decide) fun rank =>
    Params.createPhase_perm htally hu (hquiet rank) iteration rank dirs
  refine ⟨hcreated.nodup_iff.mpr (Params.itemsAt_nodup ..), ?_, ?_, ?_⟩
  · exact (Params.allRanks_perm hfits (by decide) fun rank =>
      Params.statAll_perm htally hu iteration rank dirs).trans hcreated.symm
  · rintro rfl
    exact (Params.allRanks_perm hfits (by decide) fun rank => .of_eq
      (Params.readAll_eq htally hu iteration rank)).trans hcreated.symm
  · exact (Params.allRanks_perm hfits (by decide) fun rank =>
      Params.removePhase_perm htally hu iteration rank dirs).trans hcreated.symm

/-- Three ranks over a binary tree of depth 2 that trade places between phases. -/
theorem placement_agrees_three : ∃ p,
    configure { threads := 3, branchFactor := 2, depth := 2, items := 14, nstride := 1 } ["mnt"] 0 =
      .ok p ∧
    (createdItems p (fun _ _ => false) 0 false).Nodup ∧
    ((List.range p.threads).flatMap fun rank => p.statAll 0 rank false).Perm
      (createdItems p (fun _ _ => false) 0 false) ∧
    (false = false → ((List.range p.threads).flatMap fun rank => p.readAll 0 rank).Perm
      (createdItems p (fun _ _ => false) 0 false)) ∧
    ((List.range p.threads).flatMap fun rank => p.removePhase 0 rank false).Perm
      (createdItems p (fun _ _ => false) 0 false) :=
  ⟨_, rfl, placement_agrees
    (a := { threads := 3, branchFactor := 2, depth := 2, items := 14, nstride := 1 }) rfl rfl
    (.inl ⟨by decide, rfl⟩) (by decide) (fun _ _ => false) (.inl rfl) 0 false⟩

/-- A timer that has expired at the first look ends the file creation after one of two items. -/
theorem stonewall_truncates : ∃ p,
    configure { items := 2, stonewall := 1 } ["mnt"] 0 = .ok p ∧
    ¬ ((List.range p.threads).flatMap fun rank => p.statAll 0 rank false).Perm
      (createdItems p (fun _ _ => true) 0 false) := by
  refine ⟨_, rfl, fun h => ?_⟩
  have hlen := h.length_eq
  simp only [createdItems] at hlen
  revert hlen
  decide

end Fstest.Mdtest
