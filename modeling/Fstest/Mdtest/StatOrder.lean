import Fstest.Mdtest.Loops

/-!
# The random order of the stat phase

`shuffled` permutes all items of a rank, and `stat_phase` goes through the first `stop_items` places
of the permutation. With one directory loop that is all of them. With more loops it is as many as
one directory holds, so the numbers in these places are any of the items' (`not_sameNumbers`).
-/

namespace Fstest.Mdtest

open LevelOrder

namespace Params

variable {p : Params}

/-! ## The shuffle -/

/-- One swap, with the next state of the generator. -/
theorem shuffleLoop_succ {i state next : ℕ} (arr : Array ℕ) (hi : i ≠ 0)
    (hnext : (state * 6364136223846793005 + 1442695040888963407) % 2 ^ 64 = next) :
    shuffleLoop (i + 1) state arr =
      shuffleLoop i next (arr.swapIfInBounds (next / 2 ^ 33 % (i + 1)) i) := by
  rw [shuffleLoop, if_neg hi, hnext]

/-- The swaps from place `i` down leave the places from `i` on. -/
theorem shuffleLoop_untouched (i state : ℕ) (arr : Array ℕ) {j : ℕ} (hj : i ≤ j) :
    (shuffleLoop i state arr)[j]? = arr[j]? := by
  induction i generalizing state arr with
  | zero => rfl
  | succ i ih =>
    by_cases hi : i = 0
    · rw [shuffleLoop, if_pos hi]
    · generalize hnext : (state * 6364136223846793005 + 1442695040888963407) % 2 ^ 64 = next
      rw [shuffleLoop_succ arr hi hnext, ih _ _ (by omega)]
      have hk : next / 2 ^ 33 % (i + 1) < i + 1 := Nat.mod_lt _ (Nat.succ_pos i)
      generalize next / 2 ^ 33 % (i + 1) = k at hk ⊢
      rw [Array.swapIfInBounds_def]
      split
      · split
        · rw [Array.getElem?_swap, if_neg (by omega), if_neg (by omega)]
        · rfl
      · rfl

/-- **Where the generator gives 0 first, item 0 ends up in the last place.** -/
theorem shuffled_last (m : ℕ) {seed : ℕ} (hodd : seed ||| 1 = seed)
    (hzero : (seed * 6364136223846793005 + 1442695040888963407) % 2 ^ 64 = 0) :
    (shuffled (m + 2) seed)[m + 1]? = some 0 := by
  rw [shuffled, hodd, shuffleLoop_succ _ (Nat.succ_ne_zero m) hzero, Nat.zero_div, Nat.zero_mod,
    shuffleLoop_untouched (m + 1) 0 _ (Nat.le_refl _)]
  clear hzero
  rw [Array.getElem?_eq_getElem (by simp), Array.getElem_swapIfInBounds]
  simp

/-! ## What is created -/

/-- The numbers of the items that a walk comes to. -/
theorem mem_itemsOf_heldDirs {num : ℕ} : num ∈ itemsOf p.itemsPerDir 0 p.heldDirs ↔
    p.firstDir * p.itemsPerDir ≤ num ∧ num < (p.firstDir + p.itemDirs) * p.itemsPerDir := by
  rw [heldDirs, (itemsOf_perm _ _ (forest_perm p)).mem_iff, itemsOf_range', List.mem_range'_1,
    Nat.add_mul]

/-- With one directory loop, the created items are those with a number of a directory that holds
items. -/
theorem mem_createdItems (hword : p.threads ≤ 2 ^ 32) (hbranch : 0 < p.depth → 0 < p.branchFactor)
    (hloops : p.directoryLoops = 1) (hu : p.uniqueDir = false) {clock : ℕ → Clock}
    (hquiet : ∀ rank, p.stonewall = 0 ∨ ∀ k, clock rank k = false) {iteration : ℕ} {dirs : Bool}
    {q : Path} :
    q ∈ createdItems p clock iteration dirs ↔ ∃ target < p.threads, ∃ num,
      p.firstDir * p.itemsPerDir ≤ num ∧ num < (p.firstDir + p.itemDirs) * p.itemsPerDir ∧
      q = p.testdir iteration 0 ++ ["mdtest_tree.0"] ++
        p.itemPath "mdtest_tree" dirs ("mdtest." ++ toString target ++ ".") num := by
  have hphase : ∀ rank, (p.createPhase (clock rank) iteration rank dirs).1 =
      (itemsOf p.itemsPerDir 0 p.heldDirs).map fun n => p.testdir iteration 0 ++ ["mdtest_tree.0"] ++
        p.itemPath "mdtest_tree" dirs (p.itemPrefix rank 0) n := by
    intro rank
    rw [map_itemPath]
    cases dirs with
    | true =>
      rw [createPhase_dirs hbranch (hquiet rank), flatMap_loops hloops, root_eq hu]
      rfl
    | false =>
      obtain ⟨pr, hrun, -⟩ := createPhase_files hbranch (hquiet rank) hloops.ge iteration rank
      rw [hrun, root_eq hu]
      rfl
  have hshift : ∀ rank < p.threads, p.itemPrefix rank 0 = "mdtest." ++ toString rank ++ "." := by
    intro rank hrank
    rw [itemPrefix, shifted_zero hword hrank]
  rw [createdItems, List.mem_flatMap]
  constructor
  · rintro ⟨rank, hrank, hq⟩
    rw [hphase, hshift rank (List.mem_range.mp hrank)] at hq
    obtain ⟨num, hnum, rfl⟩ := List.mem_map.mp hq
    obtain ⟨hge, hlt⟩ := mem_itemsOf_heldDirs.mp hnum
    exact ⟨rank, List.mem_range.mp hrank, num, hge, hlt, rfl⟩
  · rintro ⟨rank, hrank, num, hge, hlt, rfl⟩
    refine ⟨rank, List.mem_range.mpr hrank, ?_⟩
    rw [hphase, hshift rank hrank]
    exact List.mem_map_of_mem (mem_itemsOf_heldDirs.mpr ⟨hge, hlt⟩)

/-! ## What is visited -/

/-- Two items at one place below a root have the same number. -/
theorem num_eq_of_itemPath {root : Path} {dirs : Bool} {t u m n : ℕ}
    (h : root ++ p.itemPath "mdtest_tree" dirs ("mdtest." ++ toString t ++ ".") m =
      root ++ p.itemPath "mdtest_tree" dirs ("mdtest." ++ toString u ++ ".") n) : m = n := by
  have hlast := congrArg List.getLast? (List.append_cancel_left h)
  simp only [itemPath, List.getLast?_concat, Option.some.injEq] at hlast
  exact (itemName_injective hlast).2

/-- **With one directory loop, what is visited has been created if there are directories for all
items.** -/
theorem visited_created_iff (hword : p.threads ≤ 2 ^ 32) (hbranch : 0 < p.depth → 0 < p.branchFactor)
    (hdirs : p.numDirsInTree = treeSize p.branchFactor 1 (p.depth + 1))
    (hthreads : 0 < p.threads) (hitems : 0 < p.items)
    (hloops : p.directoryLoops = 1) (hu : p.uniqueDir = false) (iteration rank : ℕ) (dirs : Bool) :
    (∀ path ∈ p.statPhase rank dirs (p.root iteration rank 1 0) (p.base rank 1),
      path ∈ createdItems p (fun _ _ => false) iteration dirs) ↔
    p.items ≤ p.itemDirs * p.itemsPerDir := by
  have hstop : p.stopItems = p.items := if_neg (not_not_intro hloops)
  have hvisit : ∀ num, num ∈ p.statNumbers rank ↔ ∃ i < p.items, i + p.leafOffset = num := by
    intro num
    rw [(statNumbers_perm hstop rank).mem_iff, List.mem_map]
    simp only [List.mem_range]
  have hoffset := leafOffset_eq hdirs
  rw [statPhase_eq, root_eq hu, base_eq hu]
  constructor
  · intro hall
    have hlast := hall _ (List.mem_map_of_mem ((hvisit _).mpr ⟨p.items - 1, by omega, rfl⟩))
    obtain ⟨target, -, num, -, hnum, heq⟩ :=
      (mem_createdItems hword hbranch hloops hu fun _ => .inr fun _ => rfl).mp hlast
    have hsame := num_eq_of_itemPath heq
    rw [Nat.add_mul] at hnum
    omega
  · intro hle path hpath
    obtain ⟨num, hnum, rfl⟩ := List.mem_map.mp hpath
    obtain ⟨i, hi, rfl⟩ := (hvisit num).mp hnum
    refine (mem_createdItems hword hbranch hloops hu fun _ => .inr fun _ => rfl).mpr
      ⟨p.shifted rank 1, Nat.mod_lt _ hthreads, i + p.leafOffset, by omega, ?_, rfl⟩
    rw [Nat.add_mul]
    omega

/-- **With more directory loops, the last place is not visited**, whatever the number in it. -/
theorem not_sameNumbers {q : Params} (hrandom : p.random = true) (hloops : p.directoryLoops ≠ 1)
    (hitems : 2 * p.itemsPerDir ≤ p.items) (hipd : 0 < p.itemsPerDir)
    (hseed : p.randomSeed = 11066951453180645397) (hq : q.random = false)
    (hstop : q.stopItems = p.stopItems) (hoffset : q.leafOffset = p.leafOffset) :
    ¬ (p.statNumbers 0).Perm (q.statNumbers 0) := by
  intro hperm
  have hstops : p.stopItems = p.itemsPerDir := if_pos hloops
  have hzero : p.leafOffset ∈ q.statNumbers 0 := by
    rw [statNumbers_sequential hq, hstop, hstops, hoffset]
    exact List.mem_map.mpr ⟨0, List.mem_range.mpr hipd, Nat.zero_add _⟩
  obtain ⟨m, hm⟩ : ∃ m, p.items = m + 2 := ⟨p.items - 2, by omega⟩
  have hlast : (shuffled p.items 11066951453180645397)[p.items - 1]? = some 0 := by
    rw [hm]
    exact shuffled_last m (by decide) (by decide)
  have hshuffled := shuffled_perm p.items 11066951453180645397
  have hvisited := hperm.mem_iff.mpr hzero
  simp only [statNumbers, randOrder, hrandom, if_true, hseed, hstops, List.mem_map, List.mem_range] at hvisited
  obtain ⟨i, hi, hplace⟩ := hvisited
  rw [Nat.add_zero, Nat.mod_eq_of_lt (by decide)] at hplace
  generalize shuffled p.items 11066951453180645397 = arr at hlast hshuffled hplace
  have hsize : arr.size = p.items := by simpa using hshuffled.length_eq
  have hnodup : arr.toList.Nodup := hshuffled.nodup_iff.mpr List.nodup_range
  have hfirst : arr[i]? = some 0 := by
    rw [Array.getElem?_eq_getElem (by omega)] at hplace ⊢
    simpa using hplace
  -- No number is in two places.
  rw [← Array.getElem?_toList] at hfirst hlast
  have hsame := (List.getElem?_inj (by rw [Array.length_toList]; omega) hnodup).mp (hfirst.trans hlast.symm)
  omega

end Params

open Params

/-- The parameters with another order of the stat phase. -/
def Params.withOrder (p : Params) (random : Bool) (seed : ℕ) : Params :=
  { p with random := random, randomSeed := seed }

/-- In a random order without a seed the clock is the seed. -/
theorem configure_random {a : Args} {top : Path} {now : ℕ} {p : Params}
    (h : configure a top now = .ok p) (random : Bool) (seed now' : ℕ) :
    configure { a with random := random, randomSeed := seed } top now' = .ok
      (p.withOrder random (if random ∧ seed = 0 then now' else seed)) := by
  rw [configure] at h ⊢
  have hrej : ∀ r c b, rejection { a with random := random, randomSeed := seed } r c b =
    rejection a r c b := fun _ _ _ => rfl
  have hdirs : numDirsInTree { a with random := random, randomSeed := seed } = numDirsInTree a := rfl
  have hcounts : ∀ n, itemCounts { a with random := random, randomSeed := seed } n =
    itemCounts a n := fun _ => rfl
  rw [hrej, hdirs]
  generalize hr : rejection a _ _ _ = r at h ⊢
  cases r with
  | some text => cases h
  | none =>
    obtain ⟨n, hn, h⟩ := bind_ok h
    obtain ⟨⟨items, ipd⟩, hc, h⟩ := bind_ok h
    simp only [] at h
    simp only [hn, bind, Except.bind, hcounts, hc]
    split at h
    · cases h
    · rename_i hipd
      cases h
      rw [if_neg hipd]
      rfl

/-- Both counts of items, if they are given, are those of the parameters. -/
theorem counts_of_both {a : Args} {top : Path} {p : Params} (h : Configured a top p)
    (hitems : 0 < a.items) (hipd : 0 < a.itemsPerDir) :
    p.items = a.items ∧ p.itemsPerDir = a.itemsPerDir := by
  have hcounts := h.counts
  rw [itemCounts, if_pos hipd, if_neg (by omega)] at hcounts
  simp only [Except.ok.injEq, Prod.mk.injEq] at hcounts
  exact ⟨hcounts.1.symm, hcounts.2.symm⟩

/-- Options without any count of items are rejected. -/
theorem oneCount_of_zero {a : Args} {top : Path} {p : Params} (h : Configured a top p)
    (hzero : a.items = 0 ∨ a.itemsPerDir = 0) : OneCount a := by
  by_contra hnone
  have hboth : a.items = 0 ∧ a.itemsPerDir = 0 := by
    rw [OneCount] at hnone
    omega
  have hcounts := h.counts
  rw [itemCounts, if_neg (by omega)] at hcounts
  obtain ⟨leafDirs, -, hcounts⟩ := bind_ok hcounts
  obtain ⟨items, -, hcounts⟩ := bind_ok hcounts
  simp only [hboth.1, Nat.zero_div, ite_self, pure, Except.pure, Except.ok.injEq, Prod.mk.injEq] at hcounts
  exact h.itemsPerDir.ne hcounts.2

/-- Every rank has items. -/
theorem items_pos {a : Args} {top : Path} {p : Params} (h : Configured a top p) : 0 < p.items := by
  by_cases hboth : a.items = 0 ∨ a.itemsPerDir = 0
  · rw [(tallied_of_oneCount h (oneCount_of_zero h hboth)).items]
    exact Nat.mul_pos (itemDirs_pos h.branch) h.itemsPerDir
  · rw [not_or] at hboth
    rw [(counts_of_both h (Nat.pos_of_ne_zero hboth.1) (Nat.pos_of_ne_zero hboth.2)).1]
    exact Nat.pos_of_ne_zero hboth.1

/-- The directories are counted in 32 bits. -/
theorem numDirsInTree_lt {a : Args} {n : ℕ} (h : numDirsInTree a = .ok n) (hdepth : a.depth < 2 ^ 31) :
    n < 2 ^ 32 := by
  unfold numDirsInTree at h
  split at h
  · cases h
    omega
  split at h
  · cases h
    omega
  · obtain ⟨m, hm, h⟩ := bind_ok h
    cases h
    rw [powU32] at hm
    split at hm
    · cases hm
      have := Nat.div_le_self (a.branchFactor ^ (a.depth.toNat + 1) - 1) (a.branchFactor - 1)
      omega
    · cases hm

theorem itemDirs_le {a : Args} {top : Path} {p : Params} (h : Configured a top p) :
    p.itemDirs ≤ p.numDirsInTree := by
  rw [h.numDirs, Params.itemDirs]
  split
  · rw [treeSize_succ, Nat.one_mul]
    exact Nat.le_add_left _ _
  · exact Nat.le_refl _

/-- **The stat phase covers the same items in a random order**: with every seed, each rank visits
the numbers in each test directory that it visits in sequence, and they have been created there. -/
def RandomOrderCovers (a : Args) (top : Path) : Prop :=
  ∀ seed < 2 ^ 64, ∀ now p q,
    configure { a with random := true, randomSeed := seed } top now = .ok p →
    configure { a with random := false, randomSeed := seed } top now = .ok q →
    ∀ iteration, ∀ rank < p.threads, ∀ dirs, ∀ dirIter < p.directoryLoops,
      (p.statNumbers rank).Perm (q.statNumbers rank) ∧
      ∀ path ∈ p.statPhase rank dirs (p.root iteration rank 1 dirIter) (p.base rank 1),
        path ∈ createdItems p (fun _ _ => false) iteration dirs

section

variable {a : Args} {top : Path} {p : Params}

/-- With both counts of items, the test directories are counted in 32 bits. -/
theorem loops_of_both (h : Configured a top p) (hunique : a.uniqueDir = false) (hitems : 0 < a.items)
    (hipd : 0 < a.itemsPerDir) : p.directoryLoops = a.items / a.itemsPerDir % 2 ^ 32 := by
  rw [h.loops, if_pos ⟨hitems, hipd, by rw [hunique]; rfl⟩]

/-- One test directory with room for all items. -/
theorem room_of_oneDir (h : Configured a top p) (hunique : a.uniqueDir = false)
    (hcond : a.items = 0 ∨ a.itemsPerDir = 0 ∨ a.items = a.itemsPerDir ∨ 2 ^ 32 ∣ a.items / a.itemsPerDir)
    (hloops : 0 < p.directoryLoops) : p.directoryLoops = 1 ∧ p.items ≤ p.itemDirs * p.itemsPerDir := by
  have hpos := itemDirs_pos h.branch
  by_cases hboth : a.items = 0 ∨ a.itemsPerDir = 0
  · have htally := tallied_of_oneCount h (oneCount_of_zero h hboth)
    rw [htally.items]
    exact ⟨htally.loops, Nat.le_refl _⟩
  · rw [not_or] at hboth
    have hitems := Nat.pos_of_ne_zero hboth.1
    have hipd := Nat.pos_of_ne_zero hboth.2
    obtain ⟨hi, hd⟩ := counts_of_both h hitems hipd
    have heq := loops_of_both h hunique hitems hipd
    rcases hcond with hcond | hcond | hcond | hcond
    · exact absurd hcond hboth.1
    · exact absurd hcond hboth.2
    · rw [hcond, Nat.div_self hipd] at heq
      rw [hi, hd, hcond]
      exact ⟨heq, Nat.le_mul_of_pos_left _ hpos⟩
    · rw [Nat.mod_eq_zero_of_dvd hcond] at heq
      omega

/-- Two test directories or more, or as many that their number wraps around to one. -/
theorem many_of_both (h : Configured a top p) (hmultiple : a.itemsPerDir ∣ a.items)
    (hunique : a.uniqueDir = false) (hitems : 0 < a.items) (hipd : 0 < a.itemsPerDir)
    (hne : a.items ≠ a.itemsPerDir) (hdvd : ¬ 2 ^ 32 ∣ a.items / a.itemsPerDir) :
    0 < p.directoryLoops ∧ 2 * p.itemsPerDir ≤ p.items ∧
      (p.directoryLoops = 1 → 2 ^ 32 * p.itemsPerDir ≤ p.items) := by
  obtain ⟨hi, hd⟩ := counts_of_both h hitems hipd
  obtain ⟨k, hk⟩ := hmultiple
  have hloops := loops_of_both h hunique hitems hipd
  rw [hk, Nat.mul_div_cancel_left _ hipd] at hloops hdvd
  have hk1 : k ≠ 1 := fun h => hne (by rw [hk, h, Nat.mul_one])
  rw [hi, hd, hk, Nat.mul_comm a.itemsPerDir]
  exact ⟨by omega, Nat.mul_le_mul_right _ (by omega), fun hone => Nat.mul_le_mul_right _ (by omega)⟩

end

/-- **When a random order covers the items**: if there is one test directory, and one count of items
or as many items as one directory holds. -/
theorem randomOrderCovers_iff {a : Args} {top : Path} {now : ℕ} {p : Params}
    (hp : configure a top now = .ok p) (hunique : a.uniqueDir = false) (hdepth : a.depth < 2 ^ 31) :
    RandomOrderCovers a top ↔
      a.items = 0 ∨ a.itemsPerDir = 0 ∨ a.items = a.itemsPerDir ∨ 2 ^ 32 ∣ a.items / a.itemsPerDir := by
  obtain ⟨haccepted, hdirs, -, -⟩ := configure_accepted hp
  have hconf := configure_configured hp
  have hu : p.uniqueDir = false := hconf.uniqueDir.trans hunique
  have hrun := fun random seed now' => configure_random hp random seed now'
  constructor
  · intro hcovers
    by_contra hcond
    rw [not_or, not_or, not_or] at hcond
    obtain ⟨hitems, hipd, hne, hdvd⟩ := hcond
    have hitems := Nat.pos_of_ne_zero hitems
    have hipd := Nat.pos_of_ne_zero hipd
    obtain ⟨hloops, hmany, hwrap⟩ :=
      many_of_both hconf (haccepted.multiple hitems hipd) hunique hitems hipd hne hdvd
    have hthreads : 0 < p.threads := by rw [hconf.threads]; omega
    have hword : p.threads ≤ 2 ^ 32 := hconf.threads_le
    have hseed : (if true ∧ 11066951453180645397 = 0 then now else 11066951453180645397) =
        11066951453180645397 := rfl
    obtain ⟨hsame, hcreated⟩ := hcovers 11066951453180645397 (by decide) now _ _ (hrun true _ now)
      (hrun false _ now) 0 0 hthreads true 0 hloops
    by_cases hone : p.directoryLoops = 1
    · -- The number of loops has wrapped around.
      have hpos := items_pos hconf
      have hle := (visited_created_iff (p := p.withOrder true _) hword hconf.branch hconf.numDirs hthreads
        hpos hone hu 0 0 true).mp hcreated
      have hk : 2 ^ 32 ≤ p.itemDirs := Nat.le_of_mul_le_mul_right ((hwrap hone).trans hle) hconf.itemsPerDir
      have hbound := (itemDirs_le hconf).trans_lt (numDirsInTree_lt hdirs hdepth)
      omega
    · exact not_sameNumbers (p := p.withOrder true _) (q := p.withOrder false _) rfl hone hmany
        hconf.itemsPerDir hseed rfl rfl rfl hsame
  · intro hcond seed _ now' q r hq hr iteration rank _ dirs dirIter hdirIter
    obtain rfl := Except.ok.inj ((hrun true seed now').symm.trans hq)
    obtain rfl := Except.ok.inj ((hrun false seed now').symm.trans hr)
    have hdirIter : dirIter < p.directoryLoops := hdirIter
    obtain ⟨hone, hroom⟩ := room_of_oneDir hconf hunique hcond (Nat.zero_lt_of_lt hdirIter)
    obtain rfl : dirIter = 0 := by omega
    have hstop : p.stopItems = p.items := if_neg (not_not_intro hone)
    refine ⟨(statNumbers_perm (p := p.withOrder true _) hstop rank).trans
      (statNumbers_perm (p := p.withOrder false _) hstop rank).symm, ?_⟩
    have hthreads : 0 < p.threads := by rw [hconf.threads]; omega
    have hword : p.threads ≤ 2 ^ 32 := hconf.threads_le
    have hpos := items_pos hconf
    exact (visited_created_iff (p := p.withOrder true _) hword hconf.branch hconf.numDirs hthreads hpos
      hone hu iteration rank dirs).mpr hroom

theorem randomOrderCovers_tree : RandomOrderCovers { branchFactor := 2, depth := 2, items := 14 } ["mnt"] :=
  have hp : configure { branchFactor := 2, depth := 2, items := 14 } ["mnt"] 0 = .ok _ := rfl
  (randomOrderCovers_iff hp rfl (by decide)).mpr (.inr (.inl rfl))

/-- **With two test directories of one item, item 0 is not visited** under a seed that moves it to the
second place. -/
theorem random_order_misses_item : ∃ p,
    configure { items := 2, itemsPerDir := 1, random := true, randomSeed := 11066951453180645397 }
      ["mnt"] 0 = .ok p ∧ p.directoryLoops = 2 ∧ p.statNumbers 0 = [1] ∧
    (p.withOrder false p.randomSeed).statNumbers 0 = [0] ∧
    ¬ RandomOrderCovers { items := 2, itemsPerDir := 1 } ["mnt"] := by
  refine ⟨_, rfl, rfl, by decide, by decide, fun hcovers => ?_⟩
  obtain ⟨hsame, -⟩ := hcovers 11066951453180645397 (by decide) 0 _ _ rfl rfl 0 0 Nat.one_pos true 0
    Nat.two_pos
  revert hsame
  decide

end Fstest.Mdtest
