import Fstest.Mdtest.ReadPhase
import Fstest.Mdtest.StatOrder

/-!
# Verification across invocations of mdtest

An invocation creates files and leaves them, and a later one verifies them. What is in a file follows
from the seed and from its name, which holds the rank and the number of the item; a shorter pattern is
the start of a longer one. So the files verify if both invocations have one seed. The seed 0 is replaced
by the clock where `--random` is given, and then they have not (`verifiesLater_iff`).
-/

namespace Fstest.Mdtest

/-- The files, by their paths. -/
abbrev Files := Path → Option Bytes

/-- A file is opened without truncation, and written from its start. -/
def putFile (files : Files) (w : Path × Bytes) : Files :=
  Function.update files w.1 (some (w.2 ++ ((files w.1).getD []).drop w.2.length))

namespace Params

variable {p : Params}

/-- What `item_range` writes into a file: the pattern of the rank and the number that it has put into
the name. -/
def Filled (p : Params) (w : Path × Bytes) : Prop :=
  ∃ target num : ℕ,
    w.1.getLast? = some (itemName false ("mdtest." ++ toString target ++ ".") num) ∧
    w.2 = contentPattern p.randomSeed target num p.writeBytes

/-- The writes of the create phases of all iterations, in any order. -/
structure Creates (p : Params) (clock : ℕ → ℕ → Clock) (writes : List (Path × Bytes)) : Prop where
  paths : (writes.map Prod.fst).Perm (if p.filesOnly && p.createOnly then
    (List.range p.iterations).flatMap fun iteration => createdItems p (clock iteration) iteration false
    else [])
  filled : ∀ w ∈ writes, p.Filled w

/-- **A name determines what is written.** -/
theorem Filled.unique {w w' : Path × Bytes} (h : p.Filled w) (h' : p.Filled w') (heq : w.1 = w'.1) :
    w.2 = w'.2 := by
  obtain ⟨t, n, hname, hbytes⟩ := h
  obtain ⟨t', n', hname', hbytes'⟩ := h'
  rw [heq, hname', Option.some.injEq] at hname
  obtain ⟨rfl, rfl⟩ := itemName_injective hname
  rw [hbytes, hbytes']

/-- Every file gets something. -/
theorem exists_filled (p : Params) (paths : List Path) (h : ∀ q ∈ paths, ∃ target num : ℕ,
    q.getLast? = some (itemName false ("mdtest." ++ toString target ++ ".") num)) :
    ∃ writes : List (Path × Bytes), writes.map Prod.fst = paths ∧ ∀ w ∈ writes, p.Filled w := by
  induction paths with
  | nil => exact ⟨[], rfl, fun w hw => by cases hw⟩
  | cons q paths ih =>
    obtain ⟨writes, hmap, hfilled⟩ := ih fun q' hq' => h q' (List.mem_cons_of_mem q hq')
    obtain ⟨t, n, hname⟩ := h q List.mem_cons_self
    refine ⟨(q, contentPattern p.randomSeed t n p.writeBytes) :: writes, by rw [List.map_cons, hmap],
      fun w hw => ?_⟩
    rcases List.mem_cons.mp hw with rfl | hw
    · exact ⟨t, n, hname, rfl⟩
    · exact hfilled w hw

end Params

/-- A path that is not written keeps what it has. -/
theorem foldl_putFile_other {writes : List (Path × Bytes)} {q : Path} (files : Files)
    (h : q ∉ writes.map Prod.fst) : writes.foldl putFile files q = files q := by
  induction writes generalizing files with
  | nil => rfl
  | cons w writes ih =>
    rw [List.map_cons, List.mem_cons, not_or] at h
    rw [List.foldl_cons, ih _ h.2, putFile, Function.update_of_ne h.1]

/-- **A file that all writes give the same bytes starts with them.** -/
theorem foldl_putFile_written {writes : List (Path × Bytes)} {q : Path} {bytes : Bytes} (files : Files)
    (hmem : q ∈ writes.map Prod.fst) (h : ∀ w ∈ writes, w.1 = q → w.2 = bytes) :
    ∃ rest, writes.foldl putFile files q = some (bytes ++ rest) := by
  induction writes generalizing files with
  | nil => cases hmem
  | cons w writes ih =>
    rw [List.foldl_cons]
    by_cases hlater : q ∈ writes.map Prod.fst
    · exact ih _ hlater fun w' hw' => h w' (List.mem_cons_of_mem w hw')
    · have hq : q = w.1 := by
        rw [List.map_cons] at hmem
        exact (List.mem_cons.mp hmem).resolve_right hlater
      rw [foldl_putFile_other _ hlater, putFile, hq, Function.update_self,
        h w List.mem_cons_self hq.symm]
      exact ⟨_, rfl⟩

/-- The second invocation only reads, and verifies what the first one creates and leaves: the same
tree without working directories, the same threads and the same seed option. -/
structure LaterRead (a₁ a₂ : Args) : Prop where
  threads : a₂.threads = a₁.threads
  branchFactor : a₂.branchFactor = a₁.branchFactor
  depth : a₂.depth = a₁.depth
  itemsPerDir : a₂.itemsPerDir = a₁.itemsPerDir
  items : a₂.items = a₁.items
  leafOnly : a₂.leafOnly = a₁.leafOnly
  shared₁ : a₁.uniqueDir = false
  shared₂ : a₂.uniqueDir = false
  randomSeed : a₂.randomSeed = a₁.randomSeed
  creates : a₁.createOnly = true
  leaves : a₁.removeOnly = false
  reads : a₂.readOnly = true
  createsNot : a₂.createOnly = false
  removesNot : a₂.removeOnly = false
  verifies : a₂.verifyRead = true
  readBytes : a₂.readBytes ≤ a₁.writeBytes

/-- **The data verifies across the invocations**: at all times, whatever was in the files before that
the first one writes. -/
def VerifiesLater (a₁ a₂ : Args) (top : Path) : Prop :=
  ∀ now₁ now₂ p₁ p₂, now₁ ≤ now₂ → now₂ < 2 ^ 64 →
    configure a₁ top now₁ = .ok p₁ → configure a₂ top now₂ = .ok p₂ →
    ∀ clock writes, p₁.Creates clock writes →
    ∀ old : Files, (∀ q, old q ≠ none → q ∈ writes.map Prod.fst) →
      ReadsEqual p₂ (fun _ _ => writes.foldl putFile old) ∧
      p₂.verificationErrors (fun _ _ => writes.foldl putFile old) (fun _ => true) = 0

/-! ## What is found -/

section

variable {p₁ p₂ : Params} {clock : ℕ → ℕ → Clock} {writes : List (Path × Bytes)}

theorem Params.Visit.getLast?_path (v : p₂.Visit) : v.path.getLast? = some
    (Params.itemName false ("mdtest." ++ toString (p₂.shifted v.rank 2) ++ ".") (v.item + p₂.leafOffset)) := by
  simp only [Params.Visit.path, Params.readPath, Params.itemPath, ← List.append_assoc]
  exact List.getLast?_concat

/-- **A file that has been written starts with the pattern of its name.** -/
theorem file_starts (hc : p₁.Creates clock writes) (old : Files) (v : p₂.Visit)
    (hmem : v.path ∈ writes.map Prod.fst) : ∃ rest, writes.foldl putFile old v.path =
      some (contentPattern p₁.randomSeed (p₂.shifted v.rank 2) (v.item + p₂.leafOffset) p₁.writeBytes ++
        rest) := by
  refine foldl_putFile_written old hmem fun w hw hq => ?_
  have hfilled : p₁.Filled (v.path, _) := ⟨_, _, v.getLast?_path, rfl⟩
  exact (hc.filled w hw).unique hfilled hq

/-- Where both invocations have one seed, the files compare equal. -/
theorem readsEqual_of_seed (hseed : p₁.randomSeed = p₂.randomSeed)
    (hbytes : p₂.readBytes ≤ p₁.writeBytes) (hc : p₁.Creates clock writes) {old : Files}
    (hold : ∀ q, old q ≠ none → q ∈ writes.map Prod.fst) :
    ReadsEqual p₂ fun _ _ => writes.foldl putFile old := by
  intro v bytes hfile hlen
  have hfile : writes.foldl putFile old v.path = some bytes := hfile
  by_cases hmem : v.path ∈ writes.map Prod.fst
  · obtain ⟨rest, hrest⟩ := file_starts hc old v hmem
    obtain rfl := Option.some.inj (hrest.symm.trans hfile)
    rw [List.take_append_of_le_length (by rw [length_contentPattern]; exact hbytes),
      take_contentPattern _ _ _ hbytes, hseed]
    rfl
  · rw [foldl_putFile_other old hmem] at hfile
    exact absurd (hold _ (by rw [hfile]; exact Option.some_ne_none _)) hmem

/-- Where a written file compares equal, both seeds lead to the same bytes. -/
theorem patterns_eq_of_readsEqual (hbytes : p₂.readBytes ≤ p₁.writeBytes)
    (hc : p₁.Creates clock writes) {old : Files} (v : p₂.Visit) (hmem : v.path ∈ writes.map Prod.fst)
    (h : ReadsEqual p₂ fun _ _ => writes.foldl putFile old) :
    contentPattern p₁.randomSeed (p₂.shifted v.rank 2) (v.item + p₂.leafOffset) p₂.readBytes =
      p₂.expected v.rank v.item := by
  obtain ⟨rest, hrest⟩ := file_starts hc old v hmem
  have hequal := h v _ hrest (by
    rw [List.length_append, length_contentPattern]
    omega)
  rwa [List.take_append_of_le_length (by rw [length_contentPattern]; exact hbytes),
    take_contentPattern _ _ _ hbytes] at hequal

end

/-! ## The same tree -/

/-- Two sets of parameters put the items of a number at the same path. -/
structure SameTree (p₁ p₂ : Params) : Prop where
  threads : p₂.threads = p₁.threads
  branchFactor : p₂.branchFactor = p₁.branchFactor
  itemsPerDir : p₂.itemsPerDir = p₁.itemsPerDir
  items : p₂.items = p₁.items
  leafOffset : p₂.leafOffset = p₁.leafOffset
  directoryLoops : p₂.directoryLoops = p₁.directoryLoops
  top : p₂.top = p₁.top

theorem LaterRead.sameTree {a₁ a₂ : Args} {top : Path} {p₁ p₂ : Params} (h : LaterRead a₁ a₂)
    (h₁ : Configured a₁ top p₁) (h₂ : Configured a₂ top p₂) : SameTree p₁ p₂ := by
  have hbranch : p₂.branchFactor = p₁.branchFactor := by rw [h₂.branchFactor, h₁.branchFactor, h.branchFactor]
  have hdepth : p₂.depth = p₁.depth := by rw [h₂.depth, h₁.depth, h.depth]
  have hdirs : p₂.numDirsInTree = p₁.numDirsInTree := by rw [h₂.numDirs, h₁.numDirs, hbranch, hdepth]
  have hleaf : p₂.leafOnly = p₁.leafOnly := by rw [h₂.leafOnly, h₁.leafOnly, h.leafOnly]
  have hcounts : itemCounts a₂ p₂.numDirsInTree = itemCounts a₁ p₁.numDirsInTree := by
    simp only [itemCounts, h.itemsPerDir, h.items, h.leafOnly, h.branchFactor, h.depth, hdirs]
  have hboth : (p₂.items, p₂.itemsPerDir) = (p₁.items, p₁.itemsPerDir) := by
    rw [h₂.counts, h₁.counts] at hcounts
    exact Except.ok.inj hcounts
  have hipd : p₂.itemsPerDir = p₁.itemsPerDir := congrArg Prod.snd hboth
  exact {
    threads := by rw [h₂.threads, h₁.threads, h.threads]
    branchFactor := hbranch
    itemsPerDir := hipd
    items := congrArg Prod.fst hboth
    leafOffset := by rw [Params.leafOffset, Params.leafOffset, hleaf, hipd, hdirs, hbranch, hdepth]
    directoryLoops := by
      rw [h₂.loops, h₁.loops, h.items, h.itemsPerDir, h.shared₁, h.shared₂]
    top := by rw [h₂.top, h₁.top] }

section

variable {p₁ p₂ : Params}

/-- The names of created files, with a silent timer. -/
theorem created_named (hbranch : 0 < p₁.depth → 0 < p₁.branchFactor) (hloops : 1 ≤ p₁.directoryLoops)
    {iteration : ℕ} {q : Path} (h : q ∈ createdItems p₁ (fun _ _ => false) iteration false) :
    ∃ target num : ℕ,
      q.getLast? = some (Params.itemName false ("mdtest." ++ toString target ++ ".") num) := by
  obtain ⟨rank, -, h⟩ := List.mem_flatMap.mp h
  have hquiet : p₁.stonewall = 0 ∨ ∀ k : ℕ, (fun _ => false : ℕ → Bool) k = false := .inr fun _ => rfl
  obtain ⟨pr, hrun, -⟩ := Params.createPhase_files hbranch hquiet hloops iteration rank
  rw [hrun] at h
  obtain ⟨d, -, h⟩ := List.mem_flatMap.mp h
  obtain ⟨j, -, rfl⟩ := List.mem_map.mp h
  exact ⟨p₁.shifted rank 0, _, List.getLast?_concat⟩

/-- The first item that a rank visits in the first test directory has been created. -/
theorem first_visit_created (hword : p₁.threads ≤ 2 ^ 32) (hbranch : 0 < p₁.depth → 0 < p₁.branchFactor)
    (hdirs : p₁.numDirsInTree = LevelOrder.treeSize p₁.branchFactor 1 (p₁.depth + 1))
    (hipd : 0 < p₁.itemsPerDir) (hu₁ : p₁.uniqueDir = false) (hu₂ : p₂.uniqueDir = false)
    (hsame : SameTree p₁ p₂) (v : p₂.Visit) (hiter : v.iteration = 0) (hdir : v.dirIter = 0)
    (hitem : v.item = 0) : v.path ∈ createdItems p₁ (fun _ _ => false) 0 false := by
  have hloops : 1 ≤ p₁.directoryLoops := by
    have := v.dirIter_lt
    rw [hsame.directoryLoops] at this
    omega
  have htarget : p₂.shifted v.rank 2 < p₁.threads := by
    rw [← hsame.threads]
    exact Nat.mod_lt _ (Nat.zero_lt_of_lt v.rank_lt)
  have hprefix : p₁.itemPrefix (p₂.shifted v.rank 2) 0 = p₂.itemPrefix v.rank 2 := by
    rw [Params.itemPrefix, Params.shifted_zero hword htarget]
    rfl
  have hpath : v.path = p₁.testdir 0 0 ++ ["mdtest_tree.0"] ++
      p₁.itemPath "mdtest_tree" false (p₁.itemPrefix (p₂.shifted v.rank 2) 0) p₁.leafOffset := by
    rw [Params.Visit.path, Params.readPath, hiter, hdir, hitem, Params.root_eq hu₂, Params.base_eq hu₂,
      Nat.zero_add, hsame.leafOffset, hprefix]
    simp only [Params.testdir, Params.itemPath, hsame.top, hsame.itemsPerDir, hsame.branchFactor]
  have hquiet : p₁.stonewall = 0 ∨ ∀ k : ℕ, (fun _ => false : ℕ → Bool) k = false := .inr fun _ => rfl
  obtain ⟨pr, hrun, -⟩ := Params.createPhase_files hbranch hquiet hloops 0 (p₂.shifted v.rank 2)
  refine List.mem_flatMap.mpr ⟨p₂.shifted v.rank 2, List.mem_range.mpr htarget, ?_⟩
  rw [hrun, hpath, Params.root_eq hu₁, Params.itemsBelow, ← Params.map_itemPath]
  refine List.mem_map_of_mem (Params.mem_itemsOf_heldDirs.mpr ?_)
  have hpos := Nat.mul_pos (Params.itemDirs_pos hbranch) hipd
  rw [Params.leafOffset_eq hdirs, Nat.add_mul]
  exact ⟨Nat.le_refl _, by omega⟩

end

/-- Without anything written there is nothing to read. -/
theorem readsEqual_of_nil {p : Params} {old : Files} (hold : ∀ q, old q ≠ none → q ∈ ([] : List Path)) :
    ReadsEqual p fun _ _ => old := by
  intro v bytes hfile _
  have hfile : old v.path = some bytes := hfile
  exact absurd (hold v.path (by rw [hfile]; exact Option.some_ne_none _)) List.not_mem_nil

/-- The files of a silent creation. -/
theorem exists_creates {p : Params} (hbranch : 0 < p.depth → 0 < p.branchFactor)
    (hloops : 1 ≤ p.directoryLoops) (hfiles : p.filesOnly = true) (hcreate : p.createOnly = true) :
    ∃ writes, p.Creates (fun _ _ _ => false) writes ∧ ∀ iteration < p.iterations,
      ∀ q ∈ createdItems p (fun _ _ => false) iteration false, q ∈ writes.map Prod.fst := by
  obtain ⟨writes, hmap, hfilled⟩ := p.exists_filled ((List.range p.iterations).flatMap fun iteration =>
    createdItems p (fun _ _ => false) iteration false) fun q hq => by
      obtain ⟨iteration, -, hq⟩ := List.mem_flatMap.mp hq
      exact created_named hbranch hloops hq
  refine ⟨writes, ⟨?_, hfilled⟩, fun iteration hlt q hq => ?_⟩
  · rw [hmap, hfiles, hcreate]
    exact .refl _
  · rw [hmap]
    exact List.mem_flatMap.mpr ⟨iteration, List.mem_range.mpr hlt, hq⟩

/-- Where something is written and visited, the data verifies at two times only if both seeds lead to the
same bytes. -/
theorem VerifiesLater.patterns_eq {a₁ a₂ : Args} {top : Path} {t₁ t₂ : ℕ} {q₁ q₂ : Params}
    (hverifies : VerifiesLater a₁ a₂ top) (h : LaterRead a₁ a₂) (hle : t₁ ≤ t₂) (hlt : t₂ < 2 ^ 64)
    (hq₁ : configure a₁ top t₁ = .ok q₁) (hq₂ : configure a₂ top t₂ = .ok q₂)
    (hiter₁ : 0 < q₁.iterations) (hiter₂ : 0 < q₂.iterations) (hloops : 1 ≤ q₁.directoryLoops)
    (hfiles₁ : q₁.filesOnly = true) (hfiles₂ : q₂.filesOnly = true) (hstop : 0 < q₂.stopItems) :
    contentPattern q₁.randomSeed (q₂.shifted 0 2) (0 + q₂.leafOffset) q₂.readBytes =
      contentPattern q₂.randomSeed (q₂.shifted 0 2) (0 + q₂.leafOffset) q₂.readBytes := by
  have hconf₁ := configure_configured hq₁
  have hconf₂ := configure_configured hq₂
  have hpass₁ := configure_passedOn hq₁
  have hpass₂ := configure_passedOn hq₂
  have hsame := h.sameTree hconf₁ hconf₂
  have hbytes : q₂.readBytes ≤ q₁.writeBytes := by
    rw [hpass₁.writeBytes, hpass₂.readBytes]
    exact h.readBytes
  have hthreads : 0 < q₂.threads := by
    rw [hconf₂.threads]
    exact lt_max_of_lt_right Nat.one_pos
  have hcreate := hpass₁.createOnly h.creates
  have hread := hpass₂.readOnly h.reads
  obtain ⟨writes, hc, hall⟩ := exists_creates hconf₁.branch hloops hfiles₁ hcreate
  obtain ⟨hequal, -⟩ := hverifies t₁ t₂ q₁ q₂ hle hlt hq₁ hq₂ _ writes hc (fun _ => none)
    fun q hq => absurd rfl hq
  let v : q₂.Visit := ⟨0, 0, 0, 0, ⟨hfiles₂, hread⟩, hiter₂, hthreads, by
    rw [hsame.directoryLoops]
    exact hloops, hstop⟩
  have hcreated := first_visit_created hconf₁.threads_le hconf₁.branch hconf₁.numDirs hconf₁.itemsPerDir
    (hconf₁.uniqueDir.trans h.shared₁) (hconf₂.uniqueDir.trans h.shared₂) hsame v rfl rfl rfl
  exact patterns_eq_of_readsEqual hbytes hc v (hall 0 hiter₁ _ hcreated) hequal

/-! ## When the data verifies -/

section

variable {a : Args} {top : Path} {now : ℕ} {p : Params}

theorem PassedOn.filesOnly_iff (h : PassedOn a now p) :
    p.filesOnly = true ↔ ¬ (a.dirsOnly = true ∧ a.filesOnly = false) := by
  rw [h.filesOnly]
  cases a.dirsOnly <;> cases a.filesOnly <;> decide

theorem directoryLoops_eq_zero_iff (h : Configured a top p) (hunique : a.uniqueDir = false) :
    p.directoryLoops = 0 ↔ 0 < a.items ∧ 0 < a.itemsPerDir ∧ 2 ^ 32 ∣ a.items / a.itemsPerDir := by
  rw [h.loops, hunique]
  split
  · rename_i hboth
    rw [← Nat.dvd_iff_mod_eq_zero]
    exact ⟨fun hdvd => ⟨hboth.1, hboth.2.1, hdvd⟩, fun hall => hall.2.2⟩
  · rename_i hnot
    exact ⟨fun hone => absurd hone Nat.one_ne_zero, fun hall => absurd ⟨hall.1, hall.2.1, rfl⟩ hnot⟩

theorem stopItems_pos (h : Configured a top p) : 0 < p.stopItems := by
  rw [Params.stopItems]
  split
  · exact h.itemsPerDir
  · exact items_pos h

end

section

variable {a₁ a₂ : Args} {top : Path} {p₁ p₂ : Params}

/-- With the seed 0 and a random order in one of them, two invocations have different patterns at some two
times. -/
theorem exists_times_ne (hseed : a₁.randomSeed = 0) (hseeds : a₂.randomSeed = a₁.randomSeed)
    (hrandom : ¬ (a₁.random = false ∧ a₂.random = false)) (writer item : ℕ) {len : ℕ} (hlen : 0 < len) :
    ∃ t₁ t₂, t₁ ≤ t₂ ∧ t₂ < 2 ^ 64 ∧
      contentPattern (if a₁.random ∧ a₁.randomSeed = 0 then t₁ else a₁.randomSeed) writer item len ≠
        contentPattern (if a₂.random ∧ a₂.randomSeed = 0 then t₂ else a₂.randomSeed) writer item len := by
  obtain ⟨seed, hlt, hne⟩ := exists_contentPattern_ne (contentPattern 0 writer item len) writer item hlen
  have hseed₂ : a₂.randomSeed = 0 := hseeds.trans hseed
  cases hr₂ : a₂.random with
  | true =>
    refine ⟨0, seed, Nat.zero_le _, hlt, ?_⟩
    simp only [hseed, hseed₂, and_self, if_true, ite_self]
    exact hne.symm
  | false =>
    have hr₁ : a₁.random = true := by
      by_contra hr
      exact hrandom ⟨(Bool.not_eq_true _).mp hr, hr₂⟩
    refine ⟨seed, seed, Nat.le_refl _, hlt, ?_⟩
    simp only [hseed, hseed₂, hr₁, and_self, if_true, and_true, Bool.false_eq_true, if_false]
    exact hne

theorem Params.Creates.eq_nil {clock : ℕ → ℕ → Clock} {writes : List (Path × Bytes)}
    (hc : p₁.Creates clock writes) (hnone : p₁.filesOnly = false ∨ p₁.iterations = 0) : writes = [] := by
  have hpaths := hc.paths
  rcases hnone with hnone | hnone
  · rw [hnone] at hpaths
    exact List.map_eq_nil_iff.mp hpaths.eq_nil
  · rw [hnone, List.range_zero, List.flatMap_nil, ite_self] at hpaths
    exact List.map_eq_nil_iff.mp hpaths.eq_nil

/-- Where nothing is visited, nothing differs. -/
theorem readsEqual_of_unvisited (found : Found)
    (hnone : p₂.iterations = 0 ∨ p₂.filesOnly = false ∨ p₂.directoryLoops = 0) : ReadsEqual p₂ found := by
  intro v
  rcases hnone with h | h | h
  · exact absurd v.iteration_lt (by omega)
  · exact absurd (h.symm.trans v.selected.1) Bool.false_ne_true
  · exact absurd v.dirIter_lt (by omega)

/-- The two invocations read what has been written in one of these ways. -/
theorem readsEqual_of_later {t₁ t₂ : ℕ} (h : LaterRead a₁ a₂) (hp₁ : configure a₁ top t₁ = .ok p₁)
    (hp₂ : configure a₂ top t₂ = .ok p₂)
    (hcond : a₁.randomSeed ≠ 0 ∨ (a₁.random = false ∧ a₂.random = false) ∨
      a₁.iterations = 0 ∨ a₂.iterations = 0 ∨
      (a₁.dirsOnly = true ∧ a₁.filesOnly = false) ∨ (a₂.dirsOnly = true ∧ a₂.filesOnly = false) ∨
      (0 < a₁.items ∧ 0 < a₁.itemsPerDir ∧ 2 ^ 32 ∣ a₁.items / a₁.itemsPerDir))
    {clock : ℕ → ℕ → Clock} {writes : List (Path × Bytes)} (hc : p₁.Creates clock writes) {old : Files}
    (hold : ∀ q, old q ≠ none → q ∈ writes.map Prod.fst) :
    ReadsEqual p₂ fun _ _ => writes.foldl putFile old := by
  have hpass₁ := configure_passedOn hp₁
  have hpass₂ := configure_passedOn hp₂
  have hconf₁ := configure_configured hp₁
  have hbytes : p₂.readBytes ≤ p₁.writeBytes := by
    rw [hpass₁.writeBytes, hpass₂.readBytes]
    exact h.readBytes
  have hseeds : (a₁.randomSeed ≠ 0 ∨ (a₁.random = false ∧ a₂.random = false)) →
      p₁.randomSeed = p₂.randomSeed := by
    intro hcond
    rw [hpass₁.randomSeed, hpass₂.randomSeed, h.randomSeed]
    rcases hcond with hseed | ⟨hr₁, hr₂⟩
    · rw [if_neg fun hb => hseed hb.2, if_neg fun hb => hseed hb.2]
    · rw [hr₁, hr₂, if_neg fun hb => Bool.false_ne_true hb.1, if_neg fun hb => Bool.false_ne_true hb.1]
  have hunwritten : (p₁.filesOnly = false ∨ p₁.iterations = 0) →
      ReadsEqual p₂ fun _ _ => writes.foldl putFile old := by
    intro hnone
    obtain rfl := hc.eq_nil hnone
    exact readsEqual_of_nil hold
  rcases hcond with hcond | hcond | hcond | hcond | hcond | hcond | hcond
  · exact readsEqual_of_seed (hseeds (.inl hcond)) hbytes hc hold
  · exact readsEqual_of_seed (hseeds (.inr hcond)) hbytes hc hold
  · exact hunwritten (.inr (hpass₁.iterations.trans hcond))
  · exact readsEqual_of_unvisited _ (.inl (hpass₂.iterations.trans hcond))
  · refine hunwritten (.inl ((Bool.not_eq_true _).mp fun hfiles => ?_))
    exact hpass₁.filesOnly_iff.mp hfiles hcond
  · refine readsEqual_of_unvisited _ (.inr (.inl ((Bool.not_eq_true _).mp fun hfiles => ?_)))
    exact hpass₂.filesOnly_iff.mp hfiles hcond
  · have hloops := (directoryLoops_eq_zero_iff hconf₁ h.shared₁).mpr hcond
    have hsame := h.sameTree hconf₁ (configure_configured hp₂)
    exact readsEqual_of_unvisited _ (.inr (.inr (hsame.directoryLoops.trans hloops)))

end

/-- **When the data verifies across invocations**: if a seed is given, or no order is random, and else if
nothing is read that has been written. -/
theorem verifiesLater_iff {a₁ a₂ : Args} {top : Path} {now₁ now₂ : ℕ} {p₁ p₂ : Params}
    (hp₁ : configure a₁ top now₁ = .ok p₁) (hp₂ : configure a₂ top now₂ = .ok p₂)
    (h : LaterRead a₁ a₂) :
    VerifiesLater a₁ a₂ top ↔
      a₁.randomSeed ≠ 0 ∨ (a₁.random = false ∧ a₂.random = false) ∨
      a₁.iterations = 0 ∨ a₂.iterations = 0 ∨
      (a₁.dirsOnly = true ∧ a₁.filesOnly = false) ∨ (a₂.dirsOnly = true ∧ a₂.filesOnly = false) ∨
      (0 < a₁.items ∧ 0 < a₁.itemsPerDir ∧ 2 ^ 32 ∣ a₁.items / a₁.itemsPerDir) := by
  constructor
  · intro hverifies
    by_contra hcond
    simp only [not_or] at hcond
    obtain ⟨hseed, hrandom, hiter₁, hiter₂, hfiles₁, hfiles₂, hloops⟩ := hcond
    have hpass₁ := configure_passedOn hp₁
    have hpass₂ := configure_passedOn hp₂
    have hone : 0 < p₁.directoryLoops := Nat.pos_of_ne_zero fun hzero =>
      hloops ((directoryLoops_eq_zero_iff (configure_configured hp₁) h.shared₁).mp hzero)
    have hi₁ : 0 < p₁.iterations := hpass₁.iterations ▸ Nat.pos_of_ne_zero hiter₁
    have hi₂ : 0 < p₂.iterations := hpass₂.iterations ▸ Nat.pos_of_ne_zero hiter₂
    have hread : 0 < p₂.readBytes := hpass₂.readBytes ▸ (configure_accepted hp₂).1.readBytes h.verifies
    have hstop : 0 < p₂.stopItems := stopItems_pos (configure_configured hp₂)
    obtain ⟨t₁, t₂, hle, hlt, hne⟩ := exists_times_ne (not_not.mp hseed) h.randomSeed hrandom
      (p₂.shifted 0 2) (0 + p₂.leafOffset) hread
    have hpatterns := hverifies.patterns_eq h hle hlt (configure_random hp₁ a₁.random a₁.randomSeed t₁)
      (configure_random hp₂ a₂.random a₂.randomSeed t₂) hi₁ hi₂ hone (hpass₁.filesOnly_iff.mpr hfiles₁)
      (hpass₂.filesOnly_iff.mpr hfiles₂) hstop
    exact hne hpatterns
  · intro hcond t₁ t₂ q₁ q₂ _ _ hq₁ hq₂ clock writes hc old hold
    have hequal := readsEqual_of_later h hq₁ hq₂ hcond hc hold
    exact ⟨hequal, hequal.verificationErrors_eq _⟩

/-- A file of 12 bytes, of which 9 are read under a seed, by the other of two ranks. -/
theorem verifiesLater_seeded :
    VerifiesLater { threads := 2, items := 1, writeBytes := 12, randomSeed := 7, createOnly := true }
      { threads := 2, items := 1, readBytes := 9, randomSeed := 7, nstride := 1, random := true,
        readOnly := true, verifyRead := true } ["mnt"] :=
  have hp₁ : configure { threads := 2, items := 1, writeBytes := 12, randomSeed := 7, createOnly := true }
      ["mnt"] 0 = .ok _ := rfl
  have hp₂ : configure
      { threads := 2, items := 1, readBytes := 9, randomSeed := 7, nstride := 1, random := true,
        readOnly := true, verifyRead := true } ["mnt"] 0 = .ok _ := rfl
  (verifiesLater_iff hp₁ hp₂
    { threads := rfl, branchFactor := rfl, depth := rfl, itemsPerDir := rfl, items := rfl, leafOnly := rfl,
      shared₁ := rfl, shared₂ := rfl, randomSeed := rfl, creates := rfl, leaves := rfl, reads := rfl,
      createsNot := rfl, removesNot := rfl, verifies := rfl, readBytes := by decide }).mpr
    (.inl (by decide))

/-- **With the seed 0 and a random order, the clock of each invocation is its seed.** -/
theorem reads_later_differ :
    ¬ VerifiesLater { items := 1, writeBytes := 1, random := true, createOnly := true }
      { items := 1, readBytes := 1, random := true, readOnly := true, verifyRead := true } ["mnt"] := by
  intro hverifies
  have hle : 1700000000 ≤ 1700000001 := by decide
  have hsame := hverifies.patterns_eq
    { threads := rfl, branchFactor := rfl, depth := rfl, itemsPerDir := rfl, items := rfl, leafOnly := rfl,
      shared₁ := rfl, shared₂ := rfl, randomSeed := rfl, creates := rfl, leaves := rfl, reads := rfl,
      createsNot := rfl, removesNot := rfl, verifies := rfl, readBytes := by decide }
    hle (by decide) rfl rfl Nat.one_pos Nat.one_pos (by decide) rfl rfl (by decide)
  revert hsame
  decide

end Fstest.Mdtest
