import Fstest.Mdtest.Skeleton

/-!
# The size of the tree of mdtest

`run` counts the directories of the tree by the formula for a geometric sum, and `leaf_offset` takes
the leaves off again. The powers in both are taken in `u32`, so the formula gives the number of the
directories that `create_remove_tree` makes as long as the powers fit there (`treeSizeExact_iff`).
-/

namespace Fstest.Mdtest

open LevelOrder

/-- `a - b` on `u64`. -/
def subU64 (a b : ℕ) : Except Reject ℕ := if b ≤ a then .ok (a - b) else .error .overflow

namespace Params

variable {p : Params}

/-- `leaf_offset`, with its arithmetic in machine words. -/
def checkedLeafOffset (p : Params) : Except Reject ℕ :=
  if p.leafOnly then do
    let leaves ← powU32 p.branchFactor p.depth
    let above ← subU64 p.numDirsInTree leaves
    mulU64 p.itemsPerDir above
  else .ok 0

/-! ## The directories that are made -/

theorem treeBelow_length_lt {left n : ℕ} {parent : Path} :
    ∀ x ∈ p.treeBelow true left parent n, parent.length < x.length := by
  induction left generalizing parent n with
  | zero => intro x hx; cases hx
  | succ left ih =>
    intro x hx
    obtain ⟨i, -, hx⟩ := List.mem_flatMap.mp hx
    simp only [if_true, List.mem_cons] at hx
    rcases hx with rfl | hx
    · simp
    · have := ih x hx
      simp only [List.length_append, List.length_singleton] at this
      omega

/-- The directory that a path below the tree lies in, or is. -/
theorem treeBelow_child {left n i : ℕ} {parent x : Path}
    (hx : x ∈ (parent ++ [treeDir i]) :: p.treeBelow true left (parent ++ [treeDir i]) n) :
    x[parent.length]? = some (treeDir i) := by
  have hprefix : parent ++ [treeDir i] <+: x := by
    rcases List.mem_cons.mp hx with rfl | hx
    · exact List.prefix_rfl
    · exact treeBelow_under x hx
  obtain ⟨rest, rfl⟩ := hprefix
  simp

theorem treeBelow_nodup (left n : ℕ) (parent : Path) : (p.treeBelow true left parent n).Nodup := by
  induction left generalizing parent n with
  | zero => exact List.nodup_nil
  | succ left ih =>
    rw [treeBelow]
    simp only [if_true]
    refine List.nodup_flatMap.mpr ⟨fun i _ => ?_, List.nodup_range.imp fun {i j} hij => ?_⟩
    · refine List.nodup_cons.mpr ⟨fun hmem => ?_, ih _ _⟩
      exact Nat.lt_irrefl _ (treeBelow_length_lt _ hmem)
    · intro x hi hj
      have hsame := (treeBelow_child hi).symm.trans (treeBelow_child hj)
      have hnum := toString_injective (append_left_cancel (Option.some.inj hsame))
      omega

theorem length_treeBelow (left n : ℕ) (parent : Path) :
    (p.treeBelow true left parent n).length = treeSize p.branchFactor p.branchFactor left := by
  induction left generalizing parent n with
  | zero => rfl
  | succ left ih =>
    rw [treeBelow, List.length_flatMap]
    simp only [if_true, List.length_cons, ih, List.map_const', List.length_range,
      List.sum_replicate_nat]
    rw [treeSize, treeSize_mul]
    ring

/-- Without its last level, a tree is one level lower. -/
theorem filter_treeBelow (left n : ℕ) (parent : Path) :
    (p.treeBelow true (left + 1) parent n).filter (fun x => x.length ≤ parent.length + left) =
      p.treeBelow true left parent n := by
  induction left generalizing parent n with
  | zero =>
    refine List.filter_eq_nil_iff.mpr fun x hx => ?_
    have := treeBelow_length_lt x hx
    rw [decide_eq_true_eq]
    omega
  | succ left ih =>
    rw [treeBelow, treeBelow, List.filter_flatMap]
    refine List.flatMap_congr fun i _ => ?_
    simp only [if_true]
    have hsub := ih (p.branchFactor * (n + i) + 1) (parent ++ [treeDir (n + i)])
    have hlen : (parent ++ [treeDir (n + i)]).length + left = parent.length + (left + 1) := by
      rw [List.length_append, List.length_singleton]
      omega
    rw [hlen] at hsub
    rw [List.filter_cons_of_pos (by rw [decide_eq_true_eq]; omega), hsub]

/-- **As many directories are made as a tree of this depth has.** -/
theorem length_createRemoveTree (parent : Path) :
    (p.createRemoveTree true parent).length = treeSize p.branchFactor 1 (p.depth + 1) := by
  simp only [createRemoveTree, if_true, List.length_cons, length_treeBelow, treeSize, Nat.one_mul]
  exact Nat.add_comm ..

theorem createRemoveTree_nodup (parent : Path) : (p.createRemoveTree true parent).Nodup := by
  simp only [createRemoveTree, if_true]
  refine List.nodup_cons.mpr ⟨fun hmem => ?_, treeBelow_nodup ..⟩
  exact Nat.lt_irrefl _ (treeBelow_length_lt _ hmem)

/-- The directories above the leaf level. -/
def aboveLeaves (p : Params) (parent : Path) : List Path :=
  (p.createRemoveTree true parent).filter fun x => x.length ≤ parent.length + p.depth

theorem length_aboveLeaves (parent : Path) :
    (p.aboveLeaves parent).length = treeSize p.branchFactor 1 p.depth := by
  rw [aboveLeaves, createRemoveTree]
  simp only [if_true]
  generalize p.depth = depth
  cases depth with
  | zero => simp [treeBelow, treeSize]
  | succ depth =>
    have hlen : (parent ++ [treeDir 0]).length + depth = parent.length + (depth + 1) := by
      rw [List.length_append, List.length_singleton]
      omega
    have hbelow := filter_treeBelow (p := p) depth 1 (parent ++ [treeDir 0])
    rw [hlen] at hbelow
    rw [List.filter_cons_of_pos (by rw [decide_eq_true_eq]; omega), hbelow, List.length_cons,
      length_treeBelow, treeSize, Nat.one_mul, Nat.add_comm]

end Params

/-- A walk with the parameters `p` is over the tree of the options `a`. -/
structure Walks (a : Args) (p : Params) : Prop where
  branchFactor : p.branchFactor = a.branchFactor
  depth : p.depth = a.depth.toNat
  leafOnly : p.leafOnly = a.leafOnly
  numDirs : ∀ n, numDirsInTree a = .ok n → p.numDirsInTree = n

theorem walks_of_configure {a : Args} {top : Path} {now : ℕ} {p : Params}
    (h : configure a top now = .ok p) : Walks a p := by
  have hconf := configure_configured h
  obtain ⟨-, hdirs, -, -⟩ := configure_accepted h
  refine ⟨hconf.branchFactor, hconf.depth, hconf.leafOnly, fun n hn => ?_⟩
  rw [hdirs] at hn
  exact Except.ok.inj hn

/-- **The size of the tree is exact**: if the number of the directories fits in 64 bits, they are
counted without an overflow, and so are the items above the leaves. -/
def TreeSizeExact (a : Args) (p : Params) : Prop :=
  ∀ parent, (p.createRemoveTree true parent).length < 2 ^ 64 →
    (p.createRemoveTree true parent).Nodup ∧
    numDirsInTree a = .ok (p.createRemoveTree true parent).length ∧
    p.checkedLeafOffset =
      .ok (if p.leafOnly then p.itemsPerDir * (p.aboveLeaves parent).length else 0)

/-- The power of the formula fits in 32 bits, or is not taken. -/
def PowFits (a : Args) : Prop :=
  a.depth = 0 ∨ a.branchFactor = 1 ∨ a.branchFactor ^ (a.depth.toNat + 1) < 2 ^ 32

theorem numDirsInTree_ok_iff {a : Args} {readOnly createOnly barriers : Bool}
    (h : Accepted a readOnly createOnly barriers) :
    numDirsInTree a = .ok (treeSize a.branchFactor 1 (a.depth.toNat + 1)) ↔ PowFits a := by
  have hdepth := h.depth
  have hbranch := h.branch
  rw [numDirsInTree, PowFits]
  by_cases hzero : a.depth = 0
  · rw [if_pos (.inl (by omega)), hzero]
    exact iff_of_true rfl (.inl rfl)
  rw [if_neg (by omega)]
  by_cases hone : a.branchFactor = 1
  · rw [if_pos hone, hone, treeSize_one, Nat.one_mul]
    exact iff_of_true rfl (.inr (.inl rfl))
  rw [if_neg hone, treeSize_eq_div (by omega), powU32]
  split
  · rename_i hpow
    exact iff_of_true rfl (.inr (.inr hpow))
  · rename_i hpow
    refine iff_of_false (fun h => by cases h) ?_
    simp only [hzero, hone, hpow, or_self, not_false_iff]

/-- Then the number of leaves fits as well. -/
theorem PowFits.leaves {a : Args} {readOnly createOnly barriers : Bool} (h : PowFits a)
    (haccept : Accepted a readOnly createOnly barriers) : a.branchFactor ^ a.depth.toNat < 2 ^ 32 := by
  rcases h with h | h | h
  · rw [h]
    exact Nat.one_lt_two_pow (by decide)
  · rw [h, one_pow]
    exact Nat.one_lt_two_pow (by decide)
  · by_cases hzero : a.branchFactor = 0
    · have hdepth := haccept.depth
      have hbranch := haccept.branch
      have : a.depth.toNat = 0 := by omega
      rw [this, pow_zero]
      exact Nat.one_lt_two_pow (by decide)
    · exact (Nat.pow_le_pow_right (Nat.pos_of_ne_zero hzero) (Nat.le_succ _)).trans_lt h

theorem checkedLeafOffset_eq {p : Params} (hleaf : p.leafOnly = true)
    (hpow : p.branchFactor ^ p.depth < 2 ^ 32)
    (hdirs : p.numDirsInTree = treeSize p.branchFactor 1 (p.depth + 1)) :
    p.checkedLeafOffset = mulU64 p.itemsPerDir (treeSize p.branchFactor 1 p.depth) := by
  have hsize := treeSize_succ p.branchFactor 1 p.depth
  rw [Nat.one_mul] at hsize
  rw [Params.checkedLeafOffset, if_pos hleaf, powU32, if_pos hpow, hdirs, hsize]
  simp only [bind, Except.bind, subU64]
  rw [if_pos (Nat.le_add_left _ _), Nat.add_sub_cancel]

/-- **When the size of the tree is exact**: if the power that counts the directories fits in 32 bits,
and the number of items above the leaves in 64, for a tree that is not too large by itself. -/
theorem treeSizeExact_iff {a : Args} {readOnly createOnly barriers : Bool} {p : Params}
    (haccept : rejection a readOnly createOnly barriers = none) (hwalks : Walks a p) :
    TreeSizeExact a p ↔
      2 ^ 64 ≤ treeSize a.branchFactor 1 (a.depth.toNat + 1) ∨
      (a.depth = 0 ∨ a.branchFactor = 1 ∨ a.branchFactor ^ (a.depth.toNat + 1) < 2 ^ 32) ∧
        (a.leafOnly = true → p.itemsPerDir * treeSize a.branchFactor 1 a.depth.toNat < 2 ^ 64) := by
  have hacc := accepted_of_rejection haccept
  have hdirs := numDirsInTree_ok_iff hacc
  simp only [TreeSizeExact, Params.length_createRemoveTree, Params.length_aboveLeaves, hwalks.branchFactor,
    hwalks.depth, hwalks.leafOnly]
  generalize hsize : treeSize a.branchFactor 1 (a.depth.toNat + 1) = size at hdirs ⊢
  by_cases hlarge : 2 ^ 64 ≤ size
  · exact iff_of_true (fun _ hlt => absurd hlt (not_lt.mpr hlarge)) (.inl hlarge)
  rw [or_iff_right hlarge]
  have hleaf : PowFits a → p.numDirsInTree = size → (p.checkedLeafOffset =
      .ok (if a.leafOnly then p.itemsPerDir * treeSize a.branchFactor 1 a.depth.toNat else 0) ↔
      (a.leafOnly = true → p.itemsPerDir * treeSize a.branchFactor 1 a.depth.toNat < 2 ^ 64)) := by
    intro hpow hnum
    cases hlo : a.leafOnly with
    | false =>
      rw [Params.checkedLeafOffset, hwalks.leafOnly, hlo]
      exact iff_of_true rfl fun h => by cases h
    | true =>
      have hleaves : p.branchFactor ^ p.depth < 2 ^ 32 := by
        rw [hwalks.branchFactor, hwalks.depth]
        exact hpow.leaves hacc
      have htree : p.numDirsInTree = treeSize p.branchFactor 1 (p.depth + 1) := by
        rw [hnum, ← hsize, hwalks.branchFactor, hwalks.depth]
      rw [checkedLeafOffset_eq (hwalks.leafOnly.trans hlo) hleaves htree, hwalks.branchFactor,
        hwalks.depth, mulU64]
      split
      · rename_i hfits
        exact iff_of_true rfl fun _ => hfits
      · rename_i hfits
        exact iff_of_false (fun h => by cases h) fun h => hfits (h rfl)
  constructor
  · intro hexact
    obtain ⟨-, hok, hoffset⟩ := hexact [] (not_le.mp hlarge)
    have hpow := hdirs.mp hok
    exact ⟨hpow, (hleaf hpow (hwalks.numDirs _ hok)).mp hoffset⟩
  · rintro ⟨hpow, hitems⟩ parent -
    have hok := hdirs.mpr hpow
    exact ⟨Params.createRemoveTree_nodup parent, hok, (hleaf hpow (hwalks.numDirs _ hok)).mpr hitems⟩

theorem treeSizeExact_binary : ∃ p,
    configure { branchFactor := 2, depth := 3, leafOnly := true, items := 8 } ["mnt"] 0 = .ok p ∧
    TreeSizeExact { branchFactor := 2, depth := 3, leafOnly := true, items := 8 } p :=
  have hp : configure { branchFactor := 2, depth := 3, leafOnly := true, items := 8 } ["mnt"] 0 = .ok _ := rfl
  have haccept : rejection { branchFactor := 2, depth := 3, leafOnly := true, items := 8 } true true true =
      none := rfl
  ⟨_, rfl, (treeSizeExact_iff haccept (walks_of_configure hp)).mpr
    (.inr ⟨.inr (.inr (by decide)), fun _ => by decide⟩)⟩

/-- **A tree of 70001 directories is not counted.** -/
theorem tree_of_70001 : rejection { branchFactor := 70000, depth := 1, items := 70001 } true true true = none ∧
    (∃ p, Walks { branchFactor := 70000, depth := 1, items := 70001 } p ∧
      ¬ TreeSizeExact { branchFactor := 70000, depth := 1, items := 70001 } p) := by
  obtain ⟨p, hp⟩ : ∃ p, configure { items := 1 } ["mnt"] 0 = .ok p := ⟨_, rfl⟩
  refine ⟨rfl, { p with branchFactor := 70000, depth := 1, leafOnly := false }, ⟨rfl, rfl, rfl,
    fun n hn => ?_⟩, fun hexact => ?_⟩
  · cases hn
  · have hfits : (Params.createRemoveTree { p with branchFactor := 70000, depth := 1, leafOnly := false }
        true []).length < 2 ^ 64 := by
      rw [Params.length_createRemoveTree]
      change treeSize 70000 1 2 < 2 ^ 64
      decide
    cases (hexact [] hfits).2.1

end Fstest.Mdtest
