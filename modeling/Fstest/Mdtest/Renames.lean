import Fstest.Lib.Subtrees
import Fstest.Mdtest.Ranks

/-!
# The rename chain of mdtest

`renamePhaseOn` is `rename_phase` on a tree of names, round by round with its two accumulators: item
0 goes to a temporary name, each item takes the name before its own, and the last round brings the
temporary name back. A rename that fails is a warning, and the loop goes on. The items and the
temporary name are slots, none below another, and each round renames onto the slot that the round
before has left.
-/

namespace Fstest.Mdtest

open NameTree

variable {α : Type}

/-- A call of `rename`, with the tree that it meets. -/
structure RenameCall (α : Type) where
  tree : NameTree α
  src : Path
  target : Path
  failed : Bool

/-- The loop of `rename_phase`; `calls` is its history. -/
structure RenameLoop (α : Type) where
  tree : NameTree α
  last : Option Path := none
  firstRenamed : Option Path := none
  calls : List (RenameCall α) := []

/-- No call has failed. -/
def RenameLoop.Clean (s : RenameLoop α) : Prop := ∀ c ∈ s.calls, c.failed = false

/-- Round `i`: the first name to remember, the source and the target. An `unwrap` of `None` panics. -/
def renameNames (path : ℕ → Path) (stop : ℕ) (s : RenameLoop α) (i : ℕ) :
    Option (Option Path × Path × Path) :=
  if i = 0 then
    let t := Params.suffixed (path i) "-XX"
    some (some t, path i, t)
  else if i = stop - 1 then do
    let src ← s.firstRenamed
    let target ← s.last
    return (s.firstRenamed, src, target)
  else do
    let target ← s.last
    return (s.firstRenamed, path i, target)

/-- A round. The call of round `i` fails by itself, whatever the tree, if `fault i`. -/
def renameRound [DecidableEq α] (fault : ℕ → Bool) (path : ℕ → Path) (stop : ℕ) (s : RenameLoop α)
    (i : ℕ) : Option (RenameLoop α) := do
  let (firstRenamed, src, target) ← renameNames path stop s i
  let renamed := if fault i then none else renameAny s.tree src target
  return {
    tree := renamed.getD s.tree
    last := if i = stop - 1 then s.last else some (path i)
    firstRenamed
    calls := s.calls ++ [⟨s.tree, src, target, renamed.isNone⟩] }

namespace Params

/-- The path of the item with number `k` among those of a rank. -/
def renamePath (p : Params) (rank : ℕ) (dirs : Bool) (root : Path) (base : String) (k : ℕ) : Path :=
  root ++ p.itemPath base dirs (p.itemPrefix rank 1) (k + p.leafOffset)

/-- `rename_phase` on a tree, or `none` if it panics. -/
def renamePhaseOn [DecidableEq α] (p : Params) (fault : ℕ → Bool) (rank : ℕ) (dirs : Bool)
    (root : Path) (base : String) (t : NameTree α) : Option (RenameLoop α) :=
  if p.stopItems = 1 then some { tree := t }
  else (List.range p.stopItems).foldlM
    (renameRound fault (p.renamePath rank dirs root base) p.stopItems) { tree := t }

/-! ## The slots of the chain -/

section

variable (p : Params) (rank : ℕ) (dirs : Bool) (root : Path) {n : ℕ}

/-- The names of the items, and the temporary name in the slot `none`. -/
def slotPath (n : ℕ) : Option (Fin n) → Path
  | none => suffixed (p.renamePath rank dirs root (p.base rank 1) 0) "-XX"
  | some k => p.renamePath rank dirs root (p.base rank 1) k

/-- The number of the item whose directories lead to the slot. -/
def slotNumber : Option (Fin n) → ℕ
  | none => p.leafOffset
  | some k => k + p.leafOffset

def slotName : Option (Fin n) → String
  | none => itemName dirs (p.itemPrefix rank 1) p.leafOffset ++ "-XX"
  | some k => itemName dirs (p.itemPrefix rank 1) (k + p.leafOffset)

/-- The directories on the way from the root to an item. -/
def dirNames (num : ℕ) : Path :=
  (if 0 < num / p.itemsPerDir then LevelOrder.ancestors p.branchFactor (num / p.itemsPerDir) else []).map
    fun d => p.base rank 1 ++ "." ++ toString d

theorem slotPath_eq (i : Option (Fin n)) : p.slotPath rank dirs root n i =
    root ++ (p.dirNames rank (p.slotNumber i) ++ [p.slotName rank dirs i]) := by
  have hitem : ∀ k, p.renamePath rank dirs root (p.base rank 1) k = root ++
      (p.dirNames rank (k + p.leafOffset) ++ [itemName dirs (p.itemPrefix rank 1) (k + p.leafOffset)]) :=
    fun _ => rfl
  cases i with
  | none =>
    rw [slotPath, hitem, Nat.zero_add, suffixed, ← List.append_assoc, List.dropLast_concat,
      List.getLastD_concat, List.append_assoc]
    rfl
  | some k => exact hitem k

/-- A name that ends in a number does not end in the suffix. -/
theorem not_suffix_XX (s : String) (k : ℕ) : ¬ "-XX".toList <:+ (s ++ toString k).toList := by
  intro h
  have hne : (toString k).toList ≠ [] := by
    rw [show toString k = k.repr from rfl, Nat.toList_repr]
    exact Nat.toDigits_ne_nil
  have hlast : (s ++ toString k).toList.getLast? = some 'X' := by
    obtain ⟨r, hr⟩ := h
    rw [← hr, List.getLast?_append]
    rfl
  rw [String.toList_append, List.getLast?_append_of_ne_nil _ hne] at hlast
  exact notMem_toString (by decide) k (List.mem_of_getLast? hlast)

theorem slotName_injective : Function.Injective (p.slotName rank dirs (n := n)) := by
  have hsuffix : ∀ (k : Fin n), p.slotName rank dirs (n := n) none ≠ p.slotName rank dirs (some k) := by
    intro k h
    refine not_suffix_XX ((if dirs then "dir." else "file.") ++ p.itemPrefix rank 1)
      (k + p.leafOffset) ⟨(itemName dirs (p.itemPrefix rank 1) p.leafOffset).toList, ?_⟩
    exact (String.toList_append ..).symm.trans (congrArg String.toList h)
  intro i j h
  cases i with
  | none =>
    cases j with
    | none => rfl
    | some k => exact absurd h (hsuffix k)
  | some k =>
    cases j with
    | none => exact absurd h.symm (hsuffix k)
    | some l =>
      have hnum := (itemName_injective h).2
      exact congrArg some (Fin.ext (by omega))

/-- Directories of the tree and items have names with different first letters. -/
theorem slotName_notMem (i : Option (Fin n)) (num : ℕ) :
    p.slotName rank dirs i ∉ p.dirNames rank num := by
  intro h
  obtain ⟨d, -, hd⟩ := List.mem_map.mp h
  have hdir : (p.slotName rank dirs i).toList.head? = some 'm' := by
    rw [← hd, base, baseTreeName]
    split <;> simp
  have hitem : (p.slotName rank dirs i).toList.head? = some (if dirs then 'd' else 'f') := by
    cases i <;> cases dirs <;> simp [slotName, itemName]
  rw [hdir] at hitem
  cases dirs <;> simp at hitem

theorem slotPath_apart {i j : Option (Fin n)}
    (h : p.slotPath rank dirs root n i <+: p.slotPath rank dirs root n j) : i = j := by
  rw [slotPath_eq, slotPath_eq, List.prefix_append_right_inj] at h
  have hmem : p.slotName rank dirs i ∈ p.dirNames rank (p.slotNumber j) ++ [p.slotName rank dirs j] :=
    h.subset (List.mem_append_right _ (List.mem_singleton_self _))
  rcases List.mem_append.mp hmem with hdir | hname
  · exact absurd hdir (p.slotName_notMem rank dirs i _)
  · exact p.slotName_injective rank dirs (List.mem_singleton.mp hname)

theorem slots {t : NameTree α} (ht : Rooted t)
    (hitems : ∀ k < n, p.renamePath rank dirs root (p.base rank 1) k ∈ t) (hn : 0 < n) :
    Slots t (p.slotPath rank dirs root n) where
  apart := p.slotPath_apart rank dirs root
  ne_nil i := by
    rw [slotPath_eq, ← List.append_assoc]
    exact List.append_ne_nil_of_right_ne_nil _ (List.cons_ne_nil _ _)
  parent i := by
    cases i with
    | none =>
      rw [slotPath, suffixed, List.dropLast_concat]
      exact (ht _ (hitems 0 hn)).2
    | some k => exact (ht _ (hitems k k.isLt)).2

end

/-! ## Rounds -/

section

/-- The slot that a round renames. The last round renames the temporary name. -/
def sourceSlot (n i : ℕ) : Option (Fin n) := if h : i + 1 < n then some ⟨i, by omega⟩ else none

/-- The slot that is free before a round: the one that the round before has renamed. -/
def freeSlot (n : ℕ) : ℕ → Option (Fin n)
  | 0 => none
  | i + 1 => sourceSlot n i

variable {p : Params} {fault : ℕ → Bool} {rank : ℕ} {dirs : Bool} {root : Path} {t : NameTree α}
  {n i : ℕ} {s : RenameLoop α}

/-- What the accumulators hold before round `i`. -/
structure Remembers (p : Params) (rank : ℕ) (dirs : Bool) (root : Path) (n i : ℕ) (s : RenameLoop α) :
    Prop where
  first : 0 < i → s.firstRenamed = some (p.slotPath rank dirs root n none)
  last : 0 < i → i < n → s.last = some (p.renamePath rank dirs root (p.base rank 1) (i - 1))

/-- A round renames its source slot to the free slot. -/
theorem renameNames_eq (h : Remembers p rank dirs root n i s) (hn : 2 ≤ n) (hi : i < n) :
    renameNames (p.renamePath rank dirs root (p.base rank 1)) n s i =
      some (some (p.slotPath rank dirs root n none), p.slotPath rank dirs root n (sourceSlot n i),
        p.slotPath rank dirs root n (freeSlot n i)) := by
  rw [renameNames]
  cases i with
  | zero =>
    rw [if_pos rfl, sourceSlot, dif_pos (by omega)]
    rfl
  | succ i =>
    rw [if_neg (Nat.succ_ne_zero i), h.first (Nat.succ_pos i), h.last (Nat.succ_pos i) hi, freeSlot,
      sourceSlot, sourceSlot, dif_pos hi]
    split
    · rw [dif_neg (by omega)]
      rfl
    · rw [dif_pos (by omega)]
      rfl

theorem sourceSlot_ne (hn : 2 ≤ n) (hi : i < n) : sourceSlot n i ≠ freeSlot n i := by
  cases i with
  | zero =>
    rw [sourceSlot, dif_pos (by omega)]
    exact Option.some_ne_none _
  | succ i =>
    rw [freeSlot, sourceSlot, sourceSlot, dif_pos hi]
    split
    · simp
    · exact (Option.some_ne_none _).symm

/-- The loop before round `i`. As long as no call has failed, the slots are permuted, and the free
one holds the nothing that was at the temporary name. -/
structure Chained (p : Params) (fault : ℕ → Bool) (rank : ℕ) (dirs : Bool) (root : Path)
    (t : NameTree α) (n i : ℕ) (s : RenameLoop α) : Prop
    extends Remembers p rank dirs root n i s where
  names : s.calls.map (fun c => (c.src, c.target)) = (List.range i).map fun j =>
    (p.slotPath rank dirs root n (sourceSlot n j), p.slotPath rank dirs root n (freeSlot n j))
  clean : (∀ j < i, fault j = false) → s.Clean
  proper : s.Clean → ∀ c ∈ s.calls, c.src ∈ c.tree ∧ c.target ∉ c.tree
  permuted : s.Clean → ∃ σ, Permuted t (p.slotPath rank dirs root n) σ s.tree ∧ σ (freeSlot n i) = none

/-- **The calls are those that the program of the rank lists.** -/
theorem Chained.calls (h : Chained p fault rank dirs root t p.stopItems p.stopItems s)
    (hn : 2 ≤ p.stopItems) :
    s.calls.map (fun c => (c.src, c.target)) = p.renamePhase rank dirs root (p.base rank 1) := by
  refine h.names.trans ?_
  rw [renamePhase, if_neg (by omega)]
  refine List.map_congr_left fun i hi => ?_
  have hi' := List.mem_range.mp hi
  cases i with
  | zero =>
    rw [sourceSlot, dif_pos (by omega)]
    rfl
  | succ i =>
    rw [if_neg (Nat.succ_ne_zero i), freeSlot, sourceSlot, sourceSlot, dif_pos hi']
    split
    · rw [if_neg (by omega)]
      rfl
    · rw [if_pos (by omega)]
      rfl

variable [DecidableEq α]

/-- The call of a round finds an item at its source and nothing at its target. -/
theorem Chained.call (h : Chained p fault rank dirs root t n i s) (ht : Rooted t)
    (hitems : ∀ k < n, p.renamePath rank dirs root (p.base rank 1) k ∈ t)
    (hfree : p.slotPath rank dirs root n none ∉ t) (hn : 2 ≤ n) (hi : i < n) (hs : s.Clean) :
    p.slotPath rank dirs root n (sourceSlot n i) ∈ s.tree ∧
      p.slotPath rank dirs root n (freeSlot n i) ∉ s.tree ∧
      ∃ t', renameAny s.tree (p.slotPath rank dirs root n (sourceSlot n i))
          (p.slotPath rank dirs root n (freeSlot n i)) = some t' ∧
        ∃ σ, Permuted t (p.slotPath rank dirs root n) σ t' ∧ σ (freeSlot n (i + 1)) = none := by
  obtain ⟨σ, hσ, hnone⟩ := h.permuted hs
  have hsource : p.slotPath rank dirs root n (σ (sourceSlot n i)) ∈ t := by
    cases hk : σ (sourceSlot n i) with
    | none => exact absurd (σ.injective (hk.trans hnone.symm)) (sourceSlot_ne hn hi)
    | some k => exact hitems k k.isLt
  obtain ⟨hsrc, hdest, t', ht', hσ'⟩ :=
    hσ.rename (p.slots rank dirs root ht hitems (by omega)) hsource (hnone.symm ▸ hfree)
  refine ⟨hsrc, hdest, t', ht', _, hσ', ?_⟩
  rw [freeSlot, Equiv.Perm.mul_apply, Equiv.swap_apply_left, hnone]

theorem Chained.round (h : Chained p fault rank dirs root t n i s) (ht : Rooted t)
    (hitems : ∀ k < n, p.renamePath rank dirs root (p.base rank 1) k ∈ t)
    (hfree : p.slotPath rank dirs root n none ∉ t) (hn : 2 ≤ n) (hi : i < n) :
    ∃ s', renameRound fault (p.renamePath rank dirs root (p.base rank 1)) n s i = some s' ∧
      Chained p fault rank dirs root t n (i + 1) s' := by
  have hcall := h.call ht hitems hfree hn hi
  rw [renameRound, renameNames_eq h.toRemembers hn hi]
  refine ⟨_, rfl, ⟨fun _ => rfl, fun _ hlt => ?_⟩, ?_, fun hfault => ?_, fun hs' => ?_, fun hs' => ?_⟩
  · exact if_neg (by omega)
  · rw [List.map_append, h.names, List.range_succ, List.map_append]
    rfl
  · have hs := h.clean fun j hj => hfault j (Nat.lt_succ_of_lt hj)
    obtain ⟨-, -, t', ht', -⟩ := hcall hs
    refine List.forall_mem_append.mpr ⟨hs, List.forall_mem_singleton.mpr ?_⟩
    rw [hfault i (Nat.lt_succ_self i), if_neg (by decide), ht']
    rfl
  · obtain ⟨hs, -⟩ := List.forall_mem_append.mp hs'
    obtain ⟨hsrc, hdest, -⟩ := hcall hs
    exact List.forall_mem_append.mpr ⟨h.proper hs, List.forall_mem_singleton.mpr ⟨hsrc, hdest⟩⟩
  · obtain ⟨hs, hlast⟩ := List.forall_mem_append.mp hs'
    have hok := List.forall_mem_singleton.mp hlast
    obtain ⟨-, -, t', ht', hσ⟩ := hcall hs
    have hfault : fault i = false := by
      cases hf : fault i with
      | false => rfl
      | true =>
        rw [hf] at hok
        cases hok
    rw [hfault, if_neg (by decide), ht']
    exact hσ

/-- The whole loop, of two rounds or more. -/
theorem renamePhaseOn_chained (fault : ℕ → Bool) (ht : Rooted t) (hn : 2 ≤ p.stopItems)
    (hitems : ∀ k < p.stopItems, p.renamePath rank dirs root (p.base rank 1) k ∈ t)
    (hfree : p.slotPath rank dirs root p.stopItems none ∉ t) :
    ∃ s, p.renamePhaseOn fault rank dirs root (p.base rank 1) t = some s ∧
      Chained p fault rank dirs root t p.stopItems p.stopItems s := by
  have hstart : Chained p fault rank dirs root t p.stopItems 0 { tree := t } :=
    { first := nofun, last := nofun, names := rfl, clean := fun _ => nofun, proper := fun _ => nofun
      permuted := fun _ => ⟨1, Permuted.refl ht _, rfl⟩ }
  rw [renamePhaseOn, if_neg (by omega)]
  exact foldlM_range_invariant hstart fun i hi s hs => hs.round ht hitems hfree hn hi

end

/-! ## The items after the chain -/

/-- The last component ends in the suffix of the temporary name. -/
def EndsInXX (q : Path) : Prop := "-XX".toList <:+ (q.getLastD "").toList

instance (q : Path) : Decidable (EndsInXX q) :=
  inferInstanceAs (Decidable ("-XX".toList <:+ (q.getLastD "").toList))

/-- What the phase has done to the items of a rank. -/
structure ItemsPermuted (p : Params) (rank : ℕ) (dirs : Bool) (root : Path) (t : NameTree α)
    (s : RenameLoop α) : Prop where
  proper : ∀ c ∈ s.calls, c.src ∈ c.tree ∧ c.target ∉ c.tree
  exist : ∀ k < p.stopItems, p.renamePath rank dirs root (p.base rank 1) k ∈ s.tree
  rest : ∀ q, (∀ k < p.stopItems, ¬ p.renamePath rank dirs root (p.base rank 1) k <+: q) →
    s.tree.lookup q = t.lookup q
  noTemporary : ∀ q ∈ s.tree, ¬ EndsInXX q
  items : ∃ σ : Equiv.Perm (Fin p.stopItems), ∀ (k : Fin p.stopItems) (r : Path),
    s.tree.lookup (p.renamePath rank dirs root (p.base rank 1) k ++ r) =
      t.lookup (p.renamePath rank dirs root (p.base rank 1) (σ k) ++ r)

section

variable {p : Params} {rank : ℕ} {dirs : Bool} {root : Path} {t t' : NameTree α} {n : ℕ}

theorem endsInXX_append {p' r : Path} (hr : r ≠ []) : EndsInXX (p' ++ r) ↔ EndsInXX r := by
  rw [EndsInXX, EndsInXX, List.getLastD_eq_getLast?, List.getLastD_eq_getLast?,
    List.getLast?_append_of_ne_nil _ hr]

theorem endsInXX_temporary : EndsInXX (p.slotPath rank dirs root n none) := by
  rw [slotPath, suffixed, endsInXX_append (List.cons_ne_nil _ _), EndsInXX, List.getLastD_cons,
    List.getLastD_nil, String.toList_append]
  exact List.suffix_append _ _

theorem not_endsInXX_item (base : String) (k : ℕ) :
    ¬ EndsInXX (p.renamePath rank dirs root base k) := by
  rw [renamePath, itemPath, endsInXX_append (List.append_ne_nil_of_right_ne_nil _ (List.cons_ne_nil _ _)),
    endsInXX_append (List.cons_ne_nil _ _), EndsInXX]
  exact not_suffix_XX _ _

/-- A permutation that leaves the temporary name free permutes the items. -/
theorem items_of_permuted {σ : Equiv.Perm (Option (Fin n))} (hnone : σ none = none)
    (h : Permuted t (p.slotPath rank dirs root n) σ t') (k : Fin n) (r : Path) :
    t'.lookup (p.renamePath rank dirs root (p.base rank 1) k ++ r) =
      t.lookup (p.renamePath rank dirs root (p.base rank 1) (Equiv.removeNone σ k) ++ r) := by
  have hsome : ∃ k', σ (some k) = some k' := by
    cases hk : σ (some k) with
    | none => exact absurd (σ.injective (hk.trans hnone.symm)) (Option.some_ne_none k)
    | some k' => exact ⟨k', rfl⟩
  have hslot := h.slot (some k) r
  rw [← Equiv.removeNone_some σ hsome] at hslot
  exact hslot

/-- What is under no item is as before, the temporary name too. -/
theorem rest_of_permuted {σ : Equiv.Perm (Option (Fin n))} (hnone : σ none = none)
    (h : Permuted t (p.slotPath rank dirs root n) σ t') {q : Path}
    (hq : ∀ k < n, ¬ p.renamePath rank dirs root (p.base rank 1) k <+: q) :
    t'.lookup q = t.lookup q := by
  by_cases htemp : p.slotPath rank dirs root n none <+: q
  · obtain ⟨r, rfl⟩ := htemp
    rw [h.slot, hnone]
  · refine h.rest q fun i => ?_
    cases i with
    | none => exact htemp
    | some k => exact hq k k.isLt

/-- Below an item the names are those below another item, so no new name ends in the suffix. -/
theorem noTemporary_of_permuted {σ : Equiv.Perm (Option (Fin n))} (hnone : σ none = none)
    (h : Permuted t (p.slotPath rank dirs root n) σ t') (hxx : ∀ q ∈ t, ¬ EndsInXX q) :
    ∀ q ∈ t', ¬ EndsInXX q := by
  intro q hq hend
  by_cases hitem : ∃ k < n, p.renamePath rank dirs root (p.base rank 1) k <+: q
  · obtain ⟨k, hk, r, rfl⟩ := hitem
    by_cases hr : r = []
    · rw [hr, List.append_nil] at hend
      exact not_endsInXX_item _ k hend
    · have hmoved := items_of_permuted hnone h ⟨k, hk⟩ r
      have hmem := AList.lookup_isSome.mpr hq
      rw [hmoved] at hmem
      refine hxx _ (AList.lookup_isSome.mp hmem) ((endsInXX_append hr).mpr ?_)
      exact (endsInXX_append hr).mp hend
  · have hrest := rest_of_permuted hnone h fun k hk hp => hitem ⟨k, hk, hp⟩
    have hmem := AList.lookup_isSome.mpr hq
    rw [hrest] at hmem
    exact hxx q (AList.lookup_isSome.mp hmem) hend

/-- **The rename chain permutes.** Where all items of the rank exist and no name ends in the suffix
of the temporary name, the phase comes to its end with the renames of the rank's program. They go
through unless something other than the tree makes one fail, and if all have gone through, the items
are permuted. -/
theorem renamePhaseOn_permutes [DecidableEq α] (p : Params) (fault : ℕ → Bool) (rank : ℕ)
    (dirs : Bool) (root : Path) {t : NameTree α} (ht : Rooted t) (hn : 2 ≤ p.stopItems)
    (hitems : ∀ k < p.stopItems, p.renamePath rank dirs root (p.base rank 1) k ∈ t)
    (hxx : ∀ q ∈ t, ¬ EndsInXX q) :
    ∃ s, p.renamePhaseOn fault rank dirs root (p.base rank 1) t = some s ∧
      s.calls.map (fun c => (c.src, c.target)) = p.renamePhase rank dirs root (p.base rank 1) ∧
      ((∀ i < p.stopItems, fault i = false) → s.Clean) ∧
      (s.Clean → ItemsPermuted p rank dirs root t s) := by
  have hfree : p.slotPath rank dirs root p.stopItems none ∉ t := fun hmem =>
    hxx _ hmem endsInXX_temporary
  obtain ⟨s, hs, hchain⟩ := renamePhaseOn_chained fault ht hn hitems hfree
  refine ⟨s, hs, hchain.calls hn, hchain.clean, fun hclean => ?_⟩
  obtain ⟨σ, hσ, hnone⟩ := hchain.permuted hclean
  have hlast : freeSlot p.stopItems p.stopItems = none := by
    obtain ⟨m, hm⟩ : ∃ m, p.stopItems = m + 1 := ⟨p.stopItems - 1, by omega⟩
    rw [hm, freeSlot, sourceSlot, dif_neg (lt_irrefl _)]
  rw [hlast] at hnone
  refine ⟨hchain.proper hclean, fun k hk => ?_, fun q hq => rest_of_permuted hnone hσ hq,
    noTemporary_of_permuted hnone hσ hxx, Equiv.removeNone σ, items_of_permuted hnone hσ⟩
  have hmoved := items_of_permuted hnone hσ ⟨k, hk⟩ []
  rw [List.append_nil, List.append_nil] at hmoved
  rw [← AList.lookup_isSome, hmoved]
  exact AList.lookup_isSome.mpr (hitems _ (Fin.isLt _))

/-- A directory with three items of rank 0. -/
def threeItems : NameTree Unit :=
  ((["tree"] :: [0, 1, 2].map fun k => ["tree", itemName true "mdtest.0." k]).map
    fun q => (⟨q, .dir⟩ : Sigma fun _ => Node Unit)).toAList

theorem renamePhaseOn_permutes_three : ∃ p,
    configure { items := 3, dirsOnly := true } ["mnt"] 0 = .ok p ∧
      ∃ s, p.renamePhaseOn (fun _ => false) 0 true ["tree"] (p.base 0 1) threeItems = some s ∧
        s.calls.map (fun c => (c.src, c.target)) = p.renamePhase 0 true ["tree"] (p.base 0 1) ∧
        ItemsPermuted p 0 true ["tree"] threeItems s := by
  have hrooted : ∀ q ∈ threeItems.keys, q ≠ [] ∧
      (q.dropLast = [] ∨ threeItems.lookup q.dropLast = some .dir) := by decide +kernel
  have hxx : ∀ q ∈ threeItems.keys, ¬ EndsInXX q := by decide +kernel
  have hrun : ∀ p : Params, 2 ≤ p.stopItems →
      (∀ k < p.stopItems, p.renamePath 0 true ["tree"] (p.base 0 1) k ∈ threeItems) →
      ∃ s, p.renamePhaseOn (fun _ => false) 0 true ["tree"] (p.base 0 1) threeItems = some s ∧
        s.calls.map (fun c => (c.src, c.target)) = p.renamePhase 0 true ["tree"] (p.base 0 1) ∧
        ItemsPermuted p 0 true ["tree"] threeItems s := by
    intro p hn hitems
    obtain ⟨s, hs, hcalls, hclean, hperm⟩ :=
      renamePhaseOn_permutes p (fun _ => false) 0 true ["tree"] hrooted hn hitems hxx
    exact ⟨s, hs, hcalls, hperm (hclean fun _ _ => rfl)⟩
  exact ⟨_, rfl, hrun _ (by decide) (by decide +kernel)⟩

end

end Params

end Fstest.Mdtest
