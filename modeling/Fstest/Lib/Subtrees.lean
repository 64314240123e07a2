import Fstest.Lib.NameTree
import Mathlib.GroupTheory.Perm.Basic

/-!
# Renames of whole subtrees

`renameAny` renames whatever a path leads to, a directory with all that is below it. A rename onto a
free name exchanges two places of the tree, one of them empty. So a sequence of such renames among
places none of which lies below another is a product of transpositions: `Permuted` says which place
holds what the first tree held where, and `Permuted.rename` is the step.
-/

namespace Fstest

namespace NameTree

variable {α : Type}

/-! ## The call -/

/-- Where a path leads once the names `src` and `dest` are exchanged. -/
def exchange (src dest q : Path) : Path :=
  if src <+: q then dest ++ q.drop src.length
  else if dest <+: q then src ++ q.drop dest.length
  else q

/-- All that is at `src` or below it moves to `dest`, where nothing is. -/
def regraft (t : NameTree α) (src dest : Path) : NameTree α :=
  (t.entries.map (Sigma.map (exchange src dest) fun _ => id)).toAList

/-- A rename of a directory. It may replace an empty one, and it cannot go below itself. -/
def renameDir (t : NameTree α) (src dest : Path) : Option (NameTree α) :=
  match find t dest with
  | .error _ => none
  | .ok (some (.leaf _)) => none
  | .ok none => if src <+: dest then none else some (regraft t src dest)
  | .ok (some .dir) =>
    if src = dest then some t
    else if src <+: dest ∨ dest = [] ∨ HasChild t dest then none
    else some (regraft (t.erase dest) src dest)

/-- A rename of a file or a directory, or `none` if it fails. -/
def renameAny [DecidableEq α] (t : NameTree α) (src dest : Path) : Option (NameTree α) :=
  match find t src with
  | .error _ => none
  | .ok none => none
  | .ok (some (.leaf _)) => (rename t src dest).toOption
  | .ok (some .dir) => renameDir t src dest

/-! ## Exchanged names -/

section

variable {src dest q r : Path}

theorem exchange_src : exchange src dest (src ++ r) = dest ++ r := by
  rw [exchange, if_pos (List.prefix_append src r), List.drop_left]

theorem exchange_dest (happart : ¬ src <+: dest ++ r) : exchange src dest (dest ++ r) = src ++ r := by
  rw [exchange, if_neg happart, if_pos (List.prefix_append dest r), List.drop_left]

theorem exchange_other (hsrc : ¬ src <+: q) (hdest : ¬ dest <+: q) : exchange src dest q = q := by
  rw [exchange, if_neg hsrc, if_neg hdest]

/-- What is below one of two paths is not below the other. -/
theorem not_prefix_append {p p' : Path} (h : ¬ p <+: p') (h' : ¬ p' <+: p) : ¬ p <+: p' ++ r := by
  intro hpre
  rcases List.prefix_or_prefix_of_prefix hpre (List.prefix_append p' r) with hp | hp
  · exact h hp
  · exact h' hp

theorem exchange_exchange (h : ¬ src <+: dest) (h' : ¬ dest <+: src) (q : Path) :
    exchange src dest (exchange src dest q) = q := by
  by_cases hsrc : src <+: q
  · obtain ⟨r, rfl⟩ := hsrc
    rw [exchange_src, exchange_dest (not_prefix_append h h')]
  · by_cases hdest : dest <+: q
    · obtain ⟨r, rfl⟩ := hdest
      rw [exchange_dest hsrc, exchange_src]
    · rw [exchange_other hsrc hdest, exchange_other hsrc hdest]

theorem not_prefix_dropLast (hne : q ≠ []) : ¬ q <+: q.dropLast := by
  intro hpre
  have hlen := hpre.length_le
  have hpos := List.length_pos_of_ne_nil hne
  rw [List.length_dropLast] at hlen
  omega

theorem prefix_dropLast {p : Path} (h : p <+: q) (hne : q ≠ p) : p <+: q.dropLast := by
  obtain ⟨r, rfl⟩ := h
  have hr : r ≠ [] := mt List.append_right_eq_self.mpr hne
  rw [List.dropLast_append_of_ne_nil hr]
  exact List.prefix_append p _

/-- The parent of what is below an exchanged name is exchanged with it. -/
theorem exchange_dropLast (hsrc : q ≠ src) (hdest : q ≠ dest) :
    exchange src dest q.dropLast = (exchange src dest q).dropLast := by
  have hbelow : ∀ {p : Path}, ¬ p <+: q → ¬ p <+: q.dropLast := fun h hp =>
    h (hp.trans (List.dropLast_prefix q))
  have hne : ∀ {p s : Path}, q = p ++ s → q ≠ p → s ≠ [] := by
    rintro p s rfl hp
    exact mt List.append_right_eq_self.mpr hp
  by_cases hs : src <+: q
  · obtain ⟨s, hq⟩ := hs
    have hne' := hne hq.symm hsrc
    rw [← hq, List.dropLast_append_of_ne_nil hne', exchange_src, exchange_src,
      List.dropLast_append_of_ne_nil hne']
  · by_cases hd : dest <+: q
    · have hs' := hbelow hs
      obtain ⟨s, hq⟩ := hd
      have hne' := hne hq.symm hdest
      rw [← hq] at hs hs' ⊢
      rw [List.dropLast_append_of_ne_nil hne'] at hs' ⊢
      rw [exchange_dest hs', exchange_dest hs, List.dropLast_append_of_ne_nil hne']
    · rw [exchange_other (hbelow hs) (hbelow hd), exchange_other hs hd]

end

/-! ## A rename onto a free name -/

section

variable {t t' : NameTree α} {src dest p q r : Path} {a : α}

theorem lookup_regraft (h : ¬ src <+: dest) (h' : ¬ dest <+: src) (q : Path) :
    (regraft t src dest).lookup q = t.lookup (exchange src dest q) := by
  have hinj : Function.Injective (exchange src dest) :=
    Function.LeftInverse.injective (exchange_exchange h h')
  rw [regraft, AList.lookup_to_alist]
  have hmap := List.dlookup_map₁ t.entries hinj (exchange src dest q)
  rwa [exchange_exchange h h'] at hmap

/-- What has something below it is a directory. -/
theorem Rooted.isDir_above (h : Rooted t) (hq : q ∈ t) (hp : p <+: q) (hne : q ≠ p) : IsDir t p :=
  h.isDir_prefix (h q hq).2 (prefix_dropLast hp hne)

theorem Rooted.not_mem_below (h : Rooted t) (hp : ¬ IsDir t p) (hr : r ≠ []) : p ++ r ∉ t := by
  intro hmem
  exact hp (h.isDir_above hmem (List.prefix_append p r) (mt List.append_right_eq_self.mp hr))

theorem not_isDir_of_not_mem (hne : p ≠ []) (hp : p ∉ t) : ¬ IsDir t p := fun hdir =>
  hdir.elim hne fun hlook => hp (mem_of_lookup hlook)

/-- `t'` is `t` with everything at `src` moved to the free name `dest`. -/
structure Moved (src dest : Path) (t t' : NameTree α) : Prop where
  rooted : Rooted t'
  lookup : ∀ q, t'.lookup q = t.lookup (exchange src dest q)

theorem rooted_of_exchanged (h : Rooted t) (hsrc : src ∈ t) (hdest : dest ∉ t) (hne : dest ≠ [])
    (hdir : IsDir t dest.dropLast) (happart : ¬ src <+: dest) (happart' : ¬ dest <+: src)
    (hlook : ∀ q, t'.lookup q = t.lookup (exchange src dest q)) : Rooted t' := by
  have hnil : exchange src dest [] = [] :=
    exchange_other (fun hp => (h src hsrc).1 (List.prefix_nil.mp hp))
      fun hp => hne (List.prefix_nil.mp hp)
  have hisDir : ∀ {p}, IsDir t (exchange src dest p) → IsDir t' p := by
    rintro p (hp | hp)
    · left
      rw [← exchange_exchange happart happart' p, hp, hnil]
    · exact .inr ((hlook p).trans hp)
  intro q hq
  have hmem : exchange src dest q ∈ t := by
    rw [← AList.lookup_isSome, ← hlook q]
    exact AList.lookup_isSome.mpr hq
  have hqsrc : q ≠ src := by
    rintro rfl
    have hself : exchange q dest q = dest := by
      rw [exchange, if_pos List.prefix_rfl, List.drop_length, List.append_nil]
    exact hdest (hself ▸ hmem)
  refine ⟨fun hq' => (h _ hmem).1 (by rw [hq', hnil]), hisDir ?_⟩
  by_cases hqdest : q = dest
  · have hsrc' : ¬ src <+: dest.dropLast := fun hp => happart (hp.trans (List.dropLast_prefix dest))
    rw [hqdest, exchange_other hsrc' (not_prefix_dropLast hne)]
    exact hdir
  · rw [exchange_dropLast hqsrc hqdest]
    exact (h _ hmem).2

/-- Nothing lies below a leaf or a free name, so the name alone is exchanged. -/
theorem lookup_renamed_leaf (h : Rooted t) (hleaf : t.lookup src = some (.leaf a)) (hdest : dest ∉ t)
    (hne : dest ≠ []) (happart : ¬ src <+: dest) (happart' : ¬ dest <+: src) (q : Path) :
    ((t.erase src).insert dest (.leaf a)).lookup q = t.lookup (exchange src dest q) := by
  have hsrcDir : ¬ IsDir t src := by
    rintro (hnil | hdir)
    · exact (h src (mem_of_lookup hleaf)).1 hnil
    · rw [hleaf] at hdir
      cases hdir
  have hbelow : ∀ {p s}, ¬ IsDir t p → s ≠ [] → t.lookup (p ++ s) = none := fun hp hs =>
    AList.lookup_eq_none.mpr (h.not_mem_below hp hs)
  have hself : ∀ {p s : Path}, s ≠ [] → p ++ s ≠ p := mt List.append_right_eq_self.mp
  have hdestDir := not_isDir_of_not_mem hne hdest
  by_cases hqdest : dest <+: q
  · obtain ⟨s, rfl⟩ := hqdest
    rw [exchange_dest (not_prefix_append happart happart')]
    by_cases hs : s = []
    · rw [hs, List.append_nil, List.append_nil, AList.lookup_insert, hleaf]
    · have hqsrc : dest ++ s ≠ src := fun heq => happart' (heq ▸ List.prefix_append dest s)
      rw [AList.lookup_insert_ne (hself hs), AList.lookup_erase_ne hqsrc, hbelow hdestDir hs,
        hbelow hsrcDir hs]
  · have hqd : q ≠ dest := fun heq => hqdest (heq ▸ List.prefix_rfl)
    rw [AList.lookup_insert_ne hqd]
    by_cases hqsrc : src <+: q
    · obtain ⟨s, rfl⟩ := hqsrc
      rw [exchange_src]
      by_cases hs : s = []
      · rw [hs, List.append_nil, List.append_nil, AList.lookup_erase, AList.lookup_eq_none.mpr hdest]
      · rw [AList.lookup_erase_ne (hself hs), hbelow hsrcDir hs, hbelow hdestDir hs]
    · have hqs : q ≠ src := fun heq => hqsrc (heq ▸ List.prefix_rfl)
      rw [exchange_other hqsrc hqdest, AList.lookup_erase_ne hqs]

/-- **A rename onto a free name** goes through, and only moves what it renames. -/
theorem renameAny_moved [DecidableEq α] (h : Rooted t) (hsrc : src ∈ t) (hdest : dest ∉ t)
    (hne : dest ≠ []) (hdir : IsDir t dest.dropLast) (happart : ¬ src <+: dest) :
    ∃ t', renameAny t src dest = some t' ∧ Moved src dest t t' := by
  have happart' : ¬ dest <+: src := fun hp =>
    not_isDir_of_not_mem hne hdest (h.isDir_above hsrc hp fun heq => hdest (heq ▸ hsrc))
  have hmoved : ∀ {t'}, (∀ q, t'.lookup q = t.lookup (exchange src dest q)) → Moved src dest t t' :=
    fun hlook => ⟨rooted_of_exchanged h hsrc hdest hne hdir happart happart' hlook, hlook⟩
  have hfind := h.find (h src hsrc).1 (h src hsrc).2
  have hfree : find t dest = .ok none := by rw [h.find hne hdir, AList.lookup_eq_none.mpr hdest]
  obtain ⟨node, hnode⟩ := Option.isSome_iff_exists.mp (AList.lookup_isSome.mpr hsrc)
  rw [hnode] at hfind
  cases node with
  | dir =>
    refine ⟨regraft t src dest, ?_, hmoved (lookup_regraft happart happart')⟩
    rw [renameAny, hfind]
    change renameDir t src dest = _
    rw [renameDir, hfree]
    exact if_neg happart
  | leaf a =>
    refine ⟨(t.erase src).insert dest (.leaf a), ?_,
      hmoved (lookup_renamed_leaf h hnode hdest hne happart happart')⟩
    rw [renameAny, hfind]
    change (rename t src dest).toOption = _
    rw [rename, leafAt, hfind, hfree]
    rfl

end

/-! ## Places and what they hold -/

section

variable {κ : Type} {S : κ → Path} {t₀ t : NameTree α} {σ : Equiv.Perm κ}

/-- Places in a tree, none below another, each with a directory to stand in. -/
structure Slots (t : NameTree α) (S : κ → Path) : Prop where
  apart : ∀ {i j}, S i <+: S j → i = j
  ne_nil : ∀ k, S k ≠ []
  parent : ∀ k, IsDir t (S k).dropLast

/-- `t` is `t₀` except that each slot `k` holds what the slot `σ k` held. -/
structure Permuted (t₀ : NameTree α) (S : κ → Path) (σ : Equiv.Perm κ) (t : NameTree α) : Prop where
  rooted : Rooted t
  slot : ∀ k r, t.lookup (S k ++ r) = t₀.lookup (S (σ k) ++ r)
  rest : ∀ q, (∀ k, ¬ S k <+: q) → t.lookup q = t₀.lookup q

theorem Permuted.refl (h : Rooted t₀) (S : κ → Path) : Permuted t₀ S 1 t₀ :=
  ⟨h, fun _ _ => rfl, fun _ _ => rfl⟩

theorem Permuted.mem_iff (h : Permuted t₀ S σ t) (k : κ) : S k ∈ t ↔ S (σ k) ∈ t₀ := by
  have hslot := h.slot k []
  rw [List.append_nil, List.append_nil] at hslot
  rw [← AList.lookup_isSome, ← AList.lookup_isSome, hslot]

/-- The parents of the slots stay as they are: no slot is on the way to another. -/
theorem Permuted.parent (h : Permuted t₀ S σ t) (hs : Slots t₀ S) (k : κ) :
    IsDir t (S k).dropLast := by
  rcases hs.parent k with hnil | hlook
  · exact .inl hnil
  · refine .inr ((h.rest _ fun j hj => ?_).trans hlook)
    have hjk := hs.apart (hj.trans (List.dropLast_prefix (S k)))
    subst hjk
    exact not_prefix_dropLast (hs.ne_nil j) hj

theorem Slots.exchange [DecidableEq κ] (hs : Slots t₀ S) (i j k : κ) (r : Path) :
    exchange (S i) (S j) (S k ++ r) = S (Equiv.swap i j k) ++ r := by
  have hbelow : ∀ {i k : κ}, i ≠ k → ¬ S i <+: S k ++ r := fun hik =>
    not_prefix_append (fun hp => hik (hs.apart hp)) fun hp => hik (hs.apart hp).symm
  by_cases hki : k = i
  · rw [hki, exchange_src, Equiv.swap_apply_left]
  · by_cases hkj : k = j
    · subst hkj
      rw [exchange_dest (hbelow (Ne.symm hki)), Equiv.swap_apply_right]
    · rw [exchange_other (hbelow (Ne.symm hki)) (hbelow (Ne.symm hkj)),
        Equiv.swap_apply_of_ne_of_ne hki hkj]

/-- **A rename from one slot to a free one** goes through and transposes the two. -/
theorem Permuted.rename [DecidableEq α] [DecidableEq κ] (h : Permuted t₀ S σ t) (hs : Slots t₀ S)
    {i j : κ} (hi : S (σ i) ∈ t₀) (hj : S (σ j) ∉ t₀) :
    S i ∈ t ∧ S j ∉ t ∧
      ∃ t', renameAny t (S i) (S j) = some t' ∧ Permuted t₀ S (σ * Equiv.swap i j) t' := by
  have hsrc := (h.mem_iff i).mpr hi
  have hdest := mt (h.mem_iff j).mp hj
  have hij : ¬ S i <+: S j := fun hp => hj (hs.apart hp ▸ hi)
  obtain ⟨t', ht', hmoved⟩ :=
    renameAny_moved h.rooted hsrc hdest (hs.ne_nil j) (h.parent hs j) hij
  refine ⟨hsrc, hdest, t', ht', hmoved.rooted, fun k r => ?_, fun q hq => ?_⟩
  · rw [hmoved.lookup, hs.exchange, h.slot]
    rfl
  · rw [hmoved.lookup, exchange_other (hq i) (hq j), h.rest q hq]

end

end NameTree

end Fstest
