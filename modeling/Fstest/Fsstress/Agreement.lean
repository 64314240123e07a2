import Fstest.Fsstress.Cleanup

/-!
# The lists of one thread and the tree

A thread that is alone in its directory knows what is there: the paths of its entries are different,
they are the paths that exist, and the parents that the entries name are in the directory list
(`run_agrees`). The invariant (`InStep`) has in addition that ids are not used twice and that the type
of an entry is the kind of what its path leads to. An operation adds an entry with a new id under a
path that did not exist (`InStep.push`), or removes an entry with nothing below it
(`InStep.without`), or does both (a rename).

The ids are `u64` and the parents `i64`. The first id that is no `i64` is that of the name that
operation `2 ^ 63 + 1` makes; once it is a parent, the paths go wrong (`ids_run_out`).
-/

namespace Fstest.Fsstress

namespace Lists

variable {l l' : Lists} {ft ft' : Ft} {f g : Fent} {id : ℕ}

/-- The paths of all entries. -/
def names (l : Lists) : List Path := l.entries.map fun e => l.fentToName e.1 e.2

/-! ## Entries -/

theorem mem_entries {e : Ft × Fent} : e ∈ l.entries ↔ e.2 ∈ l e.1 := by
  obtain ⟨ft, f⟩ := e
  have hall : ft ∈ ftTypes := by cases ft <;> decide
  simp only [entries, List.mem_flatMap, List.mem_map, Prod.mk.injEq]
  constructor
  · rintro ⟨ft', -, f', hf, rfl, rfl⟩
    exact hf
  · exact fun hf => ⟨ft, hall, f, hf, rfl, rfl⟩

theorem mem_push : g ∈ l.push ft f ft' ↔ g ∈ l ft' ∨ ft' = ft ∧ g = f := by
  unfold push
  by_cases h : ft' = ft
  · subst h
    rw [Function.update_self, List.mem_append, List.mem_singleton]
    simp only [true_and]
  · rw [Function.update_of_ne h]
    simp only [h, false_and, or_false]

theorem mem_without : g ∈ l.without ft id ft' ↔ g ∈ l ft' ∧ (ft' = ft → g.id ≠ id) := by
  unfold without
  by_cases h : ft' = ft
  · subst h
    rw [Function.update_self, List.mem_filter]
    simp only [bne_iff_ne, true_imp_iff]
  · rw [Function.update_of_ne h]
    simp only [h, false_imp_iff, and_true]

theorem entries_push (l : Lists) (ft : Ft) (f : Fent) :
    (l.push ft f).entries.Perm ((ft, f) :: l.entries) := by
  have hgen : ∀ types : List Ft, types.Nodup →
      (types.flatMap fun ft' => (l.push ft f ft').map (ft', ·)).Perm
        ((if ft ∈ types then [(ft, f)] else []) ++ types.flatMap fun ft' => (l ft').map (ft', ·)) := by
    intro types hnd
    induction types with
    | nil => exact .refl _
    | cons x types ih =>
      obtain ⟨hx, hnd⟩ := List.nodup_cons.mp hnd
      rw [List.flatMap_cons, List.flatMap_cons]
      by_cases hxf : x = ft
      · subst hxf
        have ih := ih hnd
        rw [if_neg hx, List.nil_append] at ih
        rw [if_pos List.mem_cons_self, push, Function.update_self, List.map_append, List.append_assoc]
        refine (List.Perm.append_left _ (List.Perm.append_left _ ih)).trans ?_
        exact List.perm_append_comm_assoc _ _ _
      · have hmem : ft ∈ x :: types ↔ ft ∈ types := by
          rw [List.mem_cons]
          exact or_iff_right fun h => hxf h.symm
        have hsame : l.push ft f x = l x := Function.update_of_ne hxf ..
        rw [if_congr hmem rfl rfl, hsame]
        exact ((ih hnd).append_left _).trans (List.perm_append_comm_assoc _ _ _)
  have hall : ft ∈ ftTypes := by cases ft <;> decide
  have := hgen ftTypes (by decide)
  rwa [if_pos hall] at this

theorem entries_without (l : Lists) (ft : Ft) (id : ℕ) :
    (l.without ft id).entries.Sublist l.entries := by
  unfold entries
  induction ftTypes with
  | nil => exact .slnil
  | cons x types ih =>
    rw [List.flatMap_cons, List.flatMap_cons]
    refine List.Sublist.append (List.Sublist.map _ ?_) ih
    unfold without
    by_cases h : x = ft
    · subst h
      rw [Function.update_self]
      exact List.filter_sublist
    · rw [Function.update_of_ne h]

/-- No id is used twice. -/
def IdsDiffer (l : Lists) : Prop := (l.entries.map fun e => e.2.id).Nodup

theorem IdsDiffer.push (h : l.IdsDiffer) (hid : ∀ ft, ∀ g ∈ l ft, g.id < f.id) :
    (l.push ft f).IdsDiffer := by
  refine ((entries_push l ft f).map _).nodup_iff.mpr (List.nodup_cons.mpr ⟨?_, h⟩)
  intro hmem
  obtain ⟨e, he, heq⟩ := List.mem_map.mp hmem
  exact absurd heq (hid _ _ (mem_entries.mp he)).ne

theorem IdsDiffer.without (h : l.IdsDiffer) (ft : Ft) (id : ℕ) : (l.without ft id).IdsDiffer :=
  List.Nodup.sublist ((entries_without l ft id).map _) h

/-! ## Paths that stay -/

/-- Paths only depend on the directories above. -/
theorem fentToName_congr {P : Fent → Prop} (hP : ∀ f, P f → 0 ≤ f.parent →
      l'.dirById f.parent.toNat = l.dirById f.parent.toNat ∧
      ∀ p, l.dirById f.parent.toNat = some p → P p)
    (hf : P f) : l'.fentToName ft f = l.fentToName ft f := by
  induction hid : f.id using Nat.strongRecOn generalizing f ft with
  | ind id ih =>
    by_cases hparent : 0 ≤ f.parent
    · obtain ⟨hsame, hup⟩ := hP f hf hparent
      cases hp : l.dirById f.parent.toNat with
      | none => rw [fentToName_lost hp, fentToName_lost (hsame.trans hp)]
      | some p =>
        have hpid := id_of_dirById hp
        have hlt := f.parent_lt
        rw [fentToName_child hparent hp, fentToName_child hparent (hsame.trans hp),
          ih p.id (by omega) (hup p hp) rfl]
    · rw [fentToName_base (by omega), fentToName_base (by omega)]

/-- A new entry leaves the paths of those before it. -/
theorem fentToName_push (hg : g.id ≤ f.id) :
    (l.push ft f).fentToName ft' g = l.fentToName ft' g := by
  refine fentToName_congr (P := fun g => g.id ≤ f.id) (fun g hg hparent => ⟨?_, fun p hp => ?_⟩) hg
  · have hlt := g.parent_lt
    unfold dirById push
    by_cases h : Ft.dir = ft
    · subst h
      rw [Function.update_self, List.find?_append, List.find?_cons_of_neg, List.find?_nil,
        Option.or_none]
      rw [beq_iff_eq]
      omega
    · rw [Function.update_of_ne h]
  · have hid := id_of_dirById hp
    have hlt := g.parent_lt
    have hg : g.id ≤ f.id := hg
    show p.id ≤ f.id
    omega

end Lists

/-- The lists say what is in the tree. -/
structure Agrees (l : Lists) (t : NameTree Inode) : Prop where
  injective : l.names.Nodup
  image : ∀ p, p ∈ t ↔ p ∈ l.names
  parents : ∀ e ∈ l.entries, 0 ≤ e.2.parent → ∃ d ∈ l .dir, (d.id : ℤ) = e.2.parent

/-! ## The invariant -/

structure InStep (l : Lists) (t : NameTree Inode) : Prop where
  rooted : t.Rooted
  ids : (l.entries.map fun e => e.2.id).Nodup
  parents : ∀ ft, ∀ f ∈ l ft, 0 ≤ f.parent → ∃ d ∈ l .dir, (d.id : ℤ) = f.parent
  nodes : ∀ ft, ∀ f ∈ l ft, ∃ node, t.lookup (l.fentToName ft f) = some node ∧ NodeOf ft node
  image : ∀ p ∈ t, ∃ ft, ∃ f ∈ l ft, l.fentToName ft f = p

section

variable {l : Lists} {t : NameTree Inode} {ft ft' : Ft} {f g : Fent} {p : Path} {node : Node Inode}

theorem inStep_start : InStep (fun _ => []) ∅ where
  rooted := NameTree.rooted_empty
  ids := List.nodup_nil
  parents _ _ hf := absurd hf List.not_mem_nil
  nodes _ _ hf := absurd hf List.not_mem_nil
  image _ hp := absurd hp (AList.notMem_empty _)

theorem InStep.eq_of_id (h : InStep l t) (hf : f ∈ l ft) (hg : g ∈ l ft') (hid : f.id = g.id) :
    ft = ft' ∧ f = g := by
  have heq := List.inj_on_of_nodup_map h.ids (x := (ft, f)) (Lists.mem_entries.mpr hf)
    (y := (ft', g)) (Lists.mem_entries.mpr hg) hid
  exact Prod.mk.inj heq

theorem InStep.dirById (h : InStep l t) (hf : f ∈ l .dir) : l.dirById f.id = some f := by
  cases hd : l.dirById f.id with
  | none =>
    have := List.find?_eq_none.mp hd f hf
    exact absurd (beq_self_eq_true f.id) this
  | some g =>
    have hg := List.mem_of_find?_eq_some hd
    rw [(h.eq_of_id hf hg (Lists.id_of_dirById hd).symm).2]

/-- Two entries of one path have one id. -/
theorem id_of_path (hpath : l.fentToName ft f = l.fentToName ft' g) : f.id = g.id := by
  obtain ⟨c, hc⟩ := Lists.fentToName_last l ft f
  obtain ⟨d, hd⟩ := Lists.fentToName_last l ft' g
  rw [hc, hd] at hpath
  obtain ⟨-, hname⟩ := List.append_inj' hpath rfl
  exact (Lists.name_injective (List.cons.inj hname).1).2

theorem InStep.agrees (h : InStep l t) : Agrees l t where
  injective := by
    refine List.Nodup.map_on ?_ (List.Nodup.of_map _ h.ids)
    intro e he e' he' hpath
    obtain ⟨hft, hf⟩ := h.eq_of_id (Lists.mem_entries.mp he) (Lists.mem_entries.mp he')
      (id_of_path hpath)
    exact Prod.ext hft hf
  image p := by
    unfold Lists.names
    rw [List.mem_map]
    constructor
    · intro hp
      obtain ⟨ft, f, hf, hpath⟩ := h.image p hp
      exact ⟨(ft, f), Lists.mem_entries.mpr hf, hpath⟩
    · rintro ⟨e, he, rfl⟩
      obtain ⟨node, hlook, -⟩ := h.nodes _ _ (Lists.mem_entries.mp he)
      exact NameTree.mem_of_lookup hlook
  parents e he := h.parents _ _ (Lists.mem_entries.mp he)

/-- The children of a directory are below it. -/
theorem InStep.child (h : InStep l t) (hf : f ∈ l ft) (hg : g ∈ l ft') (hparent : g.parent = f.id) :
    t.HasChild (l.fentToName ft f) := by
  obtain ⟨d, hd, hdid⟩ := h.parents _ _ hg (by omega)
  obtain ⟨rfl, rfl⟩ := h.eq_of_id hf hd (by omega)
  have hup : l.dirById g.parent.toNat = some f := by
    rw [hparent]
    exact h.dirById hf
  obtain ⟨node, hlook, -⟩ := h.nodes _ _ hg
  rw [Lists.fentToName_child (by omega) hup] at hlook
  exact NameTree.hasChild_iff.mpr ⟨_, NameTree.mem_of_lookup hlook⟩

/-! ## One more entry, one entry less -/

/-- **A new entry** with an id above all others, under a path that did not exist. -/
theorem InStep.push (h : InStep l t) (hR : NameTree.Rooted (t.insert p node))
    (hid : ∀ ft, ∀ g ∈ l ft, g.id < f.id) (hpath : l.fentToName ft f = p) (hnew : p ∉ t)
    (hnode : NodeOf ft node) (hparent : 0 ≤ f.parent → ∃ d ∈ l .dir, (d.id : ℤ) = f.parent) :
    InStep (l.push ft f) (t.insert p node) := by
  have hself : (l.push ft f).fentToName ft f = p := (Lists.fentToName_push (Nat.le_refl _)).trans hpath
  have hkeep : ∀ ft', ∀ g ∈ l ft', (l.push ft f).fentToName ft' g = l.fentToName ft' g :=
    fun ft' g hg => Lists.fentToName_push (hid ft' g hg).le
  refine ⟨hR, ?_, ?_, ?_, ?_⟩
  · exact Lists.IdsDiffer.push h.ids hid
  · intro ft' g hg h0
    have hup : ∃ d ∈ l .dir, (d.id : ℤ) = g.parent := by
      rcases Lists.mem_push.mp hg with hg | ⟨-, rfl⟩
      · exact h.parents _ _ hg h0
      · exact hparent h0
    obtain ⟨d, hd, hdid⟩ := hup
    exact ⟨d, Lists.mem_push.mpr (.inl hd), hdid⟩
  · intro ft' g hg
    rcases Lists.mem_push.mp hg with hg | ⟨rfl, rfl⟩
    · obtain ⟨node', hlook, hkind⟩ := h.nodes _ _ hg
      refine ⟨node', ?_, hkind⟩
      rw [hkeep _ _ hg, AList.lookup_insert_ne, hlook]
      exact fun heq => hnew (heq ▸ NameTree.mem_of_lookup hlook)
    · exact ⟨node, by rw [hself, AList.lookup_insert], hnode⟩
  · intro q hq
    rcases (AList.mem_insert t).mp hq with rfl | hq
    · exact ⟨ft, f, Lists.mem_push.mpr (.inr ⟨rfl, rfl⟩), hself⟩
    · obtain ⟨ft', g, hg, hgq⟩ := h.image q hq
      exact ⟨ft', g, Lists.mem_push.mpr (.inl hg), (hkeep _ _ hg).trans hgq⟩

/-- **An entry less**, with nothing below its path. -/
theorem InStep.without (h : InStep l t) (hf : f ∈ l ft) (hbelow : ¬ t.HasChild (l.fentToName ft f)) :
    InStep (l.without ft f.id) (t.erase (l.fentToName ft f)) := by
  have hno : ∀ ft', ∀ g ∈ l ft', g.parent ≠ f.id := fun ft' g hg heq => hbelow (h.child hf hg heq)
  have hkeep : ∀ ft', ∀ g ∈ l ft', (l.without ft f.id).fentToName ft' g = l.fentToName ft' g := by
    intro ft' g hg
    refine Lists.fentToName_congr (P := fun g => ∃ ft', g ∈ l ft') ?_ ⟨ft', hg⟩
    rintro g ⟨ft', hg⟩ h0
    have hne := hno ft' g hg
    refine ⟨?_, fun p hp => ⟨.dir, List.mem_of_find?_eq_some hp⟩⟩
    unfold Lists.dirById Lists.without
    by_cases hdir : Ft.dir = ft
    · subst hdir
      rw [Function.update_self, List.find?_filter]
      congr 1
      funext d
      by_cases hd : d.id = g.parent.toNat
      · have : d.id ≠ f.id := by omega
        simp [hd] at this ⊢
        exact this
      · simp [hd]
    · rw [Function.update_of_ne hdir]
  have hmem : ∀ {ft' g}, g ∈ l.without ft f.id ft' → g ∈ l ft' ∧ g.id ≠ f.id := by
    intro ft' g hg
    obtain ⟨hg, hne⟩ := Lists.mem_without.mp hg
    exact ⟨hg, fun heq => hne (h.eq_of_id hg hf heq).1 heq⟩
  have hback : ∀ {ft' g}, g ∈ l ft' → g.id ≠ f.id → g ∈ l.without ft f.id ft' :=
    fun hg hne => Lists.mem_without.mpr ⟨hg, fun _ => hne⟩
  refine ⟨h.rooted.erase hbelow, ?_, ?_, ?_, ?_⟩
  · exact Lists.IdsDiffer.without h.ids ft f.id
  · intro ft' g hg h0
    obtain ⟨d, hd, hdid⟩ := h.parents _ _ (hmem hg).1 h0
    have := hno _ _ (hmem hg).1
    exact ⟨d, hback hd (by omega), hdid⟩
  · intro ft' g hg
    obtain ⟨hg, hne⟩ := hmem hg
    obtain ⟨node, hlook, hkind⟩ := h.nodes _ _ hg
    refine ⟨node, ?_, hkind⟩
    rw [hkeep _ _ hg, AList.lookup_erase_ne fun heq => hne (id_of_path heq), hlook]
  · intro q hq
    obtain ⟨hne, hq⟩ := AList.mem_erase.mp hq
    obtain ⟨ft', g, hg, rfl⟩ := h.image q hq
    refine ⟨ft', g, hback hg fun heq => hne ?_, hkeep _ _ hg⟩
    obtain ⟨rfl, rfl⟩ := h.eq_of_id hg hf heq
    rfl

end

/-! ## Operations -/

section

variable {st : ThreadState} {fs fs' : Fs} {req : Request} {parent : Option st.lists.Picked} {ft : Ft}
  {g : ThreadState.Generated} {call : Call} {p : Path}

/-- What `generate_name` returned goes into the lists as the path that it made up, as long as the
parent's id is an `i64`. -/
structure Fits (l : Lists) (t : NameTree Inode) (ft : Ft) (g : ThreadState.Generated) : Prop where
  path : l.fentToName ft ⟨g.id, g.parid, g.parid_lt⟩ = g.path
  new : g.path ∉ t
  parent : 0 ≤ g.parid → ∃ d ∈ l .dir, (d.id : ℤ) = g.parid
  ids : ∀ ft, ∀ f ∈ l ft, f.id < g.id

theorem InStep.fits (h : InStep st.lists fs.tree) (hseq : st.nameseq ≤ 2 ^ 63)
    (hdir : ∀ e, parent = some e → e.ft = .dir) (hg : st.generateName parent ft = some g) :
    Fits st.lists fs.tree ft g := by
  obtain ⟨hid, -, -⟩ := ThreadState.generateName_some hg
  have hids : ∀ ft, ∀ f ∈ st.lists ft, f.id < g.id := fun ft f hf => hid ▸ st.ids_lt ft f hf
  have hnew : g.path ∉ fs.tree := by
    intro hmem
    obtain ⟨ft', f, hf, hpath⟩ := h.image _ hmem
    obtain ⟨c, hc⟩ := ThreadState.generateName_last hdir hg
    obtain ⟨d, hd⟩ := Lists.fentToName_last st.lists ft' f
    rw [hc, hd] at hpath
    obtain ⟨-, hname⟩ := List.append_inj' hpath rfl
    exact absurd (Lists.name_injective (List.cons.inj hname).1).2 (hids ft' f hf).ne
  cases parent with
  | none =>
    obtain ⟨hpath, hparid⟩ := ThreadState.generateName_base hg
    have hneg : g.parid < 0 := by omega
    exact ⟨(Lists.fentToName_base hneg).trans hpath.symm, hnew, fun h0 => absurd h0 (by omega), hids⟩
  | some e =>
    have he := hdir e rfl
    obtain ⟨hpath, hparid⟩ := ThreadState.generateName_in he hg
    have hmem : e.fent ∈ st.lists .dir := he ▸ e.mem
    have hlt := st.ids_lt _ _ hmem
    rw [asI64_of_lt (by omega)] at hparid
    have hup : st.lists.dirById g.parid.toNat = some e.fent := by
      rw [hparid]
      exact h.dirById hmem
    have h0 : 0 ≤ g.parid := by omega
    exact ⟨(Lists.fentToName_child h0 hup).trans hpath.symm, hnew, fun _ => ⟨_, hmem, hparid.symm⟩,
      hids⟩

/-- The tree has got the node. -/
theorem InStep.addFent {l : Lists} {t : NameTree Inode} {node : Node Inode} (h : InStep l t)
    (hfits : Fits l t ft g) (hnode : NodeOf ft node) (hR : NameTree.Rooted (t.insert g.path node)) :
    InStep (l.push ft ⟨g.id, g.parid, g.parid_lt⟩) (t.insert g.path node) :=
  h.push hR hfits.ids hfits.path hfits.new hnode hfits.parent

/-- A call for a new name makes a node of its type there. -/
theorem perform_new (hcall : NewCall ft p call) (hnew : p ∉ fs.tree)
    (h : fs.perform call = .ok fs') : ∃ node, NodeOf ft node ∧ fs.tree.add p node = .ok fs'.tree := by
  have hmake : ∀ {ft : Ft} {target : String}, ft ≠ .dir → fs.make p ft.made target = .ok fs' →
      ∃ node, NodeOf ft node ∧ fs.tree.add p node = .ok fs'.tree :=
    fun hft hm => ⟨_, show NodeOf _ (.leaf _) from ⟨hft, rfl⟩, make_ok hm⟩
  cases hcall with
  | creat =>
    change fs.openCreate (39 + 1) p = .ok fs' at h
    rw [Fs.openCreate] at h
    split at h
    · cases h
    · exact hmake (by decide) h
    · cases h
    · rename_i hfind
      exact absurd (NameTree.mem_of_lookup (NameTree.of_find hfind (by simp)).2.2) hnew
  | mkdir => exact ⟨.dir, rfl, withTree_ok h⟩
  | mknodChr => exact hmake (by decide) h
  | mknodBlk => exact hmake (by decide) h
  | symlink target =>
    rw [Fs.perform] at h
    split at h
    · cases h
    · exact hmake (by decide) h

theorem InStep.leaf_below (h : InStep st.lists fs.tree) (e : st.lists.Picked) (he : e.ft ≠ .dir) :
    ∃ a, fs.tree.lookup (st.lists.fentToName e.ft e.fent) = some (.leaf a) ∧ NodeOf e.ft (.leaf a) ∧
      ¬ fs.tree.HasChild (st.lists.fentToName e.ft e.fent) := by
  obtain ⟨node, hlook, hkind⟩ := h.nodes _ _ e.mem
  cases node with
  | dir => exact absurd hkind he
  | leaf a => exact ⟨a, hlook, hkind, h.rooted.not_hasChild_leaf hlook⟩

/-- **An operation that succeeds** keeps the lists and the tree in step. -/
theorem InStep.ok (h : InStep st.lists fs.tree) (hseq : st.nameseq ≤ 2 ^ 63) (hreq : Makes st req)
    (hcall : fs.perform req.call = .ok fs') : InStep req.ok.lists fs'.tree := by
  cases hreq with
  | @new _ ft g call hdir hg hnew =>
    have hfits := h.fits hseq hdir hg
    obtain ⟨node, hnode, hadd⟩ := perform_new hnew hfits.new hcall
    have hR := h.rooted.add hadd
    rw [(NameTree.add_ok hadd).2.2.2] at hR ⊢
    show InStep (g.st.lists.push ft _) _
    rw [(ThreadState.generateName_some hg).2.2]
    exact h.addFent hfits hnode hR
  | @link _ g src hsrc hdir hg =>
    have hfits := h.fits hseq hdir hg
    have hlink := withTree_ok hcall
    obtain ⟨a, ha, -, -, -, heq⟩ := NameTree.link_ok hlink
    obtain ⟨b, hb, hkind, -⟩ := h.leaf_below src hsrc
    obtain rfl : b = a := by
      rw [ha] at hb
      cases hb
      rfl
    have hR := h.rooted.link hlink
    rw [heq] at hR ⊢
    show InStep (g.st.lists.push src.ft _) _
    rw [(ThreadState.generateName_some hg).2.2]
    exact h.addFent hfits hkind hR
  | unlink e he =>
    obtain ⟨-, -, -, hbelow⟩ := h.leaf_below e he
    rw [(NameTree.unlink_ok (withTree_ok hcall)).2]
    exact h.without e.mem hbelow
  | rmdir e he =>
    obtain ⟨-, hbelow, heq⟩ := NameTree.rmdir_ok (withTree_ok hcall)
    rw [heq]
    exact h.without (he ▸ e.mem) hbelow
  | @rename _ g e he hdir hg =>
    have hfits := h.fits hseq hdir hg
    have hren := withTree_ok hcall
    obtain ⟨a, ha, -, -, -, hcases⟩ := NameTree.rename_ok hren
    obtain ⟨b, hb, hkind, hbelow⟩ := h.leaf_below e he
    obtain rfl : b = a := by
      rw [ha] at hb
      cases hb
      rfl
    have hR := h.rooted.rename hren
    rcases hcases with ⟨hsame, -⟩ | ⟨-, heq⟩
    · exact absurd (NameTree.mem_of_lookup hsame) hfits.new
    · rw [heq] at hR ⊢
      show InStep ((g.st.lists.without e.ft e.fent.id).push e.ft _) _
      rw [(ThreadState.generateName_some hg).2.2]
      -- First the entry goes, then there is one for the new path.
      have hdirs : st.lists.without e.ft e.fent.id .dir = st.lists .dir :=
        Function.update_of_ne (fun heq => he heq.symm) ..
      have hpaths : ∀ ft f, (st.lists.without e.ft e.fent.id).fentToName ft f =
          st.lists.fentToName ft f := fun ft f =>
        Lists.fentToName_congr (P := fun _ => True) (fun f _ _ =>
          ⟨congrArg (List.find? _) hdirs, fun _ _ => trivial⟩) trivial
      refine InStep.addFent (h.without e.mem hbelow) ⟨?_, ?_, ?_, ?_⟩ hkind hR
      · rw [hpaths, hfits.path]
      · exact fun hmem => hfits.new (AList.mem_erase.mp hmem).2
      · rw [hdirs]
        exact hfits.parent
      · exact fun ft f hf => hfits.ids ft f (Lists.mem_without.mp hf).1

theorem nameseq_ok (hreq : Makes st req) : req.ok.nameseq ≤ st.nameseq + 1 := by
  cases hreq with
  | new hdir hg hnew => exact (ThreadState.generateName_some hg).2.1.le
  | link src hsrc hdir hg => exact (ThreadState.generateName_some hg).2.1.le
  | unlink e he => exact Nat.le_succ _
  | rmdir e he => exact Nat.le_succ _
  | rename e he hdir hg => exact (ThreadState.generateName_some hg).2.1.le

/-- An operation that fails may use up an id. -/
theorem failed_lists (hreq : Makes st req) :
    req.failed.lists = st.lists ∧ req.failed.nameseq ≤ st.nameseq + 1 := by
  cases hreq with
  | new hdir hg hnew =>
    exact ⟨(ThreadState.generateName_some hg).2.2, (ThreadState.generateName_some hg).2.1.le⟩
  | link src hsrc hdir hg =>
    exact ⟨(ThreadState.generateName_some hg).2.2, (ThreadState.generateName_some hg).2.1.le⟩
  | unlink e he => exact ⟨rfl, Nat.le_succ _⟩
  | rmdir e he => exact ⟨rfl, Nat.le_succ _⟩
  | rename e he hdir hg =>
    exact ⟨(ThreadState.generateName_some hg).2.2, (ThreadState.generateName_some hg).2.1.le⟩

end

/-! ## Runs of one thread -/

namespace Sys

variable {s s' : Sys 1} {linux : Bool} {table : List Op}

/-- The lists and the tree are in step after `ops` operations. -/
def InStepAfter (s : Sys 1) (ops : ℕ) : Prop :=
  InStep (s.threads 0).st.lists s.fs.tree ∧ (s.threads 0).st.nameseq ≤ ops

/-- **An operation keeps the lists and the tree in step** while the ids before it are `i64`. -/
theorem InStepAfter.answer {ops : ℕ} {st : ThreadState} {req : Request} (h : s.InStepAfter ops)
    (hops : ops ≤ 2 ^ 63) (hst : (s.threads 0).st.SameIds st) (hreq : Makes st req) (ok : Bool) :
    (s.answer 0 ok req).InStepAfter (ops + 1) := by
  obtain ⟨hin, hseq⟩ := h
  rw [← hst.1] at hin
  rw [← hst.2] at hseq
  have hfail : ({ s with threads := Function.update s.threads 0 ⟨req.failed, none⟩ } :
      Sys 1).InStepAfter (ops + 1) := by
    obtain ⟨hlists, hnext⟩ := failed_lists hreq
    unfold InStepAfter
    dsimp only
    rw [Function.update_self, hlists]
    exact ⟨hin, hnext.trans (Nat.succ_le_succ hseq)⟩
  rw [Sys.answer]
  split
  · rename_i fs hcall
    split
    · have hok := hin.ok (by omega) hreq hcall
      have hnext := nameseq_ok hreq
      unfold InStepAfter Sys.withThread
      dsimp only
      rw [Function.update_self]
      exact ⟨hok, hnext.trans (Nat.succ_le_succ hseq)⟩
    · exact hfail
  · exact hfail

theorem InStepAfter.step {tr : List Bool} {a : Fin 1 × Act} {b : Bool}
    (h : s.InStepAfter (tr.count true)) (hops : (tr ++ [b]).count true ≤ 2 ^ 63 + 1)
    (hs : s.step linux table a = some (s', b)) : s'.InStepAfter ((tr ++ [b]).count true) := by
  obtain ⟨t, act⟩ := a
  obtain rfl := Subsingleton.elim t 0
  rw [List.count_append] at hops ⊢
  cases act with
  | op ok q =>
    cases hp : (s.threads 0).pending with
    | some p => simp only [Sys.step, hp, reduceCtorEq] at hs
    | none =>
      simp only [Sys.step, hp] at hs
      split at hs
      · cases hs
      · rename_i st hop
        cases hs
        obtain ⟨hlists, hseq⟩ := ThreadState.comes_nextOp hop
        unfold InStepAfter Sys.withThread
        dsimp only
        rw [Function.update_self, hlists, hseq]
        exact ⟨h.1, h.2.trans (Nat.le_add_right _ _)⟩
      · rename_i req hop
        cases hs
        obtain ⟨st, hst, hreq⟩ := ThreadState.comes_nextOp hop
        rw [List.count_singleton_self] at hops ⊢
        exact h.answer (by omega) hst hreq ok
  | note =>
    cases hp : (s.threads 0).pending with
    | none => simp only [Sys.step, hp, reduceCtorEq] at hs
    | some p =>
      simp only [Sys.step, hp] at hs
      cases hs
      unfold InStepAfter Sys.noteCreated Sys.withThread
      dsimp only
      rw [Function.update_self]
      exact ⟨h.1, h.2.trans (Nat.le_add_right _ _)⟩

/-- **The lists of a thread that is alone agree with the tree** in every state of a run of up to
`2 ^ 63 + 1` operations. -/
theorem run_agrees {rng : ℕ → UInt32} {tr : List Bool}
    (hrun : Labelled.Run (step linux table) (fun _ _ => True) (start fun (_ : Fin 1) => rng) tr s)
    (hops : tr.count true ≤ 2 ^ 63 + 1) : Agrees (s.threads 0).st.lists s.fs.tree := by
  have hinv := hrun.invariant
    (I := fun tr s => tr.count true ≤ 2 ^ 63 + 1 → s.InStepAfter (tr.count true))
    (fun _ => ⟨inStep_start, Nat.le_refl 0⟩) fun tr s a s' e _ ih _ hs hle => by
      refine InStepAfter.step (ih ?_) hle hs
      rw [List.count_append] at hle
      exact (Nat.le_add_right _ _).trans hle
  exact (hinv hops).1.agrees

/-- A directory and a directory in it. -/
theorem nested_agrees : ∃ tr, ∃ s : Sys 1,
    Labelled.Run (step true [.mkdir]) (fun _ _ => True) (start fun _ _ => 0) tr s ∧
    ["d0", "d1"] ∈ s.fs.tree ∧ Agrees (s.threads 0).st.lists s.fs.tree := by
  have hrun : (Labelled.execute (step true [.mkdir]) (fun _ _ => True)
      [((0 : Fin 1), .op true ⟨0, 0⟩), (0, .note), (0, .op true ⟨0, 0⟩)]
      (start fun _ _ => 0)).map (fun r => decide (r.1.count true ≤ 2 ^ 63 + 1 ∧
        ["d0", "d1"] ∈ r.2.fs.tree.keys)) = some true := by
    decide +kernel
  obtain ⟨⟨tr, s⟩, hexec, heq⟩ := Option.map_eq_some_iff.mp hrun
  obtain ⟨hops, hdir⟩ := of_decide_eq_true heq
  have h := Labelled.Run.of_execute hexec
  exact ⟨tr, s, h, AList.mem_keys.mpr hdir, run_agrees h hops⟩

/-! ## Ids that are no `i64` -/

/-- The state after `k` operations that have failed. -/
def failing (k : ℕ) : Sys 1 where
  threads := fun _ => ⟨⟨fun _ => 0, k, fun _ => [], k, nofun⟩, none⟩
  fs := ⟨∅, 0⟩
  created := []

theorem failing_step {k : ℕ} (hk : k + 1 < u64Size) :
    (failing k).step true [.mkdir] (0, .op false ⟨0, 0⟩) = some (failing (k + 1), true) := by
  obtain ⟨req, hop, hfailed⟩ : ∃ req, ((failing k).threads 0).st.nextOp true ⟨0, 0⟩ [.mkdir] =
      some (.request req) ∧ req.failed = ((failing (k + 1)).threads 0).st := by
    refine ⟨_, congrArg (Option.map _) (if_pos hk), ?_⟩
    rfl
  have hanswer : (failing k).answer 0 false req = (failing k).withThread 0 ⟨req.failed, none⟩ := by
    rw [Sys.answer]
    split <;> rfl
  have hthreads : (failing k).withThread 0 ⟨req.failed, none⟩ = failing (k + 1) := by
    rw [hfailed]
    unfold Sys.withThread failing
    congr 1
    funext t
    rw [Subsingleton.elim t 0, Function.update_self]
  have hidle : ((failing k).threads 0).pending = none := rfl
  simp only [Sys.step, hidle, hop]
  rw [hanswer, hthreads]

theorem failing_run {k : ℕ} (hk : k < u64Size) :
    Labelled.Run (step true [.mkdir]) (fun _ _ => True) (start fun (_ : Fin 1) _ => 0)
      (List.replicate k true) (failing k) := by
  induction k with
  | zero => exact .nil
  | succ k ih =>
    rw [List.replicate_succ']
    exact (ih (by omega)).snoc trivial (failing_step hk)

/-- After `2 ^ 63` failures a directory is made, and one in it. The list says that both are in the
base. -/
theorem ids_run_out : ∃ tr, ∃ s : Sys 1,
    Labelled.Run (step true [.mkdir]) (fun _ _ => True) (start fun _ _ => 0) tr s ∧
    tr.count true = 2 ^ 63 + 2 ∧ ¬ Agrees (s.threads 0).st.lists s.fs.tree := by
  have hrun : (Labelled.execute (step true [.mkdir]) (fun _ _ => True)
      [((0 : Fin 1), .op true ⟨0, 0⟩), (0, .note), (0, .op true ⟨0, 0⟩)]
      (failing (2 ^ 63))).map (fun r => decide (r.1.count true = 2 ∧
        ["d8000000000000000", "d8000000000000001"] ∈ r.2.fs.tree.keys ∧
        ∀ e ∈ (r.2.threads 0).st.lists.entries, e.2.parent < 0)) = some true := by
    decide +kernel
  obtain ⟨⟨tr, s⟩, hexec, heq⟩ := Option.map_eq_some_iff.mp hrun
  obtain ⟨hops, hdir, hbase⟩ := of_decide_eq_true heq
  refine ⟨_, s, (failing_run (by decide)).trans (Labelled.Run.of_execute hexec), ?_, fun hagrees => ?_⟩
  · rw [List.count_append, List.count_replicate_self, hops]
  · obtain ⟨e, he, hpath⟩ := List.mem_map.mp ((hagrees.image _).mp (AList.mem_keys.mpr hdir))
    rw [Lists.fentToName_base (hbase e he)] at hpath
    exact absurd (congrArg List.length hpath) (by simp)

end Sys

end Fstest.Fsstress
