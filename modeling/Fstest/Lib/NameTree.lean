import Fstest.Lib.Path
import Mathlib.Data.List.AList
import Mathlib.Data.List.Induction

/-!
# A tree of names

The part of a file system below one directory: what each path leads to. Paths are relative to that
directory, which is the empty path and is always there. Directories are told from everything else, the
leaves; what a leaf is, is the parameter `α`, and two names of one file carry the same leaf.

The calls answer as POSIX says, with the error they fail with. `Rooted` is the invariant that the
parent of everything that exists is a directory.
-/

namespace Fstest

inductive Node (α : Type) where
  | dir
  | leaf (a : α)
  deriving DecidableEq, Repr

inductive FsError where
  | noEnt
  | acces
  | exist
  | notDir
  | isDir
  | notEmpty
  | busy
  | loop
  deriving DecidableEq, Repr

abbrev NameTree (α : Type) := AList fun _ : Path => Node α

namespace NameTree

variable {α : Type}

def IsDir (t : NameTree α) (p : Path) : Prop := p = [] ∨ t.lookup p = some .dir

def HasChild (t : NameTree α) (p : Path) : Prop := ∃ q ∈ t.keys, q ≠ [] ∧ q.dropLast = p

instance (t : NameTree α) (p : Path) : Decidable (HasChild t p) :=
  inferInstanceAs (Decidable (∃ q ∈ t.keys, q ≠ [] ∧ q.dropLast = p))

/-! ## Calls -/

/-- The components `rest` are looked up from the directory `seen` on; each has to be a directory. -/
def walk (t : NameTree α) : (seen rest : Path) → Except FsError Unit
  | _, [] => .ok ()
  | seen, n :: rest =>
    match t.lookup (seen ++ [n]) with
    | none => .error .noEnt
    | some (.leaf _) => .error .notDir
    | some .dir => walk t (seen ++ [n]) rest

/-- What a path leads to, if anything. All but the last component have to be directories. -/
def find (t : NameTree α) (p : Path) : Except FsError (Option (Node α)) :=
  match walk t [] p.dropLast with
  | .error e => .error e
  | .ok () => .ok (if p = [] then some .dir else t.lookup p)

/-- A new name. It fails if the name exists. -/
def add (t : NameTree α) (p : Path) (node : Node α) : Except FsError (NameTree α) :=
  match find t p with
  | .error e => .error e
  | .ok (some _) => .error .exist
  | .ok none => .ok (t.insert p node)

def unlink (t : NameTree α) (p : Path) : Except FsError (NameTree α) :=
  match find t p with
  | .error e => .error e
  | .ok none => .error .noEnt
  | .ok (some .dir) => .error .isDir
  | .ok (some (.leaf _)) => .ok (t.erase p)

def rmdir (t : NameTree α) (p : Path) : Except FsError (NameTree α) :=
  match find t p with
  | .error e => .error e
  | .ok none => .error .noEnt
  | .ok (some (.leaf _)) => .error .notDir
  | .ok (some .dir) =>
    if p = [] then .error .busy
    else if HasChild t p then .error .notEmpty
    else .ok (t.erase p)

/-- The leaf that a path leads to. -/
def leafAt (t : NameTree α) (p : Path) : Except FsError α :=
  match find t p with
  | .error e => .error e
  | .ok none => .error .noEnt
  | .ok (some .dir) => .error .isDir
  | .ok (some (.leaf a)) => .ok a

def link (t : NameTree α) (src dest : Path) : Except FsError (NameTree α) :=
  match leafAt t src with
  | .error e => .error e
  | .ok a => add t dest (.leaf a)

/-- A rename of something that is no directory. Of two names of one file, neither goes. -/
def rename [DecidableEq α] (t : NameTree α) (src dest : Path) : Except FsError (NameTree α) :=
  match leafAt t src with
  | .error e => .error e
  | .ok a =>
    match find t dest with
    | .error e => .error e
    | .ok (some .dir) => .error .isDir
    | .ok none => .ok ((t.erase src).insert dest (.leaf a))
    | .ok (some (.leaf b)) => if b = a then .ok t else .ok ((t.erase src).insert dest (.leaf a))

section

variable {t t' : NameTree α} {p q : Path} {node : Node α} {a : α}

/-! ## Lookups -/

theorem lookup_of_walk {seen rest : Path} (h : walk t seen rest = .ok ()) (hr : rest ≠ []) :
    t.lookup (seen ++ rest) = some .dir := by
  induction rest generalizing seen with
  | nil => exact absurd rfl hr
  | cons n rest ih =>
    rw [walk] at h
    split at h
    · cases h
    · cases h
    · rename_i hdir
      cases rest with
      | nil => exact hdir
      | cons m rest =>
        rw [List.append_cons]
        exact ih h (List.cons_ne_nil _ _)

theorem isDir_of_walk (h : walk t [] p = .ok ()) : IsDir t p := by
  by_cases hp : p = []
  · exact .inl hp
  · exact .inr (lookup_of_walk h hp)

/-- What has been looked up is in the tree, and its parent is a directory. -/
theorem of_find {o : Option (Node α)} (h : find t p = .ok o) (ho : o ≠ some .dir) :
    p ≠ [] ∧ IsDir t p.dropLast ∧ t.lookup p = o := by
  rw [find] at h
  split at h
  · cases h
  · rename_i hw
    have ho' := Except.ok.inj h
    by_cases hp : p = []
    · rw [if_pos hp] at ho'
      exact absurd ho'.symm ho
    · rw [if_neg hp] at ho'
      exact ⟨hp, isDir_of_walk hw, ho'⟩

/-! ## What the calls do -/

theorem add_ok (h : add t p node = .ok t') :
    p ≠ [] ∧ IsDir t p.dropLast ∧ p ∉ t ∧ t' = t.insert p node := by
  rw [add] at h
  split at h
  · cases h
  · cases h
  · rename_i hf
    obtain ⟨hp, hdir, hnone⟩ := of_find hf nofun
    exact ⟨hp, hdir, AList.lookup_eq_none.mp hnone, (Except.ok.inj h).symm⟩

theorem unlink_ok (h : unlink t p = .ok t') : (∃ a, t.lookup p = some (.leaf a)) ∧ t' = t.erase p := by
  rw [unlink] at h
  split at h
  · cases h
  · cases h
  · cases h
  · rename_i a hf
    exact ⟨⟨a, (of_find hf nofun).2.2⟩, (Except.ok.inj h).symm⟩

theorem rmdir_ok (h : rmdir t p = .ok t') :
    t.lookup p = some .dir ∧ ¬ HasChild t p ∧ t' = t.erase p := by
  rw [rmdir] at h
  split at h
  · cases h
  · cases h
  · cases h
  · rename_i hf
    split at h
    · cases h
    · rename_i hp
      split at h
      · cases h
      · rename_i hchild
        rw [find] at hf
        split at hf
        · cases hf
        · rw [if_neg hp] at hf
          exact ⟨Except.ok.inj hf, hchild, (Except.ok.inj h).symm⟩

theorem leafAt_ok (h : leafAt t p = .ok a) : t.lookup p = some (.leaf a) := by
  rw [leafAt] at h
  split at h
  · cases h
  · cases h
  · cases h
  · rename_i b hf
    cases h
    exact (of_find hf nofun).2.2

theorem link_ok (h : link t p q = .ok t') : ∃ a, t.lookup p = some (.leaf a) ∧
    q ≠ [] ∧ IsDir t q.dropLast ∧ q ∉ t ∧ t' = t.insert q (.leaf a) := by
  rw [link] at h
  split at h
  · cases h
  · rename_i a ha
    exact ⟨a, leafAt_ok ha, add_ok h⟩

theorem rename_ok [DecidableEq α] (h : rename t p q = .ok t') : ∃ a, t.lookup p = some (.leaf a) ∧
    q ≠ [] ∧ IsDir t q.dropLast ∧ t.lookup q ≠ some .dir ∧
    (t.lookup q = some (.leaf a) ∧ t' = t ∨
      t.lookup q ≠ some (.leaf a) ∧ t' = (t.erase p).insert q (.leaf a)) := by
  rw [rename] at h
  split at h
  · cases h
  · rename_i a ha
    refine ⟨a, leafAt_ok ha, ?_⟩
    split at h
    · cases h
    · cases h
    · rename_i hf
      obtain ⟨hq, hdir, hnone⟩ := of_find hf nofun
      rw [hnone]
      exact ⟨hq, hdir, nofun, .inr ⟨nofun, (Except.ok.inj h).symm⟩⟩
    · rename_i b hf
      obtain ⟨hq, hdir, hleaf⟩ := of_find hf nofun
      rw [hleaf]
      refine ⟨hq, hdir, nofun, ?_⟩
      split at h
      · rename_i hba
        exact .inl ⟨by rw [hba], (Except.ok.inj h).symm⟩
      · rename_i hba
        exact .inr ⟨fun heq => hba (by injection heq with heq; injection heq), (Except.ok.inj h).symm⟩

/-! ## Rooted trees -/

/-- The parent of everything that exists is a directory. -/
def Rooted (t : NameTree α) : Prop := ∀ p ∈ t, p ≠ [] ∧ IsDir t p.dropLast

theorem rooted_empty : Rooted (∅ : NameTree α) := fun _ hp => absurd hp (AList.notMem_empty _)

theorem hasChild_iff : HasChild t p ↔ ∃ n, p ++ [n] ∈ t := by
  constructor
  · rintro ⟨q, hq, hne, rfl⟩
    exact ⟨q.getLast hne, by rwa [List.dropLast_concat_getLast]⟩
  · rintro ⟨n, hn⟩
    exact ⟨_, hn, List.append_ne_nil_of_right_ne_nil _ (List.cons_ne_nil _ _), List.dropLast_concat⟩

theorem mem_of_lookup (h : t.lookup p = some node) : p ∈ t :=
  AList.lookup_isSome.mp (by rw [h]; rfl)

theorem IsDir.insert (h : IsDir t p) (hq : t.lookup q = some .dir → node = .dir) :
    IsDir (t.insert q node) p := by
  rcases h with rfl | h
  · exact .inl rfl
  · by_cases hpq : p = q
    · subst hpq
      exact .inr (by rw [AList.lookup_insert, hq h])
    · exact .inr (by rw [AList.lookup_insert_ne hpq, h])

theorem IsDir.erase (h : IsDir t p) (hpq : p ≠ q) : IsDir (t.erase q) p := by
  rcases h with rfl | h
  · exact .inl rfl
  · exact .inr (by rw [AList.lookup_erase_ne hpq, h])

theorem Rooted.insert (h : Rooted t) (hq : q ≠ []) (hdir : IsDir t q.dropLast)
    (hnode : t.lookup q = some .dir → node = .dir) : Rooted (t.insert q node) := by
  intro p hp
  rcases (AList.mem_insert t).mp hp with rfl | hp
  · exact ⟨hq, hdir.insert hnode⟩
  · exact ⟨(h p hp).1, (h p hp).2.insert hnode⟩

theorem Rooted.erase (h : Rooted t) (hq : ¬ HasChild t q) : Rooted (t.erase q) := by
  intro p hp
  obtain ⟨-, hp⟩ := AList.mem_erase.mp hp
  refine ⟨(h p hp).1, (h p hp).2.erase fun heq => hq ⟨p, hp, (h p hp).1, heq⟩⟩

theorem Rooted.not_hasChild_leaf (h : Rooted t) (hp : t.lookup p = some (.leaf a)) :
    ¬ HasChild t p := by
  rintro ⟨q, hq, hne, rfl⟩
  rcases (h q hq).2 with hnil | hdir
  · rw [hnil] at hp
    exact absurd rfl (h [] (mem_of_lookup hp)).1
  · rw [hp] at hdir
    cases hdir

theorem Rooted.add (h : Rooted t) (ht : NameTree.add t p node = .ok t') : Rooted t' := by
  obtain ⟨hp, hdir, hnew, rfl⟩ := add_ok ht
  refine Rooted.insert h hp hdir fun hlook => ?_
  exact absurd (mem_of_lookup hlook) hnew

theorem Rooted.unlink (h : Rooted t) (ht : NameTree.unlink t p = .ok t') : Rooted t' := by
  obtain ⟨⟨a, ha⟩, rfl⟩ := unlink_ok ht
  exact Rooted.erase h (h.not_hasChild_leaf ha)

theorem Rooted.rmdir (h : Rooted t) (ht : NameTree.rmdir t p = .ok t') : Rooted t' := by
  obtain ⟨-, hchild, rfl⟩ := rmdir_ok ht
  exact Rooted.erase h hchild

theorem Rooted.link (h : Rooted t) (ht : NameTree.link t p q = .ok t') : Rooted t' := by
  obtain ⟨a, -, hq, hdir, hnew, rfl⟩ := link_ok ht
  exact Rooted.insert h hq hdir fun hlook => absurd (mem_of_lookup hlook) hnew

theorem Rooted.rename [DecidableEq α] (h : Rooted t) (ht : NameTree.rename t p q = .ok t') :
    Rooted t' := by
  obtain ⟨a, ha, hq, hdir, hleaf, hcases⟩ := rename_ok ht
  rcases hcases with ⟨-, rfl⟩ | ⟨-, rfl⟩
  · exact h
  · refine Rooted.insert (Rooted.erase h (h.not_hasChild_leaf ha)) hq ?_ ?_
    · refine hdir.erase fun heq => ?_
      rcases hdir with hnil | hdir
      · exact (h p (mem_of_lookup ha)).1 (heq.symm.trans hnil)
      · rw [heq, ha] at hdir
        cases hdir
    · intro hlook
      by_cases hpq : q = p
      · rw [hpq, AList.lookup_erase] at hlook
        cases hlook
      · rw [AList.lookup_erase_ne hpq] at hlook
        exact absurd hlook hleaf

/-! ## Lookups in a rooted tree -/

theorem Rooted.isDir_prefix (h : Rooted t) (hp : IsDir t p) (hq : q <+: p) : IsDir t q := by
  induction p using List.reverseRecOn with
  | nil => exact .inl (List.prefix_nil.mp hq)
  | append_singleton p n ih =>
    rcases List.prefix_concat_iff.mp hq with rfl | hq
    · exact hp
    · refine ih ?_ hq
      rcases hp with hnil | hdir
      · exact absurd hnil (List.append_ne_nil_of_right_ne_nil _ (List.cons_ne_nil _ _))
      · have := (h _ (mem_of_lookup hdir)).2
        rwa [List.dropLast_concat] at this

theorem walk_of {seen rest : Path}
    (h : ∀ r, r ≠ [] → r <+: rest → t.lookup (seen ++ r) = some .dir) :
    walk t seen rest = .ok () := by
  induction rest generalizing seen with
  | nil => rfl
  | cons n rest ih =>
    rw [walk, h [n] (List.cons_ne_nil _ _) ⟨rest, rfl⟩]
    refine ih fun r hr hpre => ?_
    rw [List.append_assoc]
    exact h ([n] ++ r) (List.cons_ne_nil _ _) (List.cons_prefix_cons.mpr ⟨rfl, hpre⟩)

theorem Rooted.walk (h : Rooted t) (hp : IsDir t p) : walk t [] p = .ok () :=
  walk_of fun _ hr hpre => (h.isDir_prefix hp hpre).resolve_left hr

theorem Rooted.find (h : Rooted t) (hp : p ≠ []) (hdir : IsDir t p.dropLast) :
    find t p = .ok (t.lookup p) := by
  rw [NameTree.find, h.walk hdir]
  exact congrArg _ (if_neg hp)

/-- Where all that there is on the way are directories, a lookup finds the end or nothing. -/
theorem walk_noEnt {seen rest : Path}
    (h : ∀ r, r ≠ [] → r <+: rest → ∀ a, t.lookup (seen ++ r) ≠ some (.leaf a)) :
    NameTree.walk t seen rest = .ok () ∨ NameTree.walk t seen rest = .error .noEnt := by
  induction rest generalizing seen with
  | nil => exact .inl rfl
  | cons n rest ih =>
    rw [NameTree.walk]
    split
    · exact .inr rfl
    · rename_i a hleaf
      exact absurd hleaf (h [n] (List.cons_ne_nil _ _) ⟨rest, rfl⟩ a)
    · refine ih fun r hr hpre => ?_
      rw [List.append_assoc]
      exact h ([n] ++ r) (List.cons_ne_nil _ _) (List.cons_prefix_cons.mpr ⟨rfl, hpre⟩)

/-- A path that leads to nothing, with nothing but directories on the way. -/
theorem find_noEnt (hp : p ≠ []) (hnone : t.lookup p = none)
    (h : ∀ q, q ≠ [] → q <+: p → ∀ a, t.lookup q ≠ some (.leaf a)) :
    NameTree.find t p = .ok none ∨ NameTree.find t p = .error .noEnt := by
  rw [NameTree.find]
  have hwalk : NameTree.walk t [] p.dropLast = .ok () ∨ NameTree.walk t [] p.dropLast = .error .noEnt :=
    walk_noEnt fun r hr hpre => h r hr (hpre.trans (List.dropLast_prefix p))
  rcases hwalk with hw | hw
  · rw [hw]
    exact .inl (congrArg _ ((if_neg hp).trans hnone))
  · rw [hw]
    exact .inr rfl

/-! ## Trees that agree on a set of paths -/

/-- The set has what a call on `p` looks at: the way to `p`, and the names right below it. -/
def Covers (S : Path → Prop) (p : Path) : Prop := (∀ q, q <+: p → S q) ∧ ∀ n, S (p ++ [n])

def Agree (S : Path → Prop) (t t' : NameTree α) : Prop := ∀ q, S q → t.lookup q = t'.lookup q

/-- Both fail with one error, or both go through and the new trees agree. -/
inductive AgreeAfter (S : Path → Prop) : Except FsError (NameTree α) → Except FsError (NameTree α) → Prop
  | error (e : FsError) : AgreeAfter S (.error e) (.error e)
  | ok {t t' : NameTree α} (h : Agree S t t') : AgreeAfter S (.ok t) (.ok t')

variable {S : Path → Prop}

theorem Agree.insert (h : Agree S t t') (p : Path) (node : Node α) :
    Agree S (t.insert p node) (t'.insert p node) := by
  intro q hq
  by_cases hqp : q = p
  · rw [hqp, AList.lookup_insert, AList.lookup_insert]
  · rw [AList.lookup_insert_ne hqp, AList.lookup_insert_ne hqp, h q hq]

theorem Agree.erase (h : Agree S t t') (p : Path) : Agree S (t.erase p) (t'.erase p) := by
  intro q hq
  by_cases hqp : q = p
  · rw [hqp, AList.lookup_erase, AList.lookup_erase]
  · rw [AList.lookup_erase_ne hqp, AList.lookup_erase_ne hqp, h q hq]

theorem walk_congr {seen rest : Path} (h : ∀ r, r <+: rest → t.lookup (seen ++ r) = t'.lookup (seen ++ r)) :
    NameTree.walk t seen rest = NameTree.walk t' seen rest := by
  induction rest generalizing seen with
  | nil => rfl
  | cons n rest ih =>
    rw [NameTree.walk, NameTree.walk, h [n] ⟨rest, rfl⟩]
    rw [ih fun r hr => ?_]
    rw [List.append_assoc]
    exact h ([n] ++ r) (List.cons_prefix_cons.mpr ⟨rfl, hr⟩)

theorem Agree.find (h : Agree S t t') (hp : Covers S p) : NameTree.find t p = NameTree.find t' p := by
  have hwalk : NameTree.walk t [] p.dropLast = NameTree.walk t' [] p.dropLast :=
    walk_congr fun r hr => h r (hp.1 r (hr.trans (List.dropLast_prefix p)))
  rw [NameTree.find, NameTree.find, hwalk, h p (hp.1 p (List.prefix_refl p))]

theorem Agree.hasChild (h : Agree S t t') (hp : Covers S p) : HasChild t p ↔ HasChild t' p := by
  rw [hasChild_iff, hasChild_iff]
  refine exists_congr fun n => ?_
  rw [← AList.lookup_isSome, ← AList.lookup_isSome, h _ (hp.2 n)]

theorem Agree.add (h : Agree S t t') (hp : Covers S p) :
    AgreeAfter S (NameTree.add t p node) (NameTree.add t' p node) := by
  rw [NameTree.add, NameTree.add, h.find hp]
  split
  · exact .error _
  · exact .error _
  · exact .ok (h.insert p node)

theorem Agree.unlink (h : Agree S t t') (hp : Covers S p) :
    AgreeAfter S (NameTree.unlink t p) (NameTree.unlink t' p) := by
  rw [NameTree.unlink, NameTree.unlink, h.find hp]
  split
  · exact .error _
  · exact .error _
  · exact .error _
  · exact .ok (h.erase p)

theorem Agree.rmdir (h : Agree S t t') (hp : Covers S p) :
    AgreeAfter S (NameTree.rmdir t p) (NameTree.rmdir t' p) := by
  rw [NameTree.rmdir, NameTree.rmdir, h.find hp, if_congr (h.hasChild hp) rfl rfl]
  split
  · exact .error _
  · exact .error _
  · exact .error _
  · split
    · exact .error _
    · split
      · exact .error _
      · exact .ok (h.erase p)

theorem Agree.leafAt (h : Agree S t t') (hp : Covers S p) :
    NameTree.leafAt t p = NameTree.leafAt t' p := by
  rw [NameTree.leafAt, NameTree.leafAt, h.find hp]

/-! ## Removal of a list of paths -/

/-- A file or an empty directory goes; all errors are ignored. -/
def remove (t : NameTree α) (p : Path) : NameTree α :=
  match unlink t p with
  | .ok t' => t'
  | .error _ =>
    match rmdir t p with
    | .ok t' => t'
    | .error _ => t

theorem rooted_remove (h : Rooted t) : Rooted (remove t p) := by
  rw [remove]
  split
  · rename_i hu
    exact h.unlink hu
  · split
    · rename_i hr
      exact h.rmdir hr
    · exact h

theorem mem_of_mem_remove (hq : q ∈ remove t p) : q ∈ t := by
  rw [remove] at hq
  split at hq
  · rename_i hu
    obtain ⟨-, rfl⟩ := unlink_ok hu
    exact (AList.mem_erase.mp hq).2
  · split at hq
    · rename_i hr
      obtain ⟨-, -, rfl⟩ := rmdir_ok hr
      exact (AList.mem_erase.mp hq).2
    · exact hq

/-- What has nothing below it goes. -/
theorem not_mem_remove (h : Rooted t) (hchild : ¬ HasChild t p) : p ∉ remove t p := by
  intro hp
  have hmem := mem_of_mem_remove hp
  have hf := h.find (h p hmem).1 (h p hmem).2
  cases hlook : t.lookup p with
  | none => exact AList.lookup_eq_none.mp hlook hmem
  | some node =>
    cases node with
    | leaf a =>
      have hu : unlink t p = .ok (t.erase p) := by rw [unlink, hf, hlook]
      rw [remove, hu] at hp
      exact (AList.mem_erase.mp hp).1 rfl
    | dir =>
      have hu : unlink t p = .error .isDir := by rw [unlink, hf, hlook]
      have hr : rmdir t p = .ok (t.erase p) := by
        rw [rmdir, hf, hlook]
        exact (if_neg (h p hmem).1).trans (if_neg hchild)
      rw [remove, hu, hr] at hp
      exact (AList.mem_erase.mp hp).1 rfl

/-- **Everything is gone** if the list has all of it, and what is below a path before that path. -/
theorem removeAll_empty {l : List Path} (h : Rooted t) (hall : ∀ p ∈ t, p ∈ l)
    (hbelow : l.Pairwise fun p q => ∀ n, q ≠ p ++ [n]) : l.foldl remove t = ∅ := by
  induction l generalizing t with
  | nil =>
    apply AList.ext
    refine List.eq_nil_iff_forall_not_mem.mpr fun e he => ?_
    exact absurd (hall e.1 (List.mem_map_of_mem he)) List.not_mem_nil
  | cons p l ih =>
    obtain ⟨hp, hl⟩ := List.pairwise_cons.mp hbelow
    refine ih (rooted_remove h) (fun q hq => ?_) hl
    have hchild : ¬ HasChild t p := by
      rw [hasChild_iff]
      rintro ⟨n, hn⟩
      rcases List.mem_cons.mp (hall _ hn) with heq | hmem
      · exact absurd (congrArg List.length heq) (by simp)
      · exact hp _ hmem n rfl
    have hne : q ≠ p := fun heq => not_mem_remove h hchild (heq ▸ hq)
    exact (List.mem_cons.mp (hall q (mem_of_mem_remove hq))).resolve_left hne

end

end NameTree

end Fstest
