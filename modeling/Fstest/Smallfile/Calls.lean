import Fstest.Lib.Bytes
import Fstest.Lib.NameTree

/-!
# The calls of smallfile

The calls that a suite makes, on a tree of names whose leaves are the contents of files. A file that
is open is known by its path: a thread does one thing after the other, so it neither renames nor
removes a file that it has open.

A call looks at the paths that it names and changes no others (`lookup_apply`), and it does the same
in trees that agree on what it looks at (`apply_congr`).
-/

namespace Fstest.Smallfile

open NameTree

inductive Call where
  | mkdir (p : Path)
  | rmdir (p : Path)
  | unlink (p : Path)
  | rename (src dest : Path)
  | stat (p : Path)
  | createNew (p : Path)
  | openFile (p : Path) (truncate : Bool)
  | seekEnd (p : Path)
  | write (p : Path) (pos : ℕ) (data : Bytes)
  | read (p : Path) (pos n : ℕ)

/-- What a call that succeeds returns. -/
inductive Answer where
  | done
  | dir
  | file
  | size (n : ℕ)
  | data (b : Bytes)
  deriving DecidableEq

namespace Answer

def bytes : Answer → Bytes
  | data b => b
  | _ => []

def length : Answer → ℕ
  | size n => n
  | _ => 0

end Answer

abbrev Reply := Except FsError Answer

namespace Call

def paths : Call → List Path
  | mkdir p | rmdir p | unlink p | stat p | createNew p | openFile p _ | seekEnd p | write p _ _
  | read p _ _ => [p]
  | rename src dest => [src, dest]

end Call

/-- A rename of a file. As no call makes a second name for a file, two names are two files. -/
def move (t : NameTree Bytes) (src dest : Path) : Except FsError (NameTree Bytes) :=
  match leafAt t src with
  | .error e => .error e
  | .ok a =>
    match find t dest with
    | .error e => .error e
    | .ok (some .dir) => .error .isDir
    | .ok _ => if src = dest then .ok t else .ok ((t.erase src).insert dest (.leaf a))

/-- The end of a call that changes the tree, or fails. -/
def settle (t : NameTree Bytes) : Except FsError (NameTree Bytes) → Reply × NameTree Bytes
  | .ok t' => (.ok .done, t')
  | .error e => (.error e, t)

/-- A call on a file. -/
def onFile (t : NameTree Bytes) (p : Path) (f : Bytes → Answer × NameTree Bytes) :
    Reply × NameTree Bytes :=
  match leafAt t p with
  | .ok a => (.ok (f a).1, (f a).2)
  | .error e => (.error e, t)

def apply : Call → NameTree Bytes → Reply × NameTree Bytes
  | .mkdir p, t => settle t (add t p .dir)
  | .rmdir p, t => settle t (rmdir t p)
  | .unlink p, t => settle t (unlink t p)
  | .rename src dest, t => settle t (move t src dest)
  | .stat p, t =>
    match find t p with
    | .error e => (.error e, t)
    | .ok none => (.error .noEnt, t)
    | .ok (some .dir) => (.ok .dir, t)
    | .ok (some (.leaf _)) => (.ok .file, t)
  | .createNew p, t => settle t (add t p (.leaf []))
  | .openFile p truncate, t =>
    onFile t p fun _ => (.done, if truncate then t.insert p (.leaf []) else t)
  | .seekEnd p, t => onFile t p fun a => (.size a.length, t)
  | .write p pos data, t => onFile t p fun a => (.done, t.insert p (.leaf (overwrite a pos data)))
  | .read p pos n, t => onFile t p fun a => (.data ((a.drop pos).take n), t)

variable {t t' : NameTree Bytes} {p q src dest : Path}

/-! ## What a call changes -/

theorem move_ok (h : move t src dest = .ok t') : ∃ a, t.lookup src = some (.leaf a) ∧
    dest ≠ [] ∧ IsDir t dest.dropLast ∧ t.lookup dest ≠ some .dir ∧
    (t' = t ∨ t' = (t.erase src).insert dest (.leaf a)) := by
  rw [move] at h
  split at h
  · cases h
  · rename_i a ha
    refine ⟨a, leafAt_ok ha, ?_⟩
    split at h
    · cases h
    · cases h
    · rename_i o hne hf
      obtain ⟨hd, hparent, hlook⟩ := of_find hf hne
      refine ⟨hd, hparent, hlook ▸ hne, ?_⟩
      split at h
      · exact .inl (Except.ok.inj h).symm
      · exact .inr (Except.ok.inj h).symm

theorem lookup_settle {r : Except FsError (NameTree Bytes)}
    (h : ∀ t', r = .ok t' → t'.lookup q = t.lookup q) : (settle t r).2.lookup q = t.lookup q := by
  cases r with
  | error e => rfl
  | ok t' => exact h t' rfl

theorem lookup_onFile {f : Bytes → Answer × NameTree Bytes}
    (h : ∀ a, (f a).2.lookup q = t.lookup q) : (onFile t p f).2.lookup q = t.lookup q := by
  rw [onFile]
  split
  · exact h _
  · rfl

/-- **A call changes no path but those that it names.** -/
theorem lookup_apply {c : Call} (h : q ∉ c.paths) : (apply c t).2.lookup q = t.lookup q := by
  cases c with
  | mkdir p =>
    refine lookup_settle fun t' ht => ?_
    obtain ⟨-, -, -, rfl⟩ := add_ok ht
    exact AList.lookup_insert_ne (List.ne_of_not_mem_cons h)
  | createNew p =>
    refine lookup_settle fun t' ht => ?_
    obtain ⟨-, -, -, rfl⟩ := add_ok ht
    exact AList.lookup_insert_ne (List.ne_of_not_mem_cons h)
  | rmdir p =>
    refine lookup_settle fun t' ht => ?_
    obtain ⟨-, -, rfl⟩ := rmdir_ok ht
    exact AList.lookup_erase_ne (List.ne_of_not_mem_cons h)
  | unlink p =>
    refine lookup_settle fun t' ht => ?_
    obtain ⟨-, rfl⟩ := unlink_ok ht
    exact AList.lookup_erase_ne (List.ne_of_not_mem_cons h)
  | rename src dest =>
    refine lookup_settle fun t' ht => ?_
    obtain ⟨a, -, -, -, -, rfl | rfl⟩ := move_ok ht
    · rfl
    · rw [AList.lookup_insert_ne (List.ne_of_not_mem_cons (List.not_mem_of_not_mem_cons h)),
        AList.lookup_erase_ne (List.ne_of_not_mem_cons h)]
  | stat p =>
    rw [apply]
    split <;> rfl
  | openFile p truncate =>
    refine lookup_onFile fun _ => ?_
    split
    · exact AList.lookup_insert_ne (List.ne_of_not_mem_cons h)
    · rfl
  | seekEnd p => exact lookup_onFile fun _ => rfl
  | write p pos data =>
    exact lookup_onFile fun _ => AList.lookup_insert_ne (List.ne_of_not_mem_cons h)
  | read p pos n => exact lookup_onFile fun _ => rfl

theorem rooted_settle {r : Except FsError (NameTree Bytes)} (ht : Rooted t)
    (h : ∀ t', r = .ok t' → Rooted t') : Rooted (settle t r).2 := by
  cases r with
  | error e => exact ht
  | ok t' => exact h t' rfl

theorem rooted_onFile {f : Bytes → Answer × NameTree Bytes} (ht : Rooted t)
    (h : ∀ a, t.lookup p = some (.leaf a) → Rooted (f a).2) : Rooted (onFile t p f).2 := by
  rw [onFile]
  split
  · rename_i a ha
    exact h a (leafAt_ok ha)
  · exact ht

theorem rooted_move (ht : Rooted t) (h : move t src dest = .ok t') : Rooted t' := by
  obtain ⟨a, ha, hdest, hdir, hlook, rfl | rfl⟩ := move_ok h
  · exact ht
  · refine Rooted.insert (ht.erase (ht.not_hasChild_leaf ha)) hdest ?_ fun hdir' => ?_
    · refine hdir.erase fun heq => ?_
      rcases hdir with hnil | hdir
      · exact (ht src (mem_of_lookup ha)).1 (heq.symm.trans hnil)
      · rw [heq, ha] at hdir
        cases hdir
    · by_cases heq : dest = src
      · rw [heq, AList.lookup_erase] at hdir'
        cases hdir'
      · rw [AList.lookup_erase_ne heq] at hdir'
        exact absurd hdir' hlook

/-- New contents of a file. -/
theorem rooted_insert_leaf {a b : Bytes} (ht : Rooted t) (ha : t.lookup p = some (.leaf a)) :
    Rooted (t.insert p (.leaf b)) := by
  have hp := ht p (mem_of_lookup ha)
  exact Rooted.insert ht hp.1 hp.2 fun hdir => absurd (ha.symm.trans hdir) (by simp)

theorem rooted_apply (ht : Rooted t) (c : Call) : Rooted (apply c t).2 := by
  cases c with
  | mkdir p => exact rooted_settle ht fun _ h => ht.add h
  | createNew p => exact rooted_settle ht fun _ h => ht.add h
  | rmdir p => exact rooted_settle ht fun _ h => ht.rmdir h
  | unlink p => exact rooted_settle ht fun _ h => ht.unlink h
  | rename src dest => exact rooted_settle ht fun _ h => rooted_move ht h
  | stat p =>
    rw [apply]
    split <;> exact ht
  | openFile p truncate =>
    refine rooted_onFile ht fun a ha => ?_
    split
    · exact rooted_insert_leaf ht ha
    · exact ht
  | seekEnd p => exact rooted_onFile ht fun _ _ => ht
  | write p pos data => exact rooted_onFile ht fun _ ha => rooted_insert_leaf ht ha
  | read p pos n => exact rooted_onFile ht fun _ _ => ht

/-! ## Calls that succeed, and calls that find nothing -/

/-- The tree is rooted and has nothing new but `node` at `p`. -/
structure Becomes (t : NameTree Bytes) (p : Path) (node : Option (Node Bytes)) (t' : NameTree Bytes) :
    Prop where
  rooted : Rooted t'
  lookup : ∀ q, t'.lookup q = if q = p then node else t.lookup q

theorem Becomes.lookup_self {node : Option (Node Bytes)} (h : Becomes t p node t') :
    t'.lookup p = node :=
  (h.lookup p).trans (if_pos rfl)

theorem Becomes.lookup_ne {node : Option (Node Bytes)} (h : Becomes t p node t') (hq : q ≠ p) :
    t'.lookup q = t.lookup q :=
  (h.lookup q).trans (if_neg hq)

theorem Becomes.trans {node node' : Option (Node Bytes)} {t'' : NameTree Bytes}
    (h : Becomes t p node t') (h' : Becomes t' p node' t'') : Becomes t p node' t'' where
  rooted := h'.rooted
  lookup q := by
    rw [h'.lookup, h.lookup]
    split <;> rfl

theorem Becomes.refl {node : Option (Node Bytes)} (ht : Rooted t) (h : t.lookup p = node) :
    Becomes t p node t where
  rooted := ht
  lookup q := by
    split
    · rename_i heq
      rw [heq, h]
    · rfl

theorem becomes_insert {node : Node Bytes} (h : Rooted (t.insert p node)) :
    Becomes t p (some node) (t.insert p node) where
  rooted := h
  lookup q := by
    split
    · rename_i heq
      rw [heq, AList.lookup_insert]
    · rename_i hne
      rw [AList.lookup_insert_ne hne]

theorem becomes_erase (h : Rooted (t.erase p)) : Becomes t p none (t.erase p) where
  rooted := h
  lookup q := by
    split
    · rename_i heq
      rw [heq, AList.lookup_erase]
    · rename_i hne
      rw [AList.lookup_erase_ne hne]

theorem find_of_lookup {node : Node Bytes} (ht : Rooted t) (h : t.lookup p = some node) :
    find t p = .ok (some node) := by
  have hp := ht p (mem_of_lookup h)
  rw [ht.find hp.1 hp.2, h]

theorem find_of_isDir (ht : Rooted t) (h : IsDir t p) : find t p = .ok (some .dir) := by
  rcases h with rfl | h
  · rfl
  · exact find_of_lookup ht h

/-- A new directory or file. -/
theorem add_spec (node : Node Bytes) (ht : Rooted t) (hp : p ≠ []) (hdir : IsDir t p.dropLast)
    (hnone : t.lookup p = none) : ∃ t', add t p node = .ok t' ∧ Becomes t p (some node) t' := by
  have hadd : add t p node = .ok (t.insert p node) := by
    rw [add, ht.find hp hdir, hnone]
  exact ⟨_, hadd, becomes_insert (ht.add hadd)⟩

theorem unlink_spec {a : Bytes} (ht : Rooted t) (h : t.lookup p = some (.leaf a)) :
    ∃ t', unlink t p = .ok t' ∧ Becomes t p none t' := by
  have hunlink : unlink t p = .ok (t.erase p) := by
    rw [unlink, find_of_lookup ht h]
  exact ⟨_, hunlink, becomes_erase (ht.unlink hunlink)⟩

theorem rmdir_spec (ht : Rooted t) (h : t.lookup p = some .dir) (hchild : ¬ HasChild t p) :
    ∃ t', rmdir t p = .ok t' ∧ Becomes t p none t' := by
  have hrmdir : rmdir t p = .ok (t.erase p) := by
    rw [rmdir, find_of_lookup ht h]
    exact (if_neg (ht p (mem_of_lookup h)).1).trans (if_neg hchild)
  exact ⟨_, hrmdir, becomes_erase (ht.rmdir hrmdir)⟩

theorem rmdir_notEmpty (ht : Rooted t) (h : t.lookup p = some .dir) (hchild : HasChild t p) :
    rmdir t p = .error .notEmpty := by
  rw [rmdir, find_of_lookup ht h]
  exact (if_neg (ht p (mem_of_lookup h)).1).trans (if_pos hchild)

theorem leafAt_spec {a : Bytes} (ht : Rooted t) (h : t.lookup p = some (.leaf a)) :
    leafAt t p = .ok a := by
  rw [leafAt, find_of_lookup ht h]

theorem onFile_spec {a : Bytes} (ht : Rooted t) (h : t.lookup p = some (.leaf a))
    (f : Bytes → Answer × NameTree Bytes) : onFile t p f = (.ok (f a).1, (f a).2) := by
  rw [onFile, leafAt_spec ht h]

theorem openFile_keeps {a : Bytes} (ht : Rooted t) (h : t.lookup p = some (.leaf a)) :
    apply (.openFile p false) t = (.ok .done, t) := by
  rw [apply, onFile_spec ht h]
  rfl

theorem seekEnd_spec {a : Bytes} (ht : Rooted t) (h : t.lookup p = some (.leaf a)) :
    apply (.seekEnd p) t = (.ok (.size a.length), t) := by
  rw [apply, onFile_spec ht h]

theorem move_spec {a : Bytes} (ht : Rooted t) (hsrc : t.lookup src = some (.leaf a)) (hdest : dest ≠ [])
    (hdir : IsDir t dest.dropLast) (hnone : t.lookup dest = none) :
    ∃ t' t'', move t src dest = .ok t'' ∧ Becomes t src none t' ∧
      Becomes t' dest (some (.leaf a)) t'' := by
  have hne : src ≠ dest := fun heq => by
    rw [heq, hnone] at hsrc
    cases hsrc
  have hmove : move t src dest = .ok ((t.erase src).insert dest (.leaf a)) := by
    rw [move, leafAt_spec ht hsrc, ht.find hdest hdir, hnone]
    exact if_neg hne
  exact ⟨_, _, hmove, becomes_erase (ht.erase (ht.not_hasChild_leaf hsrc)),
    becomes_insert (rooted_move ht hmove)⟩

/-! ## What a call looks at -/

section

variable {S : Path → Prop}

theorem settle_congr {r r' : Except FsError (NameTree Bytes)} (ht : Agree S t t')
    (h : AgreeAfter S r r') :
    (settle t r).1 = (settle t' r').1 ∧ Agree S (settle t r).2 (settle t' r').2 := by
  cases h with
  | error e => exact ⟨rfl, ht⟩
  | ok h => exact ⟨rfl, h⟩

theorem onFile_congr {f f' : Bytes → Answer × NameTree Bytes} (ht : Agree S t t') (hp : Covers S p)
    (h : ∀ a, (f a).1 = (f' a).1 ∧ Agree S (f a).2 (f' a).2) :
    (onFile t p f).1 = (onFile t' p f').1 ∧ Agree S (onFile t p f).2 (onFile t' p f').2 := by
  rw [onFile, onFile, ht.leafAt hp]
  split
  · exact ⟨congrArg Except.ok (h _).1, (h _).2⟩
  · exact ⟨rfl, ht⟩

theorem move_congr (ht : Agree S t t') (hsrc : Covers S src) (hdest : Covers S dest) :
    AgreeAfter S (move t src dest) (move t' src dest) := by
  rw [move, move, ht.leafAt hsrc, ht.find hdest]
  split
  · exact .error _
  · split
    · exact .error _
    · exact .error _
    · split
      · exact .ok ht
      · exact .ok ((ht.erase src).insert dest _)

/-- **A call does the same in trees that agree on what it looks at.** -/
theorem apply_congr {c : Call} (ht : Agree S t t') (hc : ∀ p ∈ c.paths, Covers S p) :
    (apply c t).1 = (apply c t').1 ∧ Agree S (apply c t).2 (apply c t').2 := by
  cases c with
  | mkdir p => exact settle_congr ht (ht.add (hc p (List.mem_singleton_self p)))
  | createNew p => exact settle_congr ht (ht.add (hc p (List.mem_singleton_self p)))
  | rmdir p => exact settle_congr ht (ht.rmdir (hc p (List.mem_singleton_self p)))
  | unlink p => exact settle_congr ht (ht.unlink (hc p (List.mem_singleton_self p)))
  | rename src dest =>
    exact settle_congr ht (move_congr ht (hc src List.mem_cons_self)
      (hc dest (List.mem_cons_of_mem _ (List.mem_singleton_self dest))))
  | stat p =>
    rw [apply, apply, ht.find (hc p (List.mem_singleton_self p))]
    split <;> exact ⟨rfl, ht⟩
  | openFile p truncate =>
    refine onFile_congr ht (hc p (List.mem_singleton_self p)) fun _ => ⟨rfl, ?_⟩
    cases truncate
    · exact ht
    · exact ht.insert p _
  | seekEnd p => exact onFile_congr ht (hc p (List.mem_singleton_self p)) fun _ => ⟨rfl, ht⟩
  | write p pos data =>
    exact onFile_congr ht (hc p (List.mem_singleton_self p)) fun _ => ⟨rfl, ht.insert p _⟩
  | read p pos n => exact onFile_congr ht (hc p (List.mem_singleton_self p)) fun _ => ⟨rfl, ht⟩

end

end Fstest.Smallfile
