import Fstest.Lib.Threads
import Fstest.Smallfile.Calls
import Fstest.Smallfile.Naming

/-!
# A thread's share of the tree

The paths in and below the two directories of a thread are its own (`Worker.Owns`). A thread whose
calls name only such paths sees nothing of the others and the others see nothing of it
(`independent`).

`Worker.Holds` says what there is at the paths of a thread: which directories, and what each file
contains, if it is there. Directories have plain names below those of the thread (`DirLike`), and no
file has (`FileLike`), so that a path is never both.
-/

namespace Fstest.Smallfile

open NameTree

namespace Worker

variable {w : Worker} {s : Side} {q d : Path} {t t' : NameTree Bytes} {n : ℕ}

/-- A path in or below a directory of the thread. -/
def Owns (w : Worker) (q : Path) : Prop := ∃ s, w.tree s <+: q

/-- A path of the thread, or one that leads to it. -/
def Sees (w : Worker) (q : Path) : Prop := (∃ s, q <+: w.tree s) ∨ w.Owns q

def OwnCall (w : Worker) (c : Call) : Prop := ∀ q ∈ c.paths, w.Owns q

theorem Owns.covers (h : w.Owns q) : Covers w.Sees q := by
  obtain ⟨s, hs⟩ := h
  refine ⟨fun r hr => ?_, fun n => .inr ⟨s, hs.trans (List.prefix_append q [n])⟩⟩
  rcases List.prefix_or_prefix_of_prefix hr hs with hle | hge
  · exact .inl ⟨s, hle⟩
  · exact .inr ⟨s, hge⟩

theorem length_tree (w : Worker) (s : Side) : (w.tree s).length = w.p.top.length + 3 := by
  rw [tree, List.length_append, length_base]
  rfl

/-- Two threads of one suite have no path in common. -/
theorem Owns.tid_eq {u v : Worker} (hp : u.p = v.p) (h : u.Owns q) (h' : v.Sees q) : u.tid = v.tid := by
  obtain ⟨s, hs⟩ := h
  have hlen : ∀ s', (u.tree s).length = (v.tree s').length := fun s' => by
    rw [length_tree, length_tree, hp]
  have heq : ∃ s', u.tree s = v.tree s' := by
    rcases h' with ⟨s', hs'⟩ | ⟨s', hs'⟩
    · exact ⟨s', (hs.trans hs').eq_of_length (hlen s')⟩
    · exact ⟨s', (List.prefix_of_prefix_length_le hs hs' (hlen s').le).eq_of_length (hlen s')⟩
  obtain ⟨s', heq⟩ := heq
  have hlabel := (List.append_inj' heq rfl).2
  exact twoDigits_injective (append_left_cancel (List.cons.inj hlabel).1)

/-- **The threads of a suite do not get in each other's way.** -/
theorem independent {ι : Type} {w : ι → Worker} (hp : ∀ t u, (w t).p = (w u).p)
    (htid : ∀ t u, (w t).tid = (w u).tid → t = u) :
    Threads.Independent apply (fun t => Agree (w t).Sees) fun t => (w t).OwnCall where
  equivalence _ := {
    refl := fun _ _ _ => rfl
    symm := fun h q hq => (h q hq).symm
    trans := fun h h' q hq => (h q hq).trans (h' q hq) }
  same _ _ _ _ hc h := apply_congr h fun q hq => (hc q hq).covers
  other t u _ _ hc hne q hq := lookup_apply fun hmem =>
    hne (htid u t (Owns.tid_eq (hp u t) (hc q hmem) hq))

/-! ## Paths of directories and files -/

/-- A directory of the thread, or one that may be below it. -/
def DirLike (w : Worker) (q : Path) : Prop := ∃ s parts, Plain parts ∧ q = w.tree s ++ parts

def FileLike (w : Worker) (q : Path) : Prop :=
  ∃ s parts name, Plain parts ∧ 2 ≤ underscores name ∧ q = w.tree s ++ parts ++ [name]

theorem DirLike.owns (h : w.DirLike q) : w.Owns q := by
  obtain ⟨s, parts, -, rfl⟩ := h
  exact ⟨s, List.prefix_append _ _⟩

theorem FileLike.owns (h : w.FileLike q) : w.Owns q := by
  obtain ⟨s, parts, name, -, -, rfl⟩ := h
  exact ⟨s, by rw [List.append_assoc]; exact List.prefix_append _ _⟩

theorem FileLike.dirLike_dropLast (h : w.FileLike q) : w.DirLike q.dropLast := by
  obtain ⟨s, parts, name, hparts, -, rfl⟩ := h
  exact ⟨s, parts, hparts, List.dropLast_concat⟩

/-- What is on the way from the thread's directory to another one. -/
theorem DirLike.on_way (hd : w.DirLike d) (hq : q <+: d) (hown : w.Owns q) : w.DirLike q := by
  obtain ⟨s, parts, hparts, rfl⟩ := hd
  obtain ⟨s', rest, rfl⟩ := hown
  obtain ⟨more, hmore⟩ := hq
  rw [List.append_assoc] at hmore
  obtain ⟨htree, hrest⟩ := List.append_inj hmore (by rw [length_tree, length_tree])
  exact ⟨s', rest, fun part hp => hparts part (hrest ▸ List.mem_append_left _ hp), rfl⟩

theorem FileLike.not_on_way (hq : w.FileLike q) (hd : w.DirLike d) : ¬ q <+: d := by
  intro hpre
  obtain ⟨s', parts', hparts', heq⟩ := hd.on_way hpre hq.owns
  obtain ⟨s, parts, name, -, hname, rfl⟩ := hq
  rw [List.append_assoc] at heq
  obtain ⟨-, hlast⟩ := List.append_inj heq (by rw [length_tree, length_tree])
  have hone := hparts' name (hlast ▸ List.mem_append_right _ (List.mem_singleton_self name))
  omega

theorem FileLike.not_dirLike (hq : w.FileLike q) : ¬ w.DirLike q := fun hd =>
  hq.not_on_way hd (List.prefix_refl q)

theorem Ready.fileLike_mkFileNm (h : w.Ready) (s : Side) (n : ℕ) : w.FileLike (w.mkFileNm s n) := by
  refine ⟨s, w.dir n, w.fileName n, h.plain_dir n, ?_, h.mkFileNm_eq s n⟩
  have := underscores_fileName (w := w) n
  omega

theorem Ready.dirLike_subdir (h : w.Ready) (hd : d ∈ w.subdirs s) : w.DirLike d := by
  obtain ⟨parts, hparts, rfl⟩ := h.of_mem_subdirs hd
  exact ⟨s, parts, hparts, rfl⟩

/-- What is on the way to a directory: the way to the base directory, and then the thread's own. -/
theorem DirLike.way (hd : w.DirLike d) (hq : q <+: d) : (∃ s : Side, q <+: s.base w.p.toParams) ∨ w.Owns q := by
  obtain ⟨s, parts, -, rfl⟩ := hd
  rcases List.prefix_or_prefix_of_prefix hq (List.prefix_append (w.tree s) parts) with hle | hge
  · rcases List.prefix_concat_iff.mp hle with rfl | hle
    · exact .inr ⟨s, List.prefix_refl _⟩
    · exact .inl ⟨s, hle⟩
  · exact .inr ⟨s, hge⟩

/-! ## What a thread has -/

def InRange (w : Worker) (n : ℕ) : Prop := 1 ≤ n ∧ n ≤ w.p.iterations

/-- The directories are those in `D`, and the file with number `n` on side `s` has the contents
`c s n`, if any. -/
structure Has (w : Worker) (D : Path → Prop) (c : Side → ℕ → Option Bytes) (t : NameTree Bytes) :
    Prop where
  dir : ∀ q, D q → t.lookup q = some .dir
  file : ∀ s n, w.InRange n → t.lookup (w.mkFileNm s n) = (c s n).map .leaf
  other : ∀ q, w.Owns q → ¬ D q → (∀ s n, w.InRange n → q ≠ w.mkFileNm s n) → t.lookup q = none

/-- A thread's share while it runs: the base directories are there. -/
structure Holds (w : Worker) (D : Path → Prop) (c : Side → ℕ → Option Bytes) (t : NameTree Bytes) : Prop
    extends w.Has D c t where
  base : ∀ s : Side, IsDir t (s.base w.p.toParams)

/-- The directories that a thread makes before it creates files, with those on the way. -/
def Made (w : Worker) (q : Path) : Prop := w.Owns q ∧ ∃ s, ∃ d ∈ w.subdirs s, q <+: d

theorem Ready.dirLike_made (h : w.Ready) (hq : w.Made q) : w.DirLike q := by
  obtain ⟨hown, s, d, hd, hpre⟩ := hq
  exact (h.dirLike_subdir hd).on_way hpre hown

theorem Ready.made_dropLast (h : w.Ready) (s : Side) (hn : w.InRange n) :
    w.Made (w.mkFileNm s n).dropLast := by
  rw [h.dropLast_mkFileNm]
  exact ⟨⟨s, List.prefix_append _ _⟩, s, _, h.mem_subdirs s hn.2, List.prefix_refl _⟩

section

variable {D : Path → Prop} {c c' : Side → ℕ → Option Bytes}

theorem Holds.congr (h : w.Holds D c t) (hc : ∀ s n, w.InRange n → c s n = c' s n) :
    w.Holds D c' t where
  base := h.base
  dir := h.dir
  file s n hn := hc s n hn ▸ h.file s n hn
  other := h.other

/-- **What a thread has depends on its own paths only.** -/
theorem Has.of_agree (h : w.Has D c t) (hw : w.Ready) (hD : ∀ q, D q → w.Owns q)
    (ht : Agree w.Owns t t') : w.Has D c t' where
  dir q hq := ht q (hD q hq) ▸ h.dir q hq
  file s n hn := ht _ (hw.fileLike_mkFileNm s n).owns ▸ h.file s n hn
  other q hq hnot hfile := ht q hq ▸ h.other q hq hnot hfile

/-- A file is written, comes or goes. -/
theorem Holds.becomes (h : w.Holds D c t) (hw : w.Ready) (hD : ∀ q, D q → w.DirLike q) {o : Option Bytes}
    (hn : w.InRange n) (ht : Becomes t (w.mkFileNm s n) (o.map .leaf) t') (hself : c' s n = o)
    (hrest : ∀ s' n', w.InRange n' → (s', n') ≠ (s, n) → c' s' n' = c s' n') : w.Holds D c' t' where
  base s' := by
    have hne : s'.base w.p.toParams ≠ w.mkFileNm s n := fun heq => by
      have hlen := congrArg List.length heq
      rw [hw.mkFileNm_eq, List.length_append, List.length_append, length_tree, length_base] at hlen
      omega
    rw [IsDir, ht.lookup_ne hne]
    exact h.base s'
  dir q hq := by
    have hne : q ≠ w.mkFileNm s n := fun heq =>
      (hw.fileLike_mkFileNm s n).not_dirLike (heq ▸ hD q hq)
    rw [ht.lookup_ne hne]
    exact h.dir q hq
  file s' n' hn' := by
    by_cases heq : (s', n') = (s, n)
    · cases heq
      rw [ht.lookup_self, hself]
    · have hne : w.mkFileNm s' n' ≠ w.mkFileNm s n := fun hpath => by
        obtain ⟨rfl, rfl⟩ := hw.mkFileNm_injective hpath
        exact heq rfl
      rw [ht.lookup_ne hne, h.file s' n' hn', hrest s' n' hn' heq]
  other q hq hnot hfile := by
    rw [ht.lookup_ne (hfile s n hn)]
    exact h.other q hq hnot hfile

/-- Without files, all that a thread has are directories. -/
theorem Has.only_dirs (h : w.Has D (fun _ _ => none) t) (hq : w.Owns q) (hne : t.lookup q ≠ none) :
    D q ∧ t.lookup q = some .dir := by
  by_cases hD : D q
  · exact ⟨hD, h.dir q hD⟩
  · by_cases hfile : ∃ s n, w.InRange n ∧ q = w.mkFileNm s n
    · obtain ⟨s, n, hn, rfl⟩ := hfile
      exact absurd (h.file s n hn) hne
    · exact absurd (h.other q hq hD fun s n hn heq => hfile ⟨s, n, hn, heq⟩) hne

end

end Worker

end Fstest.Smallfile
