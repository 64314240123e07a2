import Fstest.Smallfile.Alone

/-!
# Cleaning up

`do_cleanup` removes what there may be of the files, and then goes through the directories that the
thread may have made, from each one up to its root (`climb`). A directory in the middle is tried
several times, and goes when nothing is below it any more. Whatever the order of the directories is,
all that there is below the root stays on the way to a directory that is still to come
(`climb_gives`), so nothing is left after the last.
-/

namespace Fstest.Smallfile

open NameTree
open Threads (Gives)

namespace Worker

variable {w : Worker} {s : Side} {n : ℕ} {t t' : NameTree Bytes} {p q d : Path} {D : Path → Prop}
  {c : Side → ℕ → Option Bytes}

/-! ## Files that are not there -/

section

variable (hw : w.Ready) (hD : ∀ q, D q → w.DirLike q)

/-- Without files, a path of a directory that is not there leads to nothing. -/
theorem Holds.find_dirLike (h : w.Holds D (fun _ _ => none) t) (ht : Rooted t) (hp : w.DirLike p)
    (hnot : ¬ D p) : find t p = .ok none ∨ find t p = .error .noEnt := by
  have hne : p ≠ [] := by
    obtain ⟨s, parts, -, rfl⟩ := hp
    simp [tree]
  have hnone : t.lookup p = none := by
    by_contra hsome
    exact hnot (h.only_dirs hp.owns hsome).1
  exact find_noEnt hne hnone fun q hq hpre a => h.no_leaf ht hp hpre hq a

include hD in
/-- Without files, a path of a file leads to nothing. -/
theorem Holds.find_fileLike (h : w.Holds D (fun _ _ => none) t) (ht : Rooted t) (hp : w.FileLike p) :
    find t p = .ok none ∨ find t p = .error .noEnt := by
  have hnone : t.lookup p = none := by
    by_contra hsome
    exact hp.not_dirLike (hD p (h.only_dirs hp.owns hsome).1)
  have hparent := hp.dirLike_dropLast
  obtain ⟨s, parts, name, -, -, rfl⟩ := hp
  rw [List.dropLast_concat] at hparent
  refine find_noEnt (List.append_ne_nil_of_right_ne_nil _ (List.cons_ne_nil _ _)) hnone
    fun q hq hpre a => ?_
  rcases List.prefix_concat_iff.mp hpre with rfl | hpre
  · rw [hnone]
    exact nofun
  · exact h.no_leaf ht hparent hpre hq a

include hD in
theorem Holds.ensureDeleted_gives (h : w.Holds D (fun _ _ => none) t) (ht : Rooted t)
    (hp : w.FileLike p) : Gives apply w.OwnCall (ensureDeleted p) t () t := by
  have happ : apply (.unlink p) t = (.error .noEnt, t) := by
    rcases h.find_fileLike hD ht hp with hf | hf <;> rw [apply, unlink, hf] <;> rfl
  exact gives_bind (ownCall_of rfl hp.owns) happ Gives.pure

include hw in
/-- A file's path with something pushed to its end. -/
theorem Ready.fileLike_suffixed (s : Side) (n : ℕ) (ext : String) :
    w.FileLike (suffixed (w.mkFileNm s n) ext) := by
  have hname := underscores_fileName (w := w) n
  refine ⟨s, w.dir n, w.fileName n ++ ext, hw.plain_dir n, ?_, ?_⟩
  · rw [underscores_append]
    omega
  · rw [suffixed, hw.mkFileNm_eq, List.dropLast_concat, List.getLastD_concat]

include hw hD in
theorem Holds.cleanupFile_gives (h : w.Holds D (fun _ _ => none) t) (ht : Rooted t) (n : ℕ) :
    Gives apply w.OwnCall (w.cleanupFile n) t () t := by
  have hdir := hw.fileLike_suffixed .src n ".d"
  have hdel := fun p (hp : w.FileLike p) => h.ensureDeleted_gives hD ht hp
  have hstat : apply (.stat (suffixed (w.mkFileNm .src n) ".d")) t = (.error .noEnt, t) := by
    rcases h.find_fileLike hD ht hdir with hf | hf <;> rw [apply, hf]
  have hfiles : Gives apply w.OwnCall ([suffixed (w.mkFileNm .dest n) ".s", w.mkFileNm .src n,
      suffixed (w.mkFileNm .src n) ".rnm", w.mkFileNm .dest n,
      suffixed (w.mkFileNm .dest n) ".rnm"].forM ensureDeleted) t () t :=
    (hdel _ (hw.fileLike_suffixed .dest n ".s")).bind
      ((hdel _ (hw.fileLike_mkFileNm .src n)).bind
      ((hdel _ (hw.fileLike_suffixed .src n ".rnm")).bind
      ((hdel _ (hw.fileLike_mkFileNm .dest n)).bind
      ((hdel _ (hw.fileLike_suffixed .dest n ".rnm")).bind Gives.pure))))
  exact hfiles.bind (gives_bind (ownCall_of rfl hdir.owns) hstat Gives.pure)

end

/-! ## Directories -/

/-- A directory goes. -/
theorem Holds.erase (h : w.Holds D c t) (hw : w.Ready) (hd : w.DirLike d) (ht : Becomes t d none t') :
    w.Holds (fun q => D q ∧ q ≠ d) c t' where
  base s := by
    have hne : s.base w.p.toParams ≠ d := fun heq => by
      obtain ⟨s', parts, -, rfl⟩ := hd
      have hlen := congrArg List.length heq
      rw [List.length_append, length_tree, length_base] at hlen
      omega
    rw [IsDir, ht.lookup_ne hne]
    exact h.base s
  dir q hq := by
    rw [ht.lookup_ne hq.2]
    exact h.dir q hq.1
  file s n hn := by
    have hne : w.mkFileNm s n ≠ d := fun heq => (hw.fileLike_mkFileNm s n).not_dirLike (heq ▸ hd)
    rw [ht.lookup_ne hne]
    exact h.file s n hn
  other q hq hnot hfile := by
    by_cases heq : q = d
    · rw [heq, ht.lookup_self]
    · rw [ht.lookup_ne heq]
      exact h.other q hq (fun hD => hnot ⟨hD, heq⟩) hfile

/-- All directories that there are below the root of one side are in `P`. -/
def LeftBelow (w : Worker) (s : Side) (D P : Path → Prop) : Prop :=
  ∀ q, D q → w.tree s <+: q → q ≠ w.tree s → P q

/-! ## One climb -/

section

variable {root cur : Path} {m : String}

theorem climb_root (O : Call → Prop) (root : Path) : Gives apply O (climb root root) t () t := by
  rw [climb, dif_neg fun h => h.2 rfl]
  exact Gives.pure

/-- A climb stops at a directory that is not empty. -/
theorem climb_stops {O : Call → Prop} (hown : O (.rmdir cur)) (hroot : root <+: cur) (hne : cur ≠ root)
    (happ : apply (.rmdir cur) t = (.error .notEmpty, t)) : Gives apply O (climb root cur) t () t := by
  rw [climb, dif_pos ⟨hroot, hne⟩]
  exact gives_bind hown happ Gives.pure

/-- It goes on above a directory that it has removed, and above one that is not there. -/
theorem climb_goes_on {O : Call → Prop} {t₁ : NameTree Bytes} {r : Reply} (hown : O (.rmdir (cur ++ [m])))
    (hroot : root <+: cur ++ [m]) (hne : cur ++ [m] ≠ root)
    (happ : apply (.rmdir (cur ++ [m])) t = (r, t₁)) (hr : (∃ a, r = .ok a) ∨ r = .error .noEnt)
    (h : Gives apply O (climb root cur) t₁ () t') : Gives apply O (climb root (cur ++ [m])) t () t' := by
  rw [climb, dif_pos ⟨hroot, hne⟩]
  refine gives_bind hown happ ?_
  rw [List.dropLast_concat]
  rcases hr with ⟨a, rfl⟩ | rfl
  · exact h
  · exact h

/-- Something is left in a directory, so it is on the way to another one, with all above it. -/
theorem Holds.on_way_of_hasChild {L : List Path} (h : w.Holds D (fun _ _ => none) t)
    (hroot : w.tree s <+: cur) (hchild : HasChild t cur)
    (hall : w.LeftBelow s D fun q => q <+: cur ∨ ∃ d ∈ L, q <+: d) : ∃ d ∈ L, cur <+: d := by
  obtain ⟨x, hx⟩ := hasChild_iff.mp hchild
  have hge : w.tree s <+: cur ++ [x] := hroot.trans (List.prefix_append _ _)
  have hD := (h.only_dirs ⟨s, hge⟩ fun hnone => AList.lookup_eq_none.mp hnone hx).1
  have hne : cur ++ [x] ≠ w.tree s := fun heq => absurd hroot.length_le (by rw [← heq]; simp)
  rcases hall _ hD hge hne with hle | ⟨d, hd, hle⟩
  · exact absurd hle.length_le (by simp)
  · exact ⟨d, hd, (List.prefix_append _ _).trans hle⟩

/-- **A climb keeps what is on the way to the other directories**, and removes all else that there
was on its way: what is below the root is on the way to a directory in `L`. -/
theorem climb_gives {L : List Path} (hw : w.Ready) (hD : ∀ q, D q → w.DirLike q) (ht : Rooted t)
    (h : w.Holds D (fun _ _ => none) t) (hcur : w.DirLike cur) (hroot : w.tree s <+: cur)
    (hall : w.LeftBelow s D fun q => q <+: cur ∨ ∃ d ∈ L, q <+: d) :
    ∃ t' D', Gives apply w.OwnCall (climb (w.tree s) cur) t () t' ∧ Rooted t' ∧
      w.Holds D' (fun _ _ => none) t' ∧ (∀ q, D' q → D q) ∧
      w.LeftBelow s D' fun q => ∃ d ∈ L, q <+: d := by
  induction cur using List.reverseRecOn generalizing t D with
  | nil => exact absurd hroot (by simp [tree])
  | append_singleton c m ih =>
    by_cases htop : c ++ [m] = w.tree s
    · refine ⟨t, D, htop ▸ climb_root _ _, ht, h, fun _ hq => hq, fun q hq hge hne => ?_⟩
      rw [htop] at hall
      exact (hall q hq hge hne).resolve_left fun hle => hne (hle.eq_of_length_le hge.length_le)
    · have hown : w.OwnCall (.rmdir (c ++ [m])) := ownCall_of rfl hcur.owns
      have hrootc : w.tree s <+: c :=
        (List.prefix_concat_iff.mp hroot).resolve_left fun heq => htop heq.symm
      have hc : w.DirLike c := hcur.on_way (List.prefix_append c [m]) ⟨s, hrootc⟩
      -- What is on the way to the directory, and is not the directory, is on the way to its parent.
      have hup : ∀ D' : Path → Prop, (∀ q, D' q → D q ∧ q ≠ c ++ [m]) →
          w.LeftBelow s D' fun q => q <+: c ∨ ∃ d ∈ L, q <+: d := fun D' hD' q hq hge hne =>
        (hall q (hD' q hq).1 hge hne).imp_left fun hle =>
          (List.prefix_concat_iff.mp hle).resolve_left (hD' q hq).2
      by_cases hmem : D (c ++ [m])
      · have hlook := h.dir _ hmem
        by_cases hchild : HasChild t (c ++ [m])
        · have happ : apply (.rmdir (c ++ [m])) t = (.error .notEmpty, t) := by
            rw [apply, rmdir_notEmpty ht hlook hchild]
            rfl
          obtain ⟨d, hd, hcd⟩ := h.on_way_of_hasChild hroot hchild hall
          exact ⟨t, D, climb_stops hown hroot htop happ, ht, h, fun _ hq => hq,
            fun q hq hge hne => (hall q hq hge hne).elim (fun hle => ⟨d, hd, hle.trans hcd⟩) id⟩
        · obtain ⟨t₁, hrm, hbec⟩ := rmdir_spec ht hlook hchild
          have happ : apply (.rmdir (c ++ [m])) t = (.ok .done, t₁) := by
            rw [apply, hrm]
            rfl
          obtain ⟨t', D', hgives, ht', h', hsub, hleft⟩ := ih (fun q hq => hD q hq.1) hbec.rooted
            (h.erase hw hcur hbec) hc hrootc (hup _ fun _ hq => hq)
          exact ⟨t', D', climb_goes_on hown hroot htop happ (.inl ⟨_, rfl⟩) hgives, ht', h',
            fun q hq => (hsub q hq).1, hleft⟩
      · have happ : apply (.rmdir (c ++ [m])) t = (.error .noEnt, t) := by
          rcases h.find_dirLike ht hcur hmem with hf | hf <;> rw [apply, rmdir, hf] <;> rfl
        obtain ⟨t', D', hgives, hend⟩ := ih hD ht h hc hrootc
          (hup D fun q hq => ⟨hq, fun heq => hmem (heq ▸ hq)⟩)
        exact ⟨t', D', climb_goes_on hown hroot htop happ (.inr rfl) hgives, hend⟩

end

/-! ## All climbs -/

/-- The tree on side `s` is being cleaned, and the directories in `rest` are still to be climbed
from. -/
structure Climbing (w : Worker) (s : Side) (D : Path → Prop) (rest : List Path) (t : NameTree Bytes) :
    Prop where
  rooted : Rooted t
  mem : ∀ d ∈ rest, d ∈ w.subdirs s
  holds : ∃ D', w.Holds D' (fun _ _ => none) t ∧ (∀ q, D' q → D q) ∧
    w.LeftBelow s D' fun q => ∃ d ∈ rest, q <+: d

theorem Climbing.start (hw : w.Ready) (hD : ∀ q, D q → w.Made q) (ht : Rooted t)
    (h : w.Holds D (fun _ _ => none) t) : w.Climbing s D (dirset (w.subdirs s)) t where
  rooted := ht
  mem _ hd := mem_dirset.mp hd
  holds := by
    refine ⟨D, h, fun _ hq => hq, fun q hq hge _ => ?_⟩
    obtain ⟨-, s', d, hd, hle⟩ := hD q hq
    obtain ⟨parts, -, rfl⟩ := hw.of_mem_subdirs hd
    have htree : w.tree s <+: w.tree s' := List.prefix_of_prefix_length_le (hge.trans hle)
      (List.prefix_append (w.tree s') parts) (by rw [length_tree, length_tree])
    cases tree_injective (htree.eq_of_length (by rw [length_tree, length_tree]))
    exact ⟨_, mem_dirset.mpr hd, hle⟩

theorem Climbing.step (hw : w.Ready) (hD : ∀ q, D q → w.Made q) {rest : List Path}
    (h : w.Climbing s D (d :: rest) t) :
    ∃ t', Gives apply w.OwnCall (climb (w.tree s) d) t () t' ∧ w.Climbing s D rest t' := by
  obtain ⟨ht, hmem, D', h', hsub, hall⟩ := h
  have hd := hmem d List.mem_cons_self
  have hroot : w.tree s <+: d := by
    obtain ⟨parts, -, rfl⟩ := hw.of_mem_subdirs hd
    exact List.prefix_append _ _
  have hleft : w.LeftBelow s D' fun q => q <+: d ∨ ∃ d' ∈ rest, q <+: d' := by
    intro q hq hge hne
    obtain ⟨d', hd', hle⟩ := hall q hq hge hne
    rcases List.mem_cons.mp hd' with rfl | hd'
    · exact .inl hle
    · exact .inr ⟨d', hd', hle⟩
  obtain ⟨t', D'', hgives, ht', h'', hsub', hall'⟩ := climb_gives hw
    (fun q hq => hw.dirLike_made (hD q (hsub q hq))) ht h' (hw.dirLike_subdir hd) hroot hleft
  exact ⟨t', hgives, ht', fun d hd => hmem d (List.mem_cons_of_mem _ hd), D'', h'',
    fun q hq => hsub q (hsub' q hq), hall'⟩

/-- **One tree is cleaned**, whatever the order of its directories is. -/
theorem cleanTree_gives (hw : w.Ready) (hD : ∀ q, D q → w.Made q) (ht : Rooted t)
    (h : w.Holds D (fun _ _ => none) t) (s : Side) :
    ∃ t' D', Gives apply w.OwnCall ((dirset (w.subdirs s)).forM (climb (w.tree s))) t () t' ∧
      Rooted t' ∧ w.Holds D' (fun _ _ => none) t' ∧ (∀ q, D' q → D q) ∧
      w.LeftBelow s D' fun _ => False := by
  obtain ⟨t', hgives, ht', -, D', h', hsub, hall⟩ :=
    Gives.forM (I := w.Climbing s D) (fun _ _ _ hclimbing => hclimbing.step hw hD)
      (Climbing.start hw hD ht h)
  refine ⟨t', D', hgives, ht', h', hsub, fun q hq hge hne => ?_⟩
  obtain ⟨d, hd, -⟩ := hall q hq hge hne
  exact absurd hd List.not_mem_nil

/-- **Both trees are cleaned**, but for the two directories of the thread. -/
theorem cleanAllSubdirs_gives (hw : w.Ready) (hD : ∀ q, D q → w.Made q) (ht : Rooted t)
    (h : w.Holds D (fun _ _ => none) t) :
    ∃ t' D', Gives apply w.OwnCall w.cleanAllSubdirs t () t' ∧ Rooted t' ∧
      w.Holds D' (fun _ _ => none) t' ∧ (∀ q, D' q → D q) ∧ ∀ q, D' q → ∃ s, q = w.tree s := by
  obtain ⟨t₁, D₁, hsrc, ht₁, h₁, hsub₁, hall₁⟩ := cleanTree_gives hw hD ht h .src
  obtain ⟨t₂, D₂, hdest, ht₂, h₂, hsub₂, hall₂⟩ :=
    cleanTree_gives hw (fun q hq => hD q (hsub₁ q hq)) ht₁ h₁ .dest
  refine ⟨t₂, D₂, ?_, ht₂, h₂, fun q hq => hsub₁ q (hsub₂ q hq), fun q hq => ?_⟩
  · rw [cleanAllSubdirs, hw.own_dir, Bool.false_and, if_neg Bool.false_ne_true]
    have hboth : Gives apply w.OwnCall ([Side.src, Side.dest].forM fun s =>
        (dirset (w.subdirs s)).forM (climb (w.tree s))) t () t₂ :=
      hsrc.bind (hdest.bind Gives.pure)
    have heq : (fun s => (dirset (w.subdirs s)).forM (climb ((w.baseDirs s).headD []))) =
        fun s => (dirset (w.subdirs s)).forM (climb (w.tree s)) := by
      funext s
      rw [hw.baseDirs_eq]
      rfl
    rw [heq]
    exact hboth
  · obtain ⟨s, parts, -, rfl⟩ := hw.dirLike_made (hD q (hsub₁ q (hsub₂ q hq)))
    refine ⟨s, ?_⟩
    by_contra hne
    cases s
    · exact hall₁ _ (hsub₂ _ hq) (List.prefix_append _ _) hne
    · exact hall₂ _ hq (List.prefix_append _ _) hne

/-- **Without files, a cleanup leaves at most the two directories of the thread.** -/
theorem doCleanup_gives (hw : w.Ready) (hD : ∀ q, D q → w.Made q) (ht : Rooted t)
    (h : w.Holds D (fun _ _ => none) t) :
    ∃ t' D', Gives apply w.OwnCall w.doCleanup t () t' ∧ Rooted t' ∧ w.Holds D' (fun _ _ => none) t' ∧
      (∀ q, D' q → D q) ∧ ∀ q, D' q → ∃ s, q = w.tree s := by
  have hlike : ∀ q, D q → w.DirLike q := fun q hq => hw.dirLike_made (hD q hq)
  have hround : ∀ k t', k < w.p.iterations → t' = t →
      ∃ t'', Gives apply w.OwnCall (w.cleanupFile (k + 1)) t' () t'' ∧ t'' = t := by
    rintro k _ - rfl
    exact ⟨_, h.cleanupFile_gives hw hlike ht (k + 1), rfl⟩
  obtain ⟨_, hfiles, rfl⟩ := eachFile_gives (I := fun _ t' => t' = t) hround rfl
  obtain ⟨t', D', hdirs, hend⟩ := cleanAllSubdirs_gives hw hD ht h
  exact ⟨t', D', hfiles.bind hdirs, hend⟩

end Worker

end Fstest.Smallfile
