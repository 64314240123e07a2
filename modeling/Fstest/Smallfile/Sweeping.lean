import Fstest.Smallfile.Leftovers

/-!
# A cleanup after anything

Whatever invocations have left, a cleanup in which no call fails for a reason of its own goes through: all
its threads end without an error, in any order, and there is no file left and no directory below those of
the threads (`SuiteRun.cleaned_after`).

A thread finds some of its directories, and some of the names that it tries (`Worker.Strewn`). Each step of
its loop removes what there is at one of them, and after the loop all that is left are directories.
-/

namespace Fstest.Smallfile

open NameTree
open Threads (Gives Solo Reaches)

variable {t t' : NameTree Bytes} {q d : Path}

namespace Worker

variable {w : Worker} {D L E L' E' : Path → Prop} {s : Side} {m n : ℕ}

/-! ## Names -/

theorem fileName_append_injective {e e' : String} (h : w.fileName m ++ e = w.fileName n ++ e') :
    m = n ∧ e = e' := by
  simp only [fileName, String.append_assoc] at h
  have hlist := congrArg String.toList
    (append_left_cancel (append_left_cancel (append_left_cancel (append_left_cancel
      (append_left_cancel (append_left_cancel h))))))
  simp only [String.toList_append] at hlist
  have hdigits : ∀ k : ℕ, '_' ∉ (toString k).toList := fun k => notMem_toString rfl k
  obtain ⟨hnum, hrest⟩ := split_at_first (hdigits m) (hdigits n) hlist
  refine ⟨toString_injective (String.toList_injective hnum), String.toList_injective ?_⟩
  exact List.append_cancel_left hrest

theorem mem_leaves_form (hw : w.Ready) (hq : q ∈ w.leaves n) :
    ∃ s ext, ext ≠ ".d" ∧ q = w.tree s ++ w.dir n ++ [w.fileName n ++ ext] := by
  have hplain : ∀ s, w.mkFileNm s n = w.tree s ++ w.dir n ++ [w.fileName n ++ ""] := fun s => by
    rw [String.append_empty, hw.mkFileNm_eq]
  have hsuffixed : ∀ s ext, suffixed (w.mkFileNm s n) ext = w.tree s ++ w.dir n ++ [w.fileName n ++ ext] :=
    fun s ext => by rw [suffixed, hw.mkFileNm_eq, List.dropLast_concat, List.getLastD_concat]
  simp only [leaves, List.mem_cons, List.not_mem_nil, or_false] at hq
  rcases hq with rfl | rfl | rfl | rfl | rfl
  · exact ⟨.dest, ".s", by decide, hsuffixed _ _⟩
  · exact ⟨.src, "", by decide, hplain _⟩
  · exact ⟨.src, ".rnm", by decide, hsuffixed _ _⟩
  · exact ⟨.dest, "", by decide, hplain _⟩
  · exact ⟨.dest, ".rnm", by decide, hsuffixed _ _⟩

/-- No directory has the name of a file. -/
theorem subdir_notMem_leaves (hw : w.Ready) (m n : ℕ) : w.subdir m ∉ w.leaves n := by
  intro hq
  obtain ⟨s, ext, hext, heq⟩ := mem_leaves_form hw hq
  rw [subdir, suffixed, hw.mkFileNm_eq, List.dropLast_concat, List.getLastD_concat] at heq
  obtain ⟨-, hname⟩ := List.append_inj' heq rfl
  exact hext (fileName_append_injective (List.cons.inj hname).1).2.symm

theorem fileLike_of_mem_leaves (hw : w.Ready) (hq : q ∈ w.leaves n) : w.FileLike q := by
  obtain ⟨s, ext, -, rfl⟩ := mem_leaves_form hw hq
  have hname := underscores_fileName (w := w) n
  refine ⟨s, w.dir n, w.fileName n ++ ext, hw.plain_dir n, ?_, rfl⟩
  rw [underscores_append]
  omega

theorem fileLike_subdir (hw : w.Ready) (n : ℕ) : w.FileLike (w.subdir n) := hw.fileLike_suffixed .src n ".d"

/-! ## What a thread finds -/

/-- The directories in `D` are there, files at some of the paths in `L`, directories at some of those in
`E`, and nothing else. -/
structure Strewn (w : Worker) (D L E : Path → Prop) (t : NameTree Bytes) : Prop where
  rooted : Rooted t
  base : ∀ s : Side, IsDir t (s.base w.p.toParams)
  dir : ∀ q, D q → t.lookup q = some .dir
  only : ∀ q node, w.Owns q → t.lookup q = some node →
    D q ∧ node = .dir ∨ L q ∧ (∃ a, node = .leaf a) ∨ E q ∧ node = .dir

/-- The paths of directories, of files, and of the directories among the files are different. -/
structure Apart (w : Worker) (D L E : Path → Prop) : Prop where
  dir : ∀ q, D q → w.DirLike q
  leaf : ∀ q, L q → w.FileLike q
  sub : ∀ q, E q → w.FileLike q
  disjoint : ∀ q, L q → ¬ E q

theorem Strewn.mono (h : w.Strewn D L E t) (hL : ∀ q, L q → L' q) (hE : ∀ q, E q → E' q) :
    w.Strewn D L' E' t where
  rooted := h.rooted
  base := h.base
  dir := h.dir
  only q node hq hlook := (h.only q node hq hlook).imp_right fun hrest =>
    hrest.imp (fun hl => ⟨hL q hl.1, hl.2⟩) fun he => ⟨hE q he.1, he.2⟩

section

variable (hapart : w.Apart D L E) (h : w.Strewn D L E t)

include hapart h

/-- No file is on the way to a directory of the thread. -/
theorem Strewn.no_leaf (hd : w.DirLike d) (hq : q <+: d) (hne : q ≠ []) (a : Bytes) :
    t.lookup q ≠ some (.leaf a) := by
  intro hleaf
  rcases hd.way hq with ⟨s, hs⟩ | hown
  · have hdir := (h.rooted.isDir_prefix (h.base s) hs).resolve_left hne
    rw [hleaf] at hdir
    cases hdir
  · rcases h.only q _ hown hleaf with ⟨-, hnode⟩ | ⟨hl, -⟩ | ⟨-, hnode⟩
    · cases hnode
    · exact (hapart.leaf q hl).not_on_way hd hq
    · cases hnode

theorem Strewn.find_none (hq : w.FileLike q) (hnone : t.lookup q = none) :
    find t q = .ok none ∨ find t q = .error .noEnt := by
  have hparent := hq.dirLike_dropLast
  obtain ⟨s, parts, name, -, -, rfl⟩ := hq
  rw [List.dropLast_concat] at hparent
  refine find_noEnt (List.append_ne_nil_of_right_ne_nil _ (List.cons_ne_nil _ _)) hnone
    fun r hr hpre a => ?_
  rcases List.prefix_concat_iff.mp hpre with rfl | hpre
  · rw [hnone]
    exact nofun
  · exact h.no_leaf hapart hparent hpre hr a

/-- What there is at the path of a file is a file, unless it is one of the directories. -/
theorem Strewn.leaf_of_lookup {node : Node Bytes} (hq : w.FileLike q) (hE : ¬ E q)
    (hlook : t.lookup q = some node) : ∃ a, node = .leaf a := by
  rcases h.only q node hq.owns hlook with ⟨hD, -⟩ | ⟨-, hleaf⟩ | ⟨he, -⟩
  · exact absurd (hapart.dir q hD) hq.not_dirLike
  · exact hleaf
  · exact absurd he hE

omit hapart in
theorem Strewn.becomes_none (hq : w.FileLike q) (hD : ¬ D q) (hbec : Becomes t q none t') :
    w.Strewn D (fun r => L r ∧ r ≠ q) (fun r => E r ∧ r ≠ q) t' where
  rooted := hbec.rooted
  base s := by
    have hne : s.base w.p.toParams ≠ q := fun heq => by
      have hown := length_of_owns hq.owns
      rw [← heq, length_base] at hown
      omega
    rw [IsDir, hbec.lookup_ne hne]
    exact h.base s
  dir r hr := by
    rw [hbec.lookup_ne fun heq => hD (heq ▸ hr)]
    exact h.dir r hr
  only r node hr hlook := by
    have hne : r ≠ q := fun heq => by
      rw [heq, hbec.lookup_self] at hlook
      cases hlook
    rw [hbec.lookup_ne hne] at hlook
    exact (h.only r node hr hlook).imp_right fun hrest =>
      hrest.imp (fun hl => ⟨⟨hl.1, hne⟩, hl.2⟩) fun he => ⟨⟨he.1, hne⟩, he.2⟩

/-! ## Removing -/

/-- **One of the names goes**, if it was there. -/
theorem Strewn.ensureDeleted_gives (hq : w.FileLike q) (hE : ¬ E q) :
    ∃ t', Gives apply w.OwnCall (ensureDeleted q) t () t' ∧ w.Strewn D (fun r => L r ∧ r ≠ q) E t' := by
  cases hlook : t.lookup q with
  | none =>
    have happ : apply (.unlink q) t = (.error .noEnt, t) := by
      rcases h.find_none hapart hq hlook with hf | hf <;> rw [apply, unlink, hf] <;> rfl
    refine ⟨t, gives_bind (ownCall_of rfl hq.owns) happ Gives.pure, h.rooted, h.base, h.dir,
      fun r node hr hnode => ?_⟩
    have hne : r ≠ q := fun heq => by
      rw [heq, hlook] at hnode
      cases hnode
    exact (h.only r node hr hnode).imp_right fun hrest => hrest.imp_left fun hl => ⟨⟨hl.1, hne⟩, hl.2⟩
  | some node =>
    obtain ⟨a, rfl⟩ := h.leaf_of_lookup hapart hq hE hlook
    obtain ⟨t', hunlink, hbec⟩ := unlink_spec h.rooted hlook
    have happ : apply (.unlink q) t = (.ok .done, t') := by
      rw [apply, hunlink]
      rfl
    exact ⟨t', gives_bind (ownCall_of rfl hq.owns) happ Gives.pure,
      (h.becomes_none hq (fun hD => hq.not_dirLike (hapart.dir q hD)) hbec).mono (fun _ hr => hr)
        fun _ hr => hr.1⟩

/-- A directory among the files is empty. -/
theorem Strewn.no_child (hq : w.FileLike q) : ¬ HasChild t q := by
  intro hchild
  obtain ⟨x, hx⟩ := hasChild_iff.mp hchild
  obtain ⟨node, hnode⟩ := Option.isSome_iff_exists.mp (AList.lookup_isSome.mpr hx)
  obtain ⟨s, hs⟩ := hq.owns
  have hpre : q <+: q ++ [x] := List.prefix_append _ _
  have hfile : ∀ r, r = q ++ [x] → w.FileLike r → False := fun r hr hlike => by
    have hparent := hlike.dirLike_dropLast
    rw [hr, List.dropLast_concat] at hparent
    exact hq.not_dirLike hparent
  rcases h.only _ node ⟨s, hs.trans hpre⟩ hnode with ⟨hD, -⟩ | ⟨hl, -⟩ | ⟨he, -⟩
  · exact hq.not_on_way (hapart.dir _ hD) hpre
  · exact hfile _ rfl (hapart.leaf _ hl)
  · exact hfile _ rfl (hapart.sub _ he)

/-- **A directory among the files goes**, if it was there. -/
theorem Strewn.removeSub_gives (hq : w.FileLike q) (hL : ¬ L q) :
    ∃ t', Gives apply w.OwnCall (do
        match ← ask (.stat q) with
        | .ok _ => do
          let _ ← sys (.rmdir q)
        | .error _ => pure ()) t () t' ∧
      w.Strewn D L (fun r => E r ∧ r ≠ q) t' := by
  cases hlook : t.lookup q with
  | none =>
    have happ : apply (.stat q) t = (.error .noEnt, t) := by
      rcases h.find_none hapart hq hlook with hf | hf <;> rw [apply, hf]
    refine ⟨t, gives_bind (ownCall_of rfl hq.owns) happ Gives.pure, h.rooted, h.base, h.dir,
      fun r node hr hnode => ?_⟩
    have hne : r ≠ q := fun heq => by
      rw [heq, hlook] at hnode
      cases hnode
    exact (h.only r node hr hnode).imp_right fun hrest => hrest.imp_right fun he => ⟨⟨he.1, hne⟩, he.2⟩
  | some node =>
    obtain rfl : node = .dir := by
      rcases h.only q node hq.owns hlook with ⟨-, hdir⟩ | ⟨hl, -⟩ | ⟨-, hdir⟩
      · exact hdir
      · exact absurd hl hL
      · exact hdir
    have hstat : apply (.stat q) t = (.ok .dir, t) := by
      rw [apply, find_of_lookup h.rooted hlook]
    obtain ⟨t', hrmdir, hbec⟩ := rmdir_spec h.rooted hlook (h.no_child hapart hq)
    have happ : apply (.rmdir q) t = (.ok .done, t') := by
      rw [apply, hrmdir]
      rfl
    exact ⟨t', gives_bind (ownCall_of rfl hq.owns) hstat
        ((gives_sys (ownCall_of rfl hq.owns) happ).bind Gives.pure),
      (h.becomes_none hq (fun hD => hq.not_dirLike (hapart.dir q hD)) hbec).mono (fun _ hr => hr.1)
        fun _ hr => hr⟩

end

/-! ## The loop -/

/-- The names of the files after the first `k`. -/
def LeavesAfter (w : Worker) (k : ℕ) (q : Path) : Prop := ∃ n, k < n ∧ n ≤ w.p.iterations ∧ q ∈ w.leaves n

def SubdirsAfter (w : Worker) (k : ℕ) (q : Path) : Prop := ∃ n, k < n ∧ n ≤ w.p.iterations ∧ q = w.subdir n

theorem Ready.apart (hw : w.Ready) (hD : ∀ q, D q → w.DirLike q) (k : ℕ)
    (hL : ∀ q, L q → w.LeavesAfter k q) : w.Apart D L (w.SubdirsAfter k) where
  dir := hD
  leaf q hq := by
    obtain ⟨n, -, -, hmem⟩ := hL q hq
    exact fileLike_of_mem_leaves hw hmem
  sub q hq := by
    obtain ⟨n, -, -, rfl⟩ := hq
    exact fileLike_subdir hw n
  disjoint q hq hsub := by
    obtain ⟨n, -, -, hmem⟩ := hL q hq
    obtain ⟨m, -, -, rfl⟩ := hsub
    exact subdir_notMem_leaves hw m n hmem

/-- All names of one file go. -/
theorem Strewn.ensureAll_gives (hw : w.Ready) (hD : ∀ q, D q → w.DirLike q) {k : ℕ}
    (h : w.Strewn D (w.LeavesAfter k) (w.SubdirsAfter k) t) (n : ℕ) :
    ∃ t', Gives apply w.OwnCall ((w.leaves n).forM ensureDeleted) t () t' ∧
      w.Strewn D (fun q => w.LeavesAfter k q ∧ q ∉ w.leaves n) (w.SubdirsAfter k) t' := by
  let I : List Path → NameTree Bytes → Prop := fun rest t => (∀ q ∈ rest, q ∈ w.leaves n) ∧
    w.Strewn D (fun q => w.LeavesAfter k q ∧ (q ∈ w.leaves n → q ∈ rest)) (w.SubdirsAfter k) t
  have hstep : ∀ q rest t, I (q :: rest) t →
      ∃ t', Gives apply w.OwnCall (ensureDeleted q) t () t' ∧ I rest t' := by
    rintro q rest t ⟨hmem, h⟩
    have hq := hmem q List.mem_cons_self
    have hE : ¬ w.SubdirsAfter k q := by
      rintro ⟨m, -, -, rfl⟩
      exact subdir_notMem_leaves hw m n hq
    obtain ⟨t', hgives, h'⟩ := h.ensureDeleted_gives (hw.apart hD k fun _ hr => hr.1)
      (fileLike_of_mem_leaves hw hq) hE
    refine ⟨t', hgives, fun r hr => hmem r (List.mem_cons_of_mem _ hr), h'.mono (fun r hr => ?_) fun _ => id⟩
    exact ⟨hr.1.1, fun hleaf => (List.mem_cons.mp (hr.1.2 hleaf)).resolve_left hr.2⟩
  obtain ⟨t', hgives, -, h'⟩ := Gives.forM hstep
    ⟨fun _ hq => hq, h.mono (fun _ hr => ⟨hr, id⟩) fun _ => id⟩
  exact ⟨t', hgives, h'.mono (fun _ hr => ⟨hr.1, fun hleaf => List.not_mem_nil (hr.2 hleaf)⟩) fun _ => id⟩

/-- **A round of the loop** leaves nothing of its file. -/
theorem Strewn.cleanupFile_gives (hw : w.Ready) (hD : ∀ q, D q → w.DirLike q) {k : ℕ}
    (h : w.Strewn D (w.LeavesAfter k) (w.SubdirsAfter k) t) :
    ∃ t', Gives apply w.OwnCall (w.cleanupFile (k + 1)) t () t' ∧
      w.Strewn D (w.LeavesAfter (k + 1)) (w.SubdirsAfter (k + 1)) t' := by
  obtain ⟨t₁, hfiles, h₁⟩ := h.ensureAll_gives hw hD (k + 1)
  have hL : ¬ (w.LeavesAfter k (w.subdir (k + 1)) ∧ w.subdir (k + 1) ∉ w.leaves (k + 1)) := by
    rintro ⟨⟨n, -, -, hmem⟩, -⟩
    exact subdir_notMem_leaves hw _ n hmem
  obtain ⟨t₂, hsub, h₂⟩ := h₁.removeSub_gives (hw.apart hD k fun _ hr => hr.1)
    (fileLike_subdir hw (k + 1)) hL
  refine ⟨t₂, hfiles.bind hsub, h₂.mono ?_ ?_⟩
  · rintro q ⟨⟨n, hlt, hle, hmem⟩, hnot⟩
    rcases Nat.lt_or_ge (k + 1) n with hn | hn
    · exact ⟨n, hn, hle, hmem⟩
    · obtain rfl : n = k + 1 := by omega
      exact absurd hmem hnot
  · rintro q ⟨⟨n, hlt, hle, rfl⟩, hne⟩
    rcases Nat.lt_or_ge (k + 1) n with hn | hn
    · exact ⟨n, hn, hle, rfl⟩
    · obtain rfl : n = k + 1 := by omega
      exact absurd rfl hne

/-- Without files, a thread has directories only. -/
theorem Strewn.holds (hw : w.Ready) (hD : ∀ q, D q → w.DirLike q)
    (h : w.Strewn D (fun _ => False) (fun _ => False) t) : w.Holds D (fun _ _ => none) t where
  base := h.base
  dir := h.dir
  file s n _ := by
    by_contra hsome
    obtain ⟨node, hnode⟩ := Option.ne_none_iff_exists'.mp hsome
    have hlike := hw.fileLike_mkFileNm s n
    rcases h.only _ node hlike.owns hnode with ⟨hd, -⟩ | ⟨hl, -⟩ | ⟨he, -⟩
    · exact hlike.not_dirLike (hD _ hd)
    · exact hl
    · exact he
  other q hq hnot _ := by
    by_contra hsome
    obtain ⟨node, hnode⟩ := Option.ne_none_iff_exists'.mp hsome
    rcases h.only _ node hq hnode with ⟨hd, -⟩ | ⟨hl, -⟩ | ⟨he, -⟩
    · exact hnot hd
    · exact hl
    · exact he

/-- **A cleanup sweeps all that a thread may find.** -/
theorem Strewn.doCleanup_gives (hw : w.Ready) (hD : ∀ q, D q → w.Made q)
    (h : w.Strewn D (w.LeavesAfter 0) (w.SubdirsAfter 0) t) :
    ∃ t', Gives apply w.OwnCall w.doCleanup t () t' ∧ Cleaned w t' := by
  have hlike : ∀ q, D q → w.DirLike q := fun q hq => hw.dirLike_made (hD q hq)
  obtain ⟨t₁, hfiles, h₁⟩ := eachFile_gives
    (I := fun k t => w.Strewn D (w.LeavesAfter k) (w.SubdirsAfter k) t)
    (fun k t _ hk => hk.cleanupFile_gives hw hlike) h
  have hnone : w.Strewn D (fun _ => False) (fun _ => False) t₁ := by
    refine h₁.mono ?_ ?_
    · rintro q ⟨n, hlt, hle, -⟩
      exact Nat.not_lt.mpr hle hlt
    · rintro q ⟨n, hlt, hle, -⟩
      exact Nat.not_lt.mpr hle hlt
  obtain ⟨t₂, D', hdirs, -, h₂, -, hall⟩ :=
    cleanAllSubdirs_gives hw hD hnone.rooted (hnone.holds hw hlike)
  exact ⟨t₂, hfiles.bind hdirs, D', h₂.toHas, hall⟩

end Worker

/-! ## The suite -/

section

variable {p : SuiteParams} {dirs : List (List String)} {o : Put.Options} {i : Fin p.threads}

theorem owns_of_mem_subdirs {j : Fin p.threads} {s : Side} (hw : (worker p dirs j).Ready)
    (hd : d ∈ (worker p dirs j).subdirs s) (hq : q <+: d) (hlen : p.top.length + 3 ≤ q.length) :
    (worker p dirs j).Owns q := by
  obtain ⟨parts, -, rfl⟩ := hw.of_mem_subdirs hd
  refine ⟨s, List.prefix_of_prefix_length_le (List.prefix_append _ parts) hq ?_⟩
  rw [Worker.length_tree]
  exact hlen

theorem owner_eq {j : Fin p.threads} (h : (worker p dirs i).Owns q) (h' : (worker p dirs j).Owns q) :
    i = j :=
  Fin.ext (Worker.Owns.tid_eq (u := worker p dirs i) (v := worker p dirs j) rfl h (.inr h'))

/-- What litter there is at the paths of a thread is its own. -/
theorem Litter.strewn (h : Litter p dirs t) (hready : ∀ j, (worker p dirs j).Ready)
    (hagree : Agree (worker p dirs i).Owns t t') (hrooted : Rooted t')
    (hbase : ∀ s : Side, IsDir t' (s.base p.toParams)) :
    (worker p dirs i).Strewn (fun q => (worker p dirs i).Made q ∧ t'.lookup q = some .dir)
      ((worker p dirs i).LeavesAfter 0) ((worker p dirs i).SubdirsAfter 0) t' where
  rooted := hrooted
  base := hbase
  dir q hq := hq.2
  only q node hq hlook := by
    have hlen : p.top.length + 3 ≤ q.length := length_of_owns hq
    obtain ⟨s, hs⟩ := id hq
    have htop : p.top <+: q := ((top_prefix_base p.toParams s).trans (List.prefix_append _ _)).trans hs
    have hspot := h.spot q node htop (fun heq => by rw [heq] at hlen; omega) ((hagree q hq).trans hlook)
    cases node with
    | dir =>
      rcases hspot with (⟨s, hbase⟩ | ⟨j, s, d, hd, hpre⟩) | ⟨j, n, hn, hsub⟩
      · have := length_base_of_prefix hbase
        omega
      · obtain rfl := owner_eq hq (owns_of_mem_subdirs (hready j) hd hpre hlen)
        exact .inl ⟨⟨⟨hq, s, d, hd, hpre⟩, hlook⟩, rfl⟩
      · obtain rfl := owner_eq hq (hsub ▸ (Worker.fileLike_subdir (hready j) n).owns)
        exact .inr (.inr ⟨⟨n, hn.1, hn.2, hsub⟩, rfl⟩)
    | leaf a =>
      obtain ⟨j, n, hn, hmem⟩ := hspot
      obtain rfl := owner_eq hq (Worker.fileLike_of_mem_leaves (hready j) hmem).owns
      exact .inr (.inl ⟨⟨n, hn.1, hn.2, hmem⟩, a, rfl⟩)

/-- At the paths of no thread there are base directories only. -/
theorem Litter.between (h : Litter p dirs t) (hready : ∀ j, (worker p dirs j).Ready) : Between p t where
  rooted := h.rooted
  top := h.top
  outside q hge hne hout := by
    cases hlook : t.lookup q with
    | none => exact .inl rfl
    | some node =>
      refine .inr ?_
      have hspot := h.spot q node hge hne hlook
      cases node with
      | dir =>
        rcases hspot with (hbase | ⟨j, s, d, hd, hpre⟩) | ⟨j, n, -, rfl⟩
        · exact ⟨rfl, hbase⟩
        · by_cases hlen : p.top.length + 3 ≤ q.length
          · exact absurd (owns_of_mem_subdirs (hready j) hd hpre hlen) (hout j)
          · -- Above the directory of the thread.
            obtain ⟨parts, -, rfl⟩ := (hready j).of_mem_subdirs hd
            refine ⟨rfl, s, List.prefix_of_prefix_length_le hpre
              ((List.prefix_append _ _).trans (List.prefix_append _ _)) ?_⟩
            rw [Worker.length_base]
            omega
        · exact absurd (Worker.fileLike_subdir (hready j) n).owns (hout j)
      | leaf a =>
        obtain ⟨j, n, -, hmem⟩ := hspot
        exact absurd (Worker.fileLike_of_mem_leaves (hready j) hmem).owns (hout j)

namespace SuiteRun

/-- An invocation with one operation has ended, all threads with status 0, and all is cleaned up. -/
def SweptUp (r : SuiteRun p) : Prop := ∃ t, r = returned (.ok [allOk p]) t ∧ CleanedUp p t

/-- **A cleanup after anything** goes through and leaves nothing but the directories of the threads. -/
theorem cleaned_after (hown : p.isSharedDir = false) (hdirs : p.fileDirs = some dirs)
    (h : Left p dirs o t) : Inevitable step SweptUp (main [.cleanup] [] t : SuiteRun p) := by
  have hready : ∀ j, (worker p dirs j).Ready := fun _ => ⟨hown, hdirs⟩
  have hlitter := h.litter
  refine phase_of_solo (P := Cleaned) hdirs (hlitter.between hready) (fun t₁ h₁ hbase hagree i => ?_)
    (fun i t t' => cleanup_spec.stable _ t t' (hready i)) fun t₁ h₁ hp₁ => ?_
  · have hstrewn := hlitter.strewn hready (hagree i) h₁.rooted hbase
    obtain ⟨t₂, hclean, hpost⟩ := hstrewn.doCleanup_gives (hready i) fun q hq => hq.1
    exact ⟨t₂, solo_threadProgram Gives.pure hclean, hpost⟩
  · refine Inevitable.of_step (a := none) rfl (fun b s hb => ?_) (.now ⟨t₁, rfl, cleanedUp h₁ hp₁⟩)
    cases b with
    | none => exact (Option.some.inj hb).symm
    | some a => cases hb

/-- Two threads have made 3 files each, and are swept up after. -/
theorem cleaned_after_create : ∃ t, (∃ q a, t.lookup q = some (.leaf a)) ∧
    Inevitable step SweptUp (main [.cleanup] [] t :
      SuiteRun (sample 2 3 100 (by decide) (by decide) (by decide) (by decide))) := by
  have hempty := sample_emptyTop 2 3 100 (by decide) (by decide) (by decide) (by decide)
  have hfits : (sample 2 3 100 (by decide) (by decide) (by decide) (by decide)).fileDirs.isSome := by
    decide +kernel
  obtain ⟨dirs, hdirs⟩ := Option.isSome_iff_exists.mp hfits
  obtain ⟨t, hphase⟩ := exists_createPhase dirs rfl hdirs hempty
  obtain ⟨a, ha⟩ := (Created.of_phase hphase).file ⟨0, by decide⟩ 3 (by decide) (by decide)
  obtain ⟨-, t₀, t₁, s, htop, hbases, hrun, -, rfl⟩ := hphase
  exact ⟨s.mem, ⟨_, a, ha⟩, cleaned_after (o := ⟨0, 0, false⟩) rfl hdirs
    ((Left.empty htop).of_reaches hbases hrun)⟩

end SuiteRun

end

end Fstest.Smallfile
