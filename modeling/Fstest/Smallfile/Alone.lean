import Fstest.Smallfile.Programs
import Fstest.Smallfile.Share

/-!
# Threads of a suite, alone

What the operations on directories and files do when their thread is alone: no call fails but those
whose failure the code expects, and the thread has after it what the next phase needs. A loop over the
files is proved round by round (`eachFile_holds`), from what one round does to the files of one number.
-/

namespace Fstest.Smallfile

open NameTree
open Threads (Gives)

variable {O : Call → Prop} {t t' t'' : NameTree Bytes} {p q d : Path}

/-! ## Records -/

theorem length_buildBiggestBuf : buildBiggestBuf.length = biggestBufSize + bufOffsetRange := by
  have hdouble : ∀ (l : List ℕ) (b : Bytes),
      (l.foldl (fun buf _ => buf ++ buf) b).length = 2 ^ l.length * b.length := by
    intro l
    induction l with
    | nil => exact fun b => (Nat.one_mul _).symm
    | cons _ l ih =>
      intro b
      rw [List.foldl_cons, ih, List.length_append, List.length_cons, pow_succ, ← Nat.two_mul,
        Nat.mul_assoc]
  rw [buildBiggestBuf, List.length_append, hdouble, firstBuf, List.length_map, List.length_range,
    List.length_range]
  rfl

/-- Every record is a slice of the buffer. -/
theorem length_record {uo kb : ℕ} (huo : uo < bufOffsetRange) (hkb : kb * 1024 ≤ biggestBufSize) :
    (record uo kb).length = kb * 1024 := by
  rw [record, List.length_take, List.length_drop, length_buildBiggestBuf]
  omega

theorem le_of_mem_records {rszkb remaining kb : ℕ} (h : kb ∈ records rszkb remaining) : kb ≤ rszkb := by
  induction remaining using Nat.strongRecOn with
  | ind remaining ih =>
    rw [records] at h
    split at h
    · rcases List.mem_cons.mp h with rfl | h
      · exact Nat.min_le_left _ _
      · exact ih _ (by omega) h
    · cases h

theorem sum_records {rszkb : ℕ} (h : 0 < rszkb) (remaining : ℕ) :
    (records rszkb remaining).sum = remaining := by
  induction remaining using Nat.strongRecOn with
  | ind remaining ih =>
    rw [records]
    split
    · rw [List.sum_cons, ih _ (by omega)]
      omega
    · rw [List.sum_nil]
      omega

namespace Worker

variable {w : Worker} {n : ℕ}

/-- The record size is 0 only for files that are empty. -/
theorem recordSizeToUse_pos (h : 0 < w.getNextFileSizeKb n) : 0 < w.p.recordSizeToUse := by
  have htotal : 0 < w.p.totalSzKb := by
    rw [getNextFileSizeKb] at h
    split at h
    · exact h
    · rw [randomSizeLimit] at h
      omega
  rw [SuiteParams.recordSizeToUse, biggestBufSize]
  split <;> omega

/-- **The records make up the size of the file.** -/
theorem sum_fileRecords (w : Worker) (n : ℕ) : (w.fileRecords n).sum = w.getNextFileSizeKb n := by
  rw [fileRecords]
  by_cases hsize : 0 < w.getNextFileSizeKb n
  · exact sum_records (recordSizeToUse_pos hsize) _
  · have hzero : w.getNextFileSizeKb n = 0 := by omega
    rw [hzero, records, if_neg (by omega)]
    rfl

theorem uniqueOffset_lt (w : Worker) (n : ℕ) : w.uniqueOffset n < bufOffsetRange :=
  Nat.mod_lt _ (by decide)

theorem mul_le_of_mem_fileRecords {kb : ℕ} (h : kb ∈ w.fileRecords n) : kb * 1024 ≤ biggestBufSize := by
  have hkb : kb ≤ biggestBufSize / 1024 := (le_of_mem_records h).trans (Nat.min_le_right _ _)
  omega

end Worker

/-! ## Calls -/

theorem gives_ask {c : Call} (hc : O c) : Gives apply O (ask c) t (apply c t).1 (apply c t).2 :=
  Gives.ask hc

/-- A call, with its reply and what comes after it. -/
theorem gives_bind {α : Type} {c : Call} {r : Reply} {a : α} {f : Reply → Thread α} (hc : O c)
    (happ : apply c t = (r, t')) (h : Gives apply O (f r) t' a t'') :
    Gives apply O (ask c >>= f) t a t'' := by
  refine (gives_ask hc).bind ?_
  rw [happ]
  exact h

theorem gives_sys {c : Call} {a : Answer} (hc : O c) (happ : apply c t = (.ok a, t')) :
    Gives apply O (sys c) t a t' :=
  gives_bind hc happ Gives.pure

/-! ## Contents -/

/-- What a file has after its records are written. -/
def recordsData (uo : ℕ) (kbs : List ℕ) : Bytes := kbs.flatMap (record uo)

section

variable {uo : ℕ} {kbs : List ℕ}

theorem writeRecords_overwrites (huo : uo < bufOffsetRange)
    (hkbs : ∀ kb ∈ kbs, kb * 1024 ≤ biggestBufSize) (hown : ∀ pos data, O (.write p pos data)) {f : Bytes}
    {pos : ℕ} (ht : Rooted t) (hf : t.lookup p = some (.leaf f)) (hpos : pos ≤ f.length) :
    ∃ t', Gives apply O (writeRecords p uo pos kbs) t () t' ∧
      Becomes t p (some (.leaf (overwrite f pos (recordsData uo kbs)))) t' := by
  induction kbs generalizing t f pos with
  | nil =>
    refine ⟨t, Gives.pure, .refl ht ?_⟩
    rw [hf, recordsData, List.flatMap_nil, overwrite_nil hpos]
  | cons kb kbs ih =>
    have hlen := length_record huo (hkbs kb List.mem_cons_self)
    have happ : apply (.write p pos (record uo kb)) t =
        (.ok .done, t.insert p (.leaf (overwrite f pos (record uo kb)))) := by
      rw [apply, onFile_spec ht hf]
    have hbec := becomes_insert (rooted_insert_leaf ht hf (b := overwrite f pos (record uo kb)))
    have hnext : pos + kb * 1024 ≤ (overwrite f pos (record uo kb)).length := by
      rw [length_overwrite, hlen]
      omega
    obtain ⟨t', hgives, hrest⟩ := ih (fun kb h => hkbs kb (List.mem_cons_of_mem _ h)) hbec.rooted
      hbec.lookup_self hnext
    refine ⟨t', (gives_sys (hown _ _) happ).bind hgives, ?_⟩
    rw [recordsData, List.flatMap_cons, ← overwrite_append, hlen]
    exact hbec.trans hrest

/-- Records at the end of a file. -/
theorem writeRecords_gives (huo : uo < bufOffsetRange) (hkbs : ∀ kb ∈ kbs, kb * 1024 ≤ biggestBufSize)
    (hown : ∀ pos data, O (.write p pos data)) {a : Bytes} (ht : Rooted t)
    (ha : t.lookup p = some (.leaf a)) :
    ∃ t', Gives apply O (writeRecords p uo a.length kbs) t () t' ∧
      Becomes t p (some (.leaf (a ++ recordsData uo kbs))) t' := by
  rw [← overwrite_length]
  exact writeRecords_overwrites huo hkbs hown ht ha (Nat.le_refl _)

/-- What has been written is read back, whatever comes after it. -/
theorem readRecords_gives (verify : Bool) (huo : uo < bufOffsetRange)
    (hkbs : ∀ kb ∈ kbs, kb * 1024 ≤ biggestBufSize) (hown : ∀ pos n, O (.read p pos n))
    {a more : Bytes} (ht : Rooted t) (ha : t.lookup p = some (.leaf (a ++ recordsData uo kbs ++ more))) :
    Gives apply O (readRecords verify p uo a.length kbs) t () t := by
  induction kbs generalizing a with
  | nil => exact Gives.pure
  | cons kb kbs ih =>
    have hlen := length_record huo (hkbs kb List.mem_cons_self)
    rw [recordsData, List.flatMap_cons, ← List.append_assoc] at ha
    have happ : apply (.read p a.length (kb * 1024)) t = (.ok (.data (record uo kb)), t) := by
      rw [apply, onFile_spec ht ha, List.append_assoc, List.append_assoc, List.drop_left, ← hlen,
        List.take_left]
    have hrest := ih (a := a ++ record uo kb) (fun kb h => hkbs kb (List.mem_cons_of_mem _ h)) ha
    rw [List.length_append, hlen] at hrest
    refine (gives_sys (hown _ _) happ).bind ?_
    rw [Answer.bytes, if_neg (by omega), bne_self_eq_false, Bool.and_false, if_neg Bool.false_ne_true]
    exact hrest

end

/-! ## Directories -/

theorem okIfDir_gives {e : FsError} (ht : Rooted t) (hd : IsDir t d) (hown : O (.stat d)) :
    Gives apply O (okIfDir d e) t () t := by
  have happ : apply (.stat d) t = (.ok .dir, t) := by
    rw [apply, find_of_isDir ht hd]
  exact gives_bind hown happ Gives.pure

/-- A directory that exists stays. -/
theorem createDirAll_isDir (ht : Rooted t) (hd : IsDir t d) (hown : O (.mkdir d) ∧ O (.stat d)) :
    Gives apply O (createDirAll d) t () t := by
  have happ : apply (.mkdir d) t = (.error .exist, t) := by
    rw [apply, add, find_of_isDir ht hd]
    rfl
  rw [createDirAll]
  exact gives_bind hown.1 happ (okIfDir_gives ht hd hown.2)

/-- A directory whose parent exists is made. -/
theorem createDirAll_new (ht : Rooted t) (hd : d ≠ []) (hparent : IsDir t d.dropLast)
    (hnone : t.lookup d = none) (hown : O (.mkdir d)) :
    ∃ t', Gives apply O (createDirAll d) t () t' ∧ Becomes t d (some .dir) t' := by
  obtain ⟨t', hadd, hbec⟩ := add_spec .dir ht hd hparent hnone
  have happ : apply (.mkdir d) t = (.ok .done, t') := by
    rw [apply, hadd]
    rfl
  refine ⟨t', ?_, hbec⟩
  rw [createDirAll]
  exact gives_bind hown happ Gives.pure

/-- All that is on the way to `d`, and `d`, are directories now. -/
structure WayMade (t : NameTree Bytes) (d : Path) (t' : NameTree Bytes) : Prop where
  rooted : Rooted t'
  lookup : ∀ q, t'.lookup q = if q ≠ [] ∧ q <+: d then some .dir else t.lookup q

theorem WayMade.refl (ht : Rooted t) (hd : IsDir t d) : WayMade t d t where
  rooted := ht
  lookup q := by
    split
    · rename_i hq
      exact (ht.isDir_prefix hd hq.2).resolve_left hq.1
    · rfl

theorem WayMade.isDir (h : WayMade t d t') : IsDir t' d := by
  by_cases hd : d = []
  · exact .inl hd
  · exact .inr ((h.lookup d).trans (if_pos ⟨hd, List.prefix_refl d⟩))

/-- Directories stay, and all else that is not on the way. -/
theorem WayMade.isDir_of (h : WayMade t d t') (hq : IsDir t q) : IsDir t' q := by
  rcases hq with rfl | hq
  · exact .inl rfl
  · refine .inr ((h.lookup q).trans ?_)
    split
    · rfl
    · exact hq

theorem WayMade.concat {c : Path} {n : String} (h : WayMade t c t')
    (hbec : Becomes t' (c ++ [n]) (some .dir) t'') : WayMade t (c ++ [n]) t'' where
  rooted := hbec.rooted
  lookup q := by
    simp only [hbec.lookup, h.lookup, List.prefix_concat_iff]
    by_cases hq : q = c ++ [n]
    · have hne : q ≠ [] := hq ▸ List.append_ne_nil_of_right_ne_nil _ (List.cons_ne_nil _ _)
      rw [if_pos hq, if_pos ⟨hne, .inl hq⟩]
    · simp only [hq, if_false, false_or]

/-- **All directories on the way are made**, from a directory that exists on. -/
theorem createDirAll_gives {anchor : Path} (ht : Rooted t) (ha : IsDir t anchor) (hpre : anchor <+: d)
    (hway : ∀ q, q ≠ [] → q <+: d → ∀ a, t.lookup q ≠ some (.leaf a))
    (hown : ∀ q, anchor <+: q → q <+: d → q ≠ anchor ∨ q = d → O (.mkdir q) ∧ O (.stat q)) :
    ∃ t', Gives apply O (createDirAll d) t () t' ∧ WayMade t d t' := by
  induction d using List.reverseRecOn with
  | nil => exact ⟨t, createDirAll_isDir ht (.inl rfl) (hown [] hpre (List.prefix_refl _) (.inr rfl)),
      .refl ht (.inl rfl)⟩
  | append_singleton c n ih =>
    have hself := hown (c ++ [n]) hpre (List.prefix_refl _) (.inr rfl)
    by_cases hd : IsDir t (c ++ [n])
    · exact ⟨t, createDirAll_isDir ht hd hself, .refl ht hd⟩
    · have hne : c ++ [n] ≠ [] := List.append_ne_nil_of_right_ne_nil _ (List.cons_ne_nil _ _)
      have hnone : t.lookup (c ++ [n]) = none := by
        cases hlook : t.lookup (c ++ [n]) with
        | none => rfl
        | some node =>
          cases node with
          | dir => exact absurd (.inr hlook) hd
          | leaf a => exact absurd hlook (hway _ hne (List.prefix_refl _) a)
      by_cases hc : IsDir t c
      · obtain ⟨t', hgives, hbec⟩ := createDirAll_new ht hne (by rwa [List.dropLast_concat]) hnone hself.1
        exact ⟨t', hgives, (WayMade.refl ht hc).concat hbec⟩
      · -- The parent is missing: it is made first, with what is missing above it.
        have happ : apply (.mkdir (c ++ [n])) t = (.error .noEnt, t) := by
          rcases find_noEnt hne hnone hway with hf | hf
          · have := (of_find hf nofun).2.1
            rw [List.dropLast_concat] at this
            exact absurd this hc
          · rw [apply, add, hf]
            rfl
        have hanchor : anchor <+: c := by
          rcases List.prefix_concat_iff.mp hpre with rfl | h
          · exact absurd ha hd
          · exact h
        obtain ⟨t₁, hgives, hmade⟩ := ih hanchor
          (fun q hq hqc => hway q hq (hqc.trans (List.prefix_append c [n])))
          (fun q hq hqc hor => hown q hq (hqc.trans (List.prefix_append c [n]))
            (.inl (by rintro rfl; exact hc (hor.elim (absurd rfl) fun h => h ▸ ha))))
        have hnone₁ : t₁.lookup (c ++ [n]) = none := by
          rw [hmade.lookup, if_neg fun h => absurd h.2.length_le (by simp)]
          exact hnone
        obtain ⟨t₂, hadd, hbec⟩ := add_spec .dir hmade.rooted hne
          (by rw [List.dropLast_concat]; exact hmade.isDir) hnone₁
        have happ₂ : apply (.mkdir (c ++ [n])) t₁ = (.ok .done, t₂) := by
          rw [apply, hadd]
          rfl
        refine ⟨t₂, ?_, hmade.concat hbec⟩
        rw [createDirAll]
        refine gives_bind hself.1 happ ?_
        dsimp only
        rw [dif_neg hne, List.dropLast_concat]
        exact hgives.bind (gives_bind hself.1 happ₂ Gives.pure)

namespace Worker

variable {w : Worker} {s : Side} {n : ℕ} {D : Path → Prop} {c : Side → ℕ → Option Bytes}

theorem ownCall_of {c : Call} (hc : c.paths = [p]) (hp : w.Owns p) : w.OwnCall c := fun q hq => by
  rw [hc] at hq
  exact List.mem_singleton.mp hq ▸ hp

/-- Without files, no file is on the way to a directory of the thread. -/
theorem Holds.no_leaf (h : w.Holds D (fun _ _ => none) t) (ht : Rooted t) (hd : w.DirLike d)
    (hq : q <+: d) (hne : q ≠ []) (a : Bytes) : t.lookup q ≠ some (.leaf a) := by
  intro hleaf
  rcases hd.way hq with ⟨s, hs⟩ | hown
  · have hdir := (ht.isDir_prefix (h.base s) hs).resolve_left hne
    rw [hleaf] at hdir
    cases hdir
  · have hdir := (h.only_dirs hown (by rw [hleaf]; exact Option.some_ne_none _)).2
    rw [hleaf] at hdir
    cases hdir

theorem Holds.wayMade (h : w.Holds D (fun _ _ => none) t) (hw : w.Ready) (hd : w.DirLike d)
    (hmade : WayMade t d t') : w.Holds (fun q => D q ∨ w.Owns q ∧ q <+: d) (fun _ _ => none) t' where
  base s := hmade.isDir_of (h.base s)
  dir q hq := by
    rw [hmade.lookup]
    split
    · rfl
    · rename_i hnot
      rcases hq with hq | ⟨⟨s, hs⟩, hpre⟩
      · exact h.dir q hq
      · exact absurd ⟨fun hnil => absurd hs (by simp [hnil, tree]), hpre⟩ hnot
  file s n hn := by
    rw [hmade.lookup, if_neg fun hq => (hw.fileLike_mkFileNm s n).not_on_way hd hq.2]
    exact h.file s n hn
  other q hq hnot hfile := by
    rw [hmade.lookup, if_neg fun hpre => hnot (.inr ⟨hq, hpre.2⟩)]
    exact h.other q hq (fun hD => hnot (.inl hD)) hfile

/-- What lies below the base directory on the way to a directory of the thread is its own. -/
theorem owns_of_way {parts : Path} (hge : s.base w.p.toParams <+: q) (hle : q <+: w.tree s ++ parts)
    (hor : q ≠ s.base w.p.toParams ∨ q = w.tree s ++ parts) : w.Owns q := by
  refine ⟨s, ?_⟩
  rcases List.prefix_or_prefix_of_prefix hle (List.prefix_append (w.tree s) parts) with h | h
  · rcases List.prefix_concat_iff.mp h with rfl | h
    · exact List.prefix_refl _
    · have heq : q = s.base w.p.toParams := h.eq_of_length_le hge.length_le
      refine hor.elim (fun hne => absurd heq hne) fun htop => ?_
      rw [htop]
      exact List.prefix_append _ _
  · exact h

theorem mem_dirset_subdirs : d ∈ dirset (w.subdirs .src ++ w.subdirs .dest) ↔ ∃ s, d ∈ w.subdirs s := by
  rw [mem_dirset, List.mem_append]
  constructor
  · rintro (h | h)
    exacts [⟨_, h⟩, ⟨_, h⟩]
  · rintro ⟨s, hs⟩
    cases s
    exacts [.inl hs, .inr hs]

/-- The thread makes its directories and has those in `rest` still to make. -/
structure Making (w : Worker) (rest : List Path) (t : NameTree Bytes) : Prop where
  rooted : Rooted t
  mem : ∀ d ∈ rest, ∃ s, d ∈ w.subdirs s
  holds : ∃ D, w.Holds D (fun _ _ => none) t ∧ (∀ q, D q → w.Made q) ∧
    ∀ q, w.Made q → D q ∨ ∃ d ∈ rest, q <+: d

theorem Making.start (ht : Rooted t) (h : w.Holds (fun _ => False) (fun _ _ => none) t) :
    w.Making (dirset (w.subdirs .src ++ w.subdirs .dest)) t where
  rooted := ht
  mem _ hd := mem_dirset_subdirs.mp hd
  holds := by
    refine ⟨_, h, fun q hq => hq.elim, fun q hq => .inr ?_⟩
    obtain ⟨-, s, d, hd, hpre⟩ := hq
    exact ⟨d, mem_dirset_subdirs.mpr ⟨s, hd⟩, hpre⟩

theorem Making.step (hw : w.Ready) {rest : List Path} (h : w.Making (d :: rest) t) :
    ∃ t', Gives apply w.OwnCall (createDirAll d) t () t' ∧ w.Making rest t' := by
  obtain ⟨ht, hmem, D, hD, hsub, hall⟩ := h
  obtain ⟨s, hs⟩ := hmem d List.mem_cons_self
  have hlike := hw.dirLike_subdir hs
  obtain ⟨parts, -, rfl⟩ := hw.of_mem_subdirs hs
  have hbase : s.base w.p.toParams <+: w.tree s ++ parts :=
    (List.prefix_append _ _).trans (List.prefix_append _ _)
  obtain ⟨t', hgives, hmade⟩ := createDirAll_gives (O := w.OwnCall) ht (hD.base s) hbase
    (fun q hne hq => hD.no_leaf ht hlike hq hne)
    (fun q hge hle hor => ⟨ownCall_of rfl (owns_of_way hge hle hor), ownCall_of rfl (owns_of_way hge hle hor)⟩)
  refine ⟨t', hgives, hmade.rooted, fun d hd => hmem d (List.mem_cons_of_mem _ hd), _,
    hD.wayMade hw hlike hmade, fun q hq => ?_, fun q hq => ?_⟩
  · exact hq.elim (hsub q) fun hq => ⟨hq.1, s, _, hs, hq.2⟩
  · rcases hall q hq with hq' | ⟨d', hd', hpre⟩
    · exact .inl (.inl hq')
    · rcases List.mem_cons.mp hd' with rfl | hd'
      · exact .inl (.inr ⟨hq.1, hpre⟩)
      · exact .inr ⟨d', hd', hpre⟩

/-- All that were to be made are there, and nothing else. -/
theorem Making.done (h : w.Making [] t) : w.Holds w.Made (fun _ _ => none) t := by
  obtain ⟨-, -, D, hD, hsub, hall⟩ := h
  have heq : D = w.Made := by
    funext q
    refine propext ⟨hsub q, fun hq => (hall q hq).resolve_right ?_⟩
    rintro ⟨_, hd, -⟩
    exact absurd hd List.not_mem_nil
  exact heq ▸ hD

/-- **All directories that the files need are made.** -/
theorem makeAllSubdirs_gives (hw : w.Ready) (ht : Rooted t)
    (h : w.Holds (fun _ => False) (fun _ _ => none) t) :
    ∃ t', Gives apply w.OwnCall w.makeAllSubdirs t () t' ∧ Rooted t' ∧
      w.Holds w.Made (fun _ _ => none) t' := by
  obtain ⟨t', hgives, hmaking⟩ :=
    Gives.forM (I := w.Making) (fun _ _ _ hmaking => hmaking.step hw) (Making.start ht h)
  refine ⟨t', ?_, hmaking.rooted, hmaking.done⟩
  rw [makeAllSubdirs, hw.own_dir]
  exact hgives

/-! ## Loops over the files -/

theorem eachFile_gives {I : ℕ → NameTree Bytes → Prop} {body : ℕ → Thread Unit}
    (hstep : ∀ k t, k < w.p.iterations → I k t → ∃ t', Gives apply O (body (k + 1)) t () t' ∧ I (k + 1) t')
    (h : I 0 t) : ∃ t', Gives apply O (w.eachFile body) t () t' ∧ I w.p.iterations t' := by
  let I' : List ℕ → NameTree Bytes → Prop := fun rest t =>
    ∃ k, k ≤ w.p.iterations ∧ rest = List.range' (k + 1) (w.p.iterations - k) ∧ I k t
  have hstep' : ∀ n rest t, I' (n :: rest) t → ∃ t', Gives apply O (body n) t () t' ∧ I' rest t' := by
    rintro n rest t ⟨k, hk, hrest, hI⟩
    obtain ⟨left, hleft⟩ : ∃ left, w.p.iterations - k = left + 1 := by
      cases hleft : w.p.iterations - k with
      | zero =>
        rw [hleft] at hrest
        cases hrest
      | succ left => exact ⟨left, rfl⟩
    rw [hleft, List.range'_succ] at hrest
    cases hrest
    obtain ⟨t', hgives, hI'⟩ := hstep k t (by omega) hI
    refine ⟨t', hgives, k + 1, by omega, ?_, hI'⟩
    rw [show w.p.iterations - (k + 1) = left by omega]
  obtain ⟨t', hgives, k, hk, hnil, hI⟩ := Gives.forM hstep' ⟨0, Nat.zero_le _, rfl, h⟩
  have hend : w.p.iterations - k = 0 := by
    have := congrArg List.length hnil
    rw [List.length_range'] at this
    exact this.symm
  refine ⟨t', hgives, ?_⟩
  rwa [show k = w.p.iterations by omega] at hI

/-- The contents with those of one file replaced. -/
def replace (c : Side → ℕ → Option Bytes) (s : Side) (n : ℕ) (o : Option Bytes) :
    Side → ℕ → Option Bytes :=
  fun s' n' => if s' = s ∧ n' = n then o else c s' n'

theorem Holds.replace (h : w.Holds D c t) (hw : w.Ready) (hD : ∀ q, D q → w.DirLike q) {o : Option Bytes}
    (hn : w.InRange n) (ht : Becomes t (w.mkFileNm s n) (o.map .leaf) t') :
    w.Holds D (Worker.replace c s n o) t' := by
  refine h.becomes hw hD hn ht (if_pos ⟨rfl, rfl⟩) fun s' n' _ hne => if_neg fun heq => hne ?_
  rw [heq.1, heq.2]

/-- A loop whose round `n` takes the files with number `n` from `c` to `c'`. -/
theorem eachFile_holds {c' : Side → ℕ → Option Bytes} {body : ℕ → Thread Unit}
    (hbody : ∀ n t c₀, w.InRange n → Rooted t → w.Holds D c₀ t → (∀ s, c₀ s n = c s n) →
      ∃ t' c₁, Gives apply O (body n) t () t' ∧ Rooted t' ∧ w.Holds D c₁ t' ∧
        ∀ s n', c₁ s n' = if n' = n then c' s n else c₀ s n')
    (ht : Rooted t) (h : w.Holds D c t) :
    ∃ t', Gives apply O (w.eachFile body) t () t' ∧ Rooted t' ∧ w.Holds D c' t' := by
  let I : ℕ → NameTree Bytes → Prop := fun k t => Rooted t ∧
    w.Holds D (fun s n => if n ≤ k then c' s n else c s n) t
  have hstart : I 0 t := ⟨ht, h.congr fun s n hn => (if_neg (by have := hn.1; omega)).symm⟩
  have hstep : ∀ k t, k < w.p.iterations → I k t →
      ∃ t', Gives apply O (body (k + 1)) t () t' ∧ I (k + 1) t' := by
    rintro k t hk ⟨ht, h⟩
    obtain ⟨t', c₁, hgives, ht', h', hc₁⟩ := hbody (k + 1) t _ ⟨by omega, hk⟩ ht h fun s => if_neg (by omega)
    refine ⟨t', hgives, ht', h'.congr fun s n _ => ?_⟩
    rw [hc₁]
    by_cases hn : n = k + 1
    · rw [if_pos hn, if_pos (by omega), hn]
    · rw [if_neg hn]
      exact if_congr (by omega) rfl rfl
  obtain ⟨t', hgives, ht', h'⟩ := eachFile_gives hstep hstart
  exact ⟨t', hgives, ht', h'.congr fun s n hn => if_pos hn.2⟩

/-! ## The operations -/

/-- What a thread writes to a file in one pass. -/
def written (w : Worker) (n : ℕ) : Bytes := recordsData (w.uniqueOffset n) (w.fileRecords n)

/-- There are files on one side only. -/
def filesAt (s : Side) (data : ℕ → Bytes) : Side → ℕ → Option Bytes :=
  fun s' n => if s' = s then some (data n) else none

theorem Ready.own_file (hw : w.Ready) {c : Call} (hc : c.paths = [w.mkFileNm s n]) : w.OwnCall c :=
  ownCall_of hc (hw.fileLike_mkFileNm s n).owns

/-- The parent of a file is among the directories made. -/
theorem Holds.isDir_parent (h : w.Holds w.Made c t) (hw : w.Ready) (s : Side) (hn : w.InRange n) :
    IsDir t (w.mkFileNm s n).dropLast :=
  .inr (h.dir _ (hw.made_dropLast s hn))

theorem Ready.mkFileNm_ne_nil (hw : w.Ready) (s : Side) (n : ℕ) : w.mkFileNm s n ≠ [] := by
  rw [hw.mkFileNm_eq]
  exact List.append_ne_nil_of_right_ne_nil _ (List.cons_ne_nil _ _)

theorem Ready.dirLike_of_made (hw : w.Ready) : ∀ q, w.Made q → w.DirLike q := fun _ => hw.dirLike_made

theorem doCreate_gives (hw : w.Ready) (ht : Rooted t) (h : w.Holds w.Made (fun _ _ => none) t) :
    ∃ t', Gives apply w.OwnCall w.doCreate t () t' ∧ Rooted t' ∧
      w.Holds w.Made (filesAt .src w.written) t' := by
  refine eachFile_holds (fun n t c₀ hn ht h hc => ?_) ht h
  obtain ⟨t₁, hadd, hbec₁⟩ := add_spec (.leaf []) ht (hw.mkFileNm_ne_nil .src n)
    (h.isDir_parent hw .src hn) (by rw [h.file .src n hn, hc]; rfl)
  have happ : apply (.createNew (w.mkFileNm .src n)) t = (.ok .done, t₁) := by
    rw [apply, hadd]
    rfl
  obtain ⟨t₂, hwrites, hbec₂⟩ := writeRecords_gives (O := w.OwnCall) (w.uniqueOffset_lt n)
    (fun kb hkb => mul_le_of_mem_fileRecords hkb) (fun _ _ => hw.own_file rfl) hbec₁.rooted
    hbec₁.lookup_self
  refine ⟨t₂, _, (gives_sys (hw.own_file rfl) happ).bind hwrites, hbec₂.rooted,
    h.replace hw hw.dirLike_of_made hn (o := some (w.written n)) (hbec₁.trans hbec₂), fun s n' => ?_⟩
  rw [Worker.replace, filesAt]
  by_cases hn' : n' = n
  · cases s <;> simp [hn', hc]
  · simp [hn']

theorem doRead_gives (hw : w.Ready) {more : ℕ → Bytes} (ht : Rooted t)
    (h : w.Holds w.Made (filesAt .src fun n => w.written n ++ more n) t) :
    ∃ t', Gives apply w.OwnCall w.doRead t () t' ∧ Rooted t' ∧
      w.Holds w.Made (filesAt .src fun n => w.written n ++ more n) t' := by
  refine eachFile_holds (fun n t c₀ hn ht h hc => ?_) ht h
  have hfile : t.lookup (w.mkFileNm .src n) = some (.leaf (w.written n ++ more n)) := by
    rw [h.file .src n hn, hc]
    rfl
  have hreads := readRecords_gives (O := w.OwnCall) w.p.verifyRead (w.uniqueOffset_lt n)
    (fun kb hkb => mul_le_of_mem_fileRecords hkb) (fun _ _ => hw.own_file rfl) (a := []) ht hfile
  refine ⟨t, c₀, (gives_sys (hw.own_file rfl) (openFile_keeps ht hfile)).bind hreads, ht, h,
    fun s n' => ?_⟩
  split
  · rename_i hn'
    rw [hn', hc]
  · rfl

theorem doAppend_gives (hw : w.Ready) (ht : Rooted t) (h : w.Holds w.Made (filesAt .src w.written) t) :
    ∃ t', Gives apply w.OwnCall (w.doWrite true false) t () t' ∧ Rooted t' ∧
      w.Holds w.Made (filesAt .src fun n => w.written n ++ w.written n) t' := by
  refine eachFile_holds (fun n t c₀ hn ht h hc => ?_) ht h
  have hfile : t.lookup (w.mkFileNm .src n) = some (.leaf (w.written n)) := by
    rw [h.file .src n hn, hc]
    rfl
  obtain ⟨t', hwrites, hbec⟩ := writeRecords_gives (O := w.OwnCall) (w.uniqueOffset_lt n)
    (fun kb hkb => mul_le_of_mem_fileRecords hkb) (fun _ _ => hw.own_file rfl) ht hfile
  refine ⟨t', _, (gives_sys (hw.own_file rfl) (openFile_keeps ht hfile)).bind
    ((gives_sys (hw.own_file rfl) (seekEnd_spec ht hfile)).bind hwrites), hbec.rooted,
    h.replace hw hw.dirLike_of_made hn (o := some (w.written n ++ w.written n)) hbec, fun s n' => ?_⟩
  rw [Worker.replace, filesAt]
  by_cases hn' : n' = n
  · cases s <;> simp [hn', hc, filesAt]
  · simp [hn']

theorem Ready.renamed_eq (hw : w.Ready) (n : ℕ) : w.renamed n = w.mkFileNm .dest n := by
  refine if_neg fun heq => ?_
  rw [hw.baseDirs_eq, hw.baseDirs_eq] at heq
  cases tree_injective (List.cons.inj heq).1

theorem doRename_gives (hw : w.Ready) {data : ℕ → Bytes} (ht : Rooted t)
    (h : w.Holds w.Made (filesAt .src data) t) :
    ∃ t', Gives apply w.OwnCall w.doRename t () t' ∧ Rooted t' ∧
      w.Holds w.Made (filesAt .dest data) t' := by
  refine eachFile_holds (fun n t c₀ hn ht h hc => ?_) ht h
  have hsrc : t.lookup (w.mkFileNm .src n) = some (.leaf (data n)) := by
    rw [h.file .src n hn, hc]
    rfl
  obtain ⟨t₁, t₂, hmove, hbec₁, hbec₂⟩ := move_spec ht hsrc (hw.mkFileNm_ne_nil .dest n)
    (h.isDir_parent hw .dest hn) (by rw [h.file .dest n hn, hc]; rfl)
  have happ : apply (.rename (w.mkFileNm .src n) (w.renamed n)) t = (.ok .done, t₂) := by
    rw [apply, hw.renamed_eq, hmove]
    rfl
  have hown : w.OwnCall (.rename (w.mkFileNm .src n) (w.renamed n)) := by
    intro q hq
    rw [hw.renamed_eq] at hq
    rcases List.mem_cons.mp hq with rfl | hq
    · exact (hw.fileLike_mkFileNm _ _).owns
    · exact List.mem_singleton.mp hq ▸ (hw.fileLike_mkFileNm _ _).owns
  have h₁ := h.replace hw hw.dirLike_of_made hn (o := none) hbec₁
  refine ⟨t₂, _, (gives_sys hown happ).bind Gives.pure, hbec₂.rooted,
    h₁.replace hw hw.dirLike_of_made hn (o := some (data n)) hbec₂, fun s n' => ?_⟩
  rw [Worker.replace, Worker.replace, filesAt]
  by_cases hn' : n' = n
  · cases s <;> simp [hn']
  · simp [hn']

theorem doDeleteRenamed_gives (hw : w.Ready) {data : ℕ → Bytes} (ht : Rooted t)
    (h : w.Holds w.Made (filesAt .dest data) t) :
    ∃ t', Gives apply w.OwnCall w.doDeleteRenamed t () t' ∧ Rooted t' ∧
      w.Holds w.Made (fun _ _ => none) t' := by
  refine eachFile_holds (fun n t c₀ hn ht h hc => ?_) ht h
  have hdest : t.lookup (w.mkFileNm .dest n) = some (.leaf (data n)) := by
    rw [h.file .dest n hn, hc]
    rfl
  obtain ⟨t', hunlink, hbec⟩ := unlink_spec ht hdest
  have happ : apply (.unlink (w.renamed n)) t = (.ok .done, t') := by
    rw [apply, hw.renamed_eq, hunlink]
    rfl
  have hown : w.OwnCall (.unlink (w.renamed n)) := by
    rw [hw.renamed_eq]
    exact hw.own_file rfl
  refine ⟨t', _, (gives_sys hown happ).bind Gives.pure, hbec.rooted,
    h.replace hw hw.dirLike_of_made hn (o := none) hbec, fun s n' => ?_⟩
  rw [Worker.replace]
  by_cases hn' : n' = n
  · cases s <;> simp [hn', hc, filesAt]
  · simp [hn']

end Worker

end Fstest.Smallfile
