import Fstest.Smallfile.Created
import Fstest.Smallfile.Radix

/-!
# Reading the directories of a suite

`do_readdir` goes through the files of a thread. When it comes to another directory it compares the
number of files that it has found in the last one with the number of names there, less those that
begin with a `d`, and lists the new one. A file has to be among the names of its directory.

After a complete create phase the names in a directory are those of the files with one quotient, of
all threads that work in one tree (`mem_fileNames`). So the counts are right for a thread that has a
tree of its own, and `doReaddir_iff` is the exact condition under which there is no error.
-/

namespace Fstest.Smallfile

open NameTree

/-! ## The operation -/

/-- Why `do_readdir` fails. -/
inductive ReaddirError where
  /-- `cannot do readdir test with --hash-into-dirs option` -/
  | hashed
  /-- A directory is not below the top directory. -/
  | outside
  /-- `readdir: not all files in directory {prev_dir} were found` -/
  | notAllFound (prevDir : Path)
  /-- `readdir: file missing from directory {prev_dir}` -/
  | missing (prevDir : Path)
  | os (e : FsError)
  deriving DecidableEq, Repr

structure ReaddirState where
  prevDir : Path
  dirMap : Finset String
  fileCount : ℕ

/-- The names in a directory. -/
def entryNames (t : NameTree Bytes) (d : Path) : Finset String :=
  ((t.keys.filter fun q => q ≠ [] ∧ q.dropLast = d).map fun q => q.getLastD "").toFinset

/-- `fs::read_dir` -/
def readDir (t : NameTree Bytes) (d : Path) : Except FsError (Finset String) :=
  match find t d with
  | .error e => .error e
  | .ok none => .error .noEnt
  | .ok (some (.leaf _)) => .error .notDir
  | .ok (some .dir) => .ok (entryNames t d)

/-- `fs::metadata` -/
def metadata (t : NameTree Bytes) (q : Path) : Except FsError (Node Bytes) :=
  match find t q with
  | .error e => .error e
  | .ok none => .error .noEnt
  | .ok (some node) => .ok node

def startsWithD (n : String) : Bool := n.toList.head? = some 'd'

/-- The listing of another directory, after the counts for the last one are compared. -/
def enterDir (t : NameTree Bytes) (top commonDir : Path) (s : ReaddirState) :
    Except ReaddirError ReaddirState :=
  if commonDir = s.prevDir then .ok s
  else if s.fileCount ≠ s.dirMap.card then .error (.notAllFound s.prevDir)
  else
    match readDir t (top ++ commonDir) with
    | .error e => .error (.os e)
    | .ok names => .ok ⟨commonDir, names.filter fun n => !startsWithD n, 0⟩

def statFile (statEach : Bool) (t : NameTree Bytes) (q : Path) : Except ReaddirError Unit :=
  if statEach then
    match metadata t q with
    | .error e => .error (.os e)
    | .ok _ => .ok ()
  else .ok ()

namespace Worker

variable (w : Worker)

/-- One round of the loop of `do_readdir`. -/
def readdirFile (statEach : Bool) (t : NameTree Bytes) (s : ReaddirState) (filenum : ℕ) :
    Except ReaddirError ReaddirState := do
  let fnm := w.mkFileNm .src filenum
  let dir := fnm.dropLast
  if w.p.top <+: dir then
    let s ← enterDir t w.p.top (dir.drop w.p.top.length) s
    let _ ← statFile statEach t fnm
    if fnm.getLastD "" ∈ s.dirMap then
      .ok { s with fileCount := s.fileCount + 1 }
    else .error (.missing s.prevDir)
  else .error .outside

/-- `do_readdir`, where `do_another_file` says yes for the first `files` files. -/
def doReaddir (statEach : Bool) (files : ℕ) (t : NameTree Bytes) : Except ReaddirError Unit :=
  if w.p.hashToDir then .error .hashed
  else do
    let _ ← (List.range' 1 files).foldlM (w.readdirFile statEach t) ⟨[], ∅, 0⟩
    .ok ()

end Worker

/-! ## Names -/

theorem mem_entryNames {t : NameTree Bytes} {d : Path} {x : String} :
    x ∈ entryNames t d ↔ d ++ [x] ∈ t := by
  rw [entryNames, List.mem_toFinset, List.mem_map]
  constructor
  · rintro ⟨q, hq, rfl⟩
    obtain ⟨hmem, hq⟩ := List.mem_filter.mp hq
    obtain ⟨hne, rfl⟩ := of_decide_eq_true hq
    rwa [List.getLastD_eq_getLast?, List.getLast?_eq_some_getLast hne, Option.getD_some,
      List.dropLast_concat_getLast]
  · intro hmem
    refine ⟨d ++ [x], List.mem_filter.mpr ⟨hmem, decide_eq_true ⟨?_, List.dropLast_concat⟩⟩, ?_⟩
    · exact List.append_ne_nil_of_right_ne_nil _ (List.cons_ne_nil _ _)
    · rw [List.getLastD_concat]

theorem startsWithD_part (digit : ℕ) : startsWithD (part digit) = true := by
  rw [startsWithD, part, String.toList_append]
  rfl

section

variable {p : SuiteParams} {dirs : List (List String)} {t : NameTree Bytes} {i j : Fin p.threads}
  {m n k : ℕ} {x : String}

theorem startsWithD_fileName (w : Worker) (n : ℕ) :
    startsWithD (w.fileName n) = startsWithD w.p.filePrefix := by
  rw [startsWithD, startsWithD, Worker.fileName, String.toList_append, String.toList_append]
  cases w.p.filePrefix.toList with
  | nil => simp [String.toList_append]
  | cons c l => rfl

theorem underscore_notMem_twoDigits (n : ℕ) : '_' ∉ (twoDigits n).toList := by
  have hdigits : ∀ k : ℕ, '_' ∉ (toString k).toList := fun k => notMem_toString rfl k
  rw [twoDigits]
  split
  · rw [String.toList_append, List.mem_append]
    exact not_or_intro (by decide) (hdigits n)
  · exact hdigits n

/-- The name of a file has the number of its thread. -/
theorem fileName_tid (h : (worker p dirs i).fileName m = (worker p dirs j).fileName n) : i = j := by
  have hrest : "_" ++ p.host ++ "_" ++ twoDigits i ++ "_" ++ (toString m ++ ("_" ++ p.fileSuffix)) =
      "_" ++ p.host ++ "_" ++ twoDigits j ++ "_" ++ (toString n ++ ("_" ++ p.fileSuffix)) := by
    simp only [Worker.fileName, String.append_assoc] at h ⊢
    exact append_left_cancel h
  simp only [String.append_assoc] at hrest
  have hlist := congrArg String.toList (append_left_cancel (append_left_cancel (append_left_cancel hrest)))
  simp only [String.toList_append] at hlist
  have hsplit := split_at_first (underscore_notMem_twoDigits i) (underscore_notMem_twoDigits j) hlist
  exact Fin.ext (twoDigits_injective (String.toList_injective hsplit.1))

/-- All threads of a suite compute the same names. -/
theorem mkSeqDirName_dir (hdirs : p.fileDirs = some dirs) (hhash : p.hashToDir = false)
    (hn : n < p.iterations + p.filesPerDir) : p.mkSeqDirName n = some ((worker p dirs i).dir n) := by
  have hnamed : (worker p dirs i).Named := ⟨hdirs⟩
  rw [← hnamed.mkDirName_eq hn, SuiteParams.mkDirName, hhash]
  rfl

variable (p dirs i) in
/-- The directories of a thread are below those that all threads share, or below its own. -/
theorem exists_root (s : Side) : ∃ parts, (worker p dirs i).root s = p.top ++ parts ∧
    parts.length = if p.isSharedDir then 1 else 3 := by
  cases hshared : p.isSharedDir with
  | true =>
    cases s with
    | src => exact ⟨["file_srcdir"], by simp [Worker.root, Worker.baseDirs, Params.srcDirs, hshared], rfl⟩
    | dest => exact ⟨["file_dstdir"], by simp [Worker.root, Worker.baseDirs, Params.destDirs, hshared], rfl⟩
  | false =>
    cases s with
    | src =>
      refine ⟨["file_srcdir", p.host, "thrd_" ++ twoDigits i], ?_, rfl⟩
      simp [Worker.root, Worker.baseDirs, Params.srcDirs, Params.srcBase, Worker.tidLabel, hshared]
    | dest =>
      refine ⟨["file_dstdir", p.host, "thrd_" ++ twoDigits i], ?_, rfl⟩
      simp [Worker.root, Worker.baseDirs, Params.destDirs, Params.destBase, Worker.tidLabel, hshared]

variable (p dirs i) in
theorem length_root (s : Side) :
    ((worker p dirs i).root s).length = p.top.length + if p.isSharedDir then 1 else 3 := by
  obtain ⟨parts, heq, hlen⟩ := exists_root p dirs i s
  rw [heq, List.length_append, hlen]

theorem top_prefix_root (s : Side) : p.top <+: (worker p dirs i).root s := by
  obtain ⟨parts, heq, -⟩ := exists_root p dirs i s
  exact heq ▸ List.prefix_append _ _

/-! ## What there is in a directory -/

variable (p dirs t i n) in
/-- The names in the directory of a file that `do_readdir` counts. -/
def fileNames : Finset String :=
  (entryNames t ((worker p dirs i).mkFileNm .src n).dropLast).filter fun x => !startsWithD x

/-- A directory below one of a suite is a part of a directory's name. -/
theorem startsWithD_of_dirSpot (hdirs : p.fileDirs = some dirs) (hhash : p.hashToDir = false)
    (hlen : p.top.length + 3 ≤ ((worker p dirs i).root .src ++ (worker p dirs i).dir n ++ [x]).length)
    (h : DirSpot p dirs ((worker p dirs i).root .src ++ (worker p dirs i).dir n ++ [x])) :
    startsWithD x = true := by
  rcases h with ⟨s, hs⟩ | ⟨j, s, d, hd, hpre⟩
  · have hle := hs.length_le
    rw [Worker.length_base] at hle
    omega
  · obtain ⟨m, hm, rfl⟩ := List.mem_map.mp hd
    rw [Worker.dropLast_mkFileNm_root, List.append_assoc] at hpre
    obtain ⟨rest, hrest⟩ := hpre
    rw [List.append_assoc] at hrest
    obtain ⟨-, hparts⟩ := List.append_inj hrest (by rw [length_root, length_root])
    have hmem : x ∈ (worker p dirs j).dir m := hparts ▸ by simp
    have hdirm := mkSeqDirName_dir (i := j) hdirs hhash (Worker.lt_of_mem_subdirFileNums hm)
    obtain ⟨digit, -, rfl⟩ := mkSeqDirName_parts hdirm x hmem
    exact startsWithD_part digit

/-- **An entry of a directory is a directory, or a file with the same quotient**, of a thread that works
in the same tree. -/
theorem entry_cases (h : OnlyCreated p dirs t) (hdirs : p.fileDirs = some dirs)
    (hhash : p.hashToDir = false) (hn : n ≤ p.iterations)
    (hx : ((worker p dirs i).mkFileNm .src n).dropLast ++ [x] ∈ t) : startsWithD x = true ∨
      ∃ j m, (worker p dirs j).InRange m ∧ (worker p dirs j).root .src = (worker p dirs i).root .src ∧
        m / p.filesPerDir = n / p.filesPerDir ∧ x = (worker p dirs j).fileName m := by
  have hpos := p.filesPerDir_pos
  have hdirn := mkSeqDirName_dir (i := i) hdirs hhash (n := n) (by omega)
  have hroot := length_root p dirs i .src
  rw [Worker.dropLast_mkFileNm_root] at hx
  obtain ⟨node, hnode⟩ := Option.isSome_iff_exists.mp (AList.lookup_isSome.mpr hx)
  have htop : p.top <+: (worker p dirs i).root .src ++ (worker p dirs i).dir n ++ [x] :=
    ((top_prefix_root .src).trans (List.prefix_append _ _)).trans (List.prefix_append _ _)
  have hlen : p.top.length + 3 ≤
      ((worker p dirs i).root .src ++ (worker p dirs i).dir n ++ [x]).length := by
    have hdir := List.length_pos_iff.mpr (mkSeqDirName_ne_nil hdirn)
    rw [List.length_append, List.length_append, List.length_singleton, hroot]
    split <;> omega
  have hspot := h.spot _ node htop (fun heq => by rw [heq] at hlen; omega) hnode
  cases node with
  | dir => exact .inl (startsWithD_of_dirSpot hdirs hhash hlen hspot)
  | leaf a =>
    obtain ⟨j, m, hm, heq⟩ := hspot
    have hle : m ≤ p.iterations := hm.2
    rw [Worker.mkFileNm_eq_root] at heq
    obtain ⟨hdir, hname⟩ := List.append_inj' heq rfl
    obtain ⟨hroots, hdirs'⟩ := List.append_inj hdir (by rw [length_root, length_root])
    have hdirm := mkSeqDirName_dir (i := j) hdirs hhash (n := m) (by omega)
    refine .inr ⟨j, m, hm, hroots.symm, ?_, (List.cons.inj hname).1⟩
    rw [← hdirs'] at hdirm
    exact mkSeqDirName_injective hdirm hdirn

/-- **The names that are counted**, where the names of files do not begin with a `d`. -/
theorem mem_fileNames (h : Created p dirs t) (hdirs : p.fileDirs = some dirs) (hhash : p.hashToDir = false)
    (hletter : startsWithD p.filePrefix = false) (hn : n ≤ p.iterations) :
    x ∈ fileNames p dirs t i n ↔
      ∃ j m, (worker p dirs j).InRange m ∧ (worker p dirs j).root .src = (worker p dirs i).root .src ∧
        m / p.filesPerDir = n / p.filesPerDir ∧ x = (worker p dirs j).fileName m := by
  have hpos := p.filesPerDir_pos
  rw [fileNames, Finset.mem_filter, mem_entryNames]
  constructor
  · rintro ⟨hx, hnot⟩
    refine (entry_cases h.toOnlyCreated hdirs hhash hn hx).resolve_left fun hd => ?_
    rw [hd] at hnot
    cases hnot
  · rintro ⟨j, m, hm, hroots, hquot, rfl⟩
    have hle : m ≤ p.iterations := hm.2
    obtain ⟨a, ha⟩ := h.file j m hm.1 hm.2
    have hdirs' : (worker p dirs j).dir m = (worker p dirs i).dir n := by
      have hdirm := mkSeqDirName_dir (i := j) hdirs hhash (n := m) (by omega)
      rw [mkSeqDirName_congr hquot, mkSeqDirName_dir (i := i) hdirs hhash (by omega)] at hdirm
      exact (Option.some.inj hdirm).symm
    rw [Worker.mkFileNm_eq_root, hroots, hdirs'] at ha
    rw [Worker.dropLast_mkFileNm_root]
    exact ⟨mem_of_lookup ha, by rw [startsWithD_fileName]; exact congrArg not hletter⟩

/-! ## Counts -/

/-- The number of files of one quotient, up to the last. -/
def foundUpTo (filesPerDir n : ℕ) : ℕ := n + 1 - max 1 (n / filesPerDir * filesPerDir)

theorem foundUpTo_succ {f : ℕ} (hn : 1 ≤ n) (h : (n + 1) / f = n / f) :
    foundUpTo f (n + 1) = foundUpTo f n + 1 := by
  have hle := Nat.div_mul_le_self n f
  rw [foundUpTo, foundUpTo, h]
  omega

/-- The last file of a quotient. -/
theorem eq_mul_of_div_ne {f : ℕ} (h : (n + 1) / f ≠ n / f) :
    n + 1 = (n / f + 1) * f ∧ (n + 1) / f = n / f + 1 := by
  by_cases hdvd : f ∣ n + 1
  · have hdiv := Nat.succ_div_of_dvd hdvd
    exact ⟨by rw [← hdiv, Nat.div_mul_cancel hdvd], hdiv⟩
  · exact absurd (Nat.succ_div_of_not_dvd hdvd) h

theorem foundUpTo_first {f : ℕ} (h : (n + 1) / f ≠ n / f) : foundUpTo f (n + 1) = 1 := by
  obtain ⟨hlast, hdiv⟩ := eq_mul_of_div_ne h
  rw [foundUpTo, hdiv, ← hlast]
  omega

theorem div_eq_iff_of_last {f : ℕ} (hf : 0 < f) (h : (n + 1) / f ≠ n / f) :
    m / f = n / f ↔ n / f * f ≤ m ∧ m ≤ n := by
  have hlast := (eq_mul_of_div_ne h).1
  rw [Nat.add_mul, Nat.one_mul] at hlast
  rw [Nat.div_eq_iff hf]
  omega

variable (p dirs i n) in
/-- The names of the thread's own files with the quotient of file `n`, up to `n`. -/
def ownNames : Finset String :=
  (Finset.Icc (max 1 (n / p.filesPerDir * p.filesPerDir)) n).image (worker p dirs i).fileName

variable (p dirs i n) in
theorem card_ownNames : (ownNames p dirs i n).card = foundUpTo p.filesPerDir n := by
  rw [ownNames, Finset.card_image_of_injective _ fun _ _ => Worker.fileName_injective, Nat.card_Icc,
    foundUpTo]

theorem ownNames_subset (h : Created p dirs t) (hdirs : p.fileDirs = some dirs)
    (hhash : p.hashToDir = false) (hletter : startsWithD p.filePrefix = false) (hn : n ≤ p.iterations)
    (hlast : (n + 1) / p.filesPerDir ≠ n / p.filesPerDir) :
    ownNames p dirs i n ⊆ fileNames p dirs t i n := by
  intro x hx
  obtain ⟨m, hm, rfl⟩ := Finset.mem_image.mp hx
  obtain ⟨hge, hle⟩ := Finset.mem_Icc.mp hm
  refine (mem_fileNames h hdirs hhash hletter hn).mpr ⟨i, m, ⟨?_, hle.trans hn⟩, rfl, ?_, rfl⟩
  · exact (Nat.le_max_left _ _).trans hge
  · exact (div_eq_iff_of_last p.filesPerDir_pos hlast).mpr ⟨(Nat.le_max_right _ _).trans hge, hle⟩

/-- **The counts agree for a thread that has its tree for itself.** -/
theorem card_fileNames_alone (h : Created p dirs t) (hdirs : p.fileDirs = some dirs)
    (hhash : p.hashToDir = false) (hletter : startsWithD p.filePrefix = false) (hn : n ≤ p.iterations)
    (hlast : (n + 1) / p.filesPerDir ≠ n / p.filesPerDir)
    (halone : ∀ j, (worker p dirs j).root .src = (worker p dirs i).root .src → j = i) :
    (fileNames p dirs t i n).card = foundUpTo p.filesPerDir n := by
  rw [← card_ownNames p dirs i n]
  refine congrArg Finset.card (Finset.Subset.antisymm (fun x hx => ?_)
    (ownNames_subset h hdirs hhash hletter hn hlast))
  obtain ⟨j, m, hm, hroot, hquot, rfl⟩ := (mem_fileNames h hdirs hhash hletter hn).mp hx
  obtain rfl := halone j hroot
  obtain ⟨hge, hle⟩ := (div_eq_iff_of_last p.filesPerDir_pos hlast).mp hquot
  exact Finset.mem_image_of_mem _ (Finset.mem_Icc.mpr ⟨Nat.max_le.mpr ⟨hm.1, hge⟩, hle⟩)

/-- **The counts differ where another thread has files in the same tree.** -/
theorem lt_card_fileNames (h : Created p dirs t) (hdirs : p.fileDirs = some dirs)
    (hhash : p.hashToDir = false) (hletter : startsWithD p.filePrefix = false) (h1 : 1 ≤ n)
    (hn : n ≤ p.iterations) (hlast : (n + 1) / p.filesPerDir ≠ n / p.filesPerDir) (hne : j ≠ i)
    (hroot : (worker p dirs j).root .src = (worker p dirs i).root .src) :
    foundUpTo p.filesPerDir n < (fileNames p dirs t i n).card := by
  rw [← card_ownNames p dirs i n]
  refine Finset.card_lt_card (Finset.ssubset_iff_subset_ne.mpr
    ⟨ownNames_subset h hdirs hhash hletter hn hlast, fun heq => ?_⟩)
  have hother : (worker p dirs j).fileName n ∈ fileNames p dirs t i n :=
    (mem_fileNames h hdirs hhash hletter hn).mpr ⟨j, n, ⟨h1, hn⟩, hroot, rfl, rfl⟩
  rw [← heq] at hother
  obtain ⟨m, -, hm⟩ := Finset.mem_image.mp hother
  exact hne (fileName_tid hm).symm

/-! ## The rounds -/

variable (p dirs i n) in
/-- The directory of a file, from the top directory on. -/
def commonDir : Path := ((worker p dirs i).mkFileNm .src n).dropLast.drop p.top.length

theorem top_prefix_dir (n : ℕ) : p.top <+: ((worker p dirs i).mkFileNm .src n).dropLast := by
  rw [Worker.dropLast_mkFileNm_root]
  exact (top_prefix_root .src).trans (List.prefix_append _ _)

variable (p dirs i) in
theorem top_append_commonDir (n : ℕ) :
    p.top ++ commonDir p dirs i n = ((worker p dirs i).mkFileNm .src n).dropLast :=
  (List.prefix_append_drop (top_prefix_dir n)).symm

theorem commonDir_ne_nil (n : ℕ) : commonDir p dirs i n ≠ [] := by
  intro hnil
  have hdir := top_append_commonDir p dirs i n
  have hlen := congrArg List.length hdir
  rw [hnil, List.append_nil, Worker.dropLast_mkFileNm_root, List.length_append, length_root] at hlen
  split at hlen <;> omega

theorem commonDir_eq_iff (hdirs : p.fileDirs = some dirs) (hhash : p.hashToDir = false)
    (hm : m ≤ p.iterations) (hn : n ≤ p.iterations) :
    commonDir p dirs i m = commonDir p dirs i n ↔ m / p.filesPerDir = n / p.filesPerDir := by
  have hpos := p.filesPerDir_pos
  have hdirm := mkSeqDirName_dir (i := i) hdirs hhash (n := m) (by omega)
  have hdirn := mkSeqDirName_dir (i := i) hdirs hhash (n := n) (by omega)
  rw [← List.append_right_inj p.top, top_append_commonDir, top_append_commonDir,
    Worker.dropLast_mkFileNm_root, Worker.dropLast_mkFileNm_root, List.append_right_inj]
  constructor
  · intro heq
    rw [heq] at hdirm
    exact mkSeqDirName_injective hdirm hdirn
  · intro heq
    rw [mkSeqDirName_congr heq, hdirn] at hdirm
    exact (Option.some.inj hdirm).symm

variable (p dirs t i) in
/-- The state of the loop after `n` files. -/
def stateAfter : ℕ → ReaddirState
  | 0 => ⟨[], ∅, 0⟩
  | n + 1 => ⟨commonDir p dirs i (n + 1), fileNames p dirs t i (n + 1), foundUpTo p.filesPerDir (n + 1)⟩

variable {s s' : ReaddirState} {statEach : Bool}

theorem enterDir_new (h : Created p dirs t) (hn : (worker p dirs i).InRange n)
    (hne : commonDir p dirs i n ≠ s.prevDir) (hcount : s.fileCount = s.dirMap.card) :
    enterDir t p.top (commonDir p dirs i n) s =
      .ok ⟨commonDir p dirs i n, fileNames p dirs t i n, 0⟩ := by
  obtain ⟨a, ha⟩ := h.file i n hn.1 hn.2
  have hparent := (h.rooted _ (mem_of_lookup ha)).2
  rw [enterDir, if_neg hne, if_neg (not_not.mpr hcount), top_append_commonDir, readDir,
    find_of_isDir h.rooted hparent]
  rfl

/-- **A round**, once the directory of the file is listed. -/
theorem readdirFile_of_enter (h : Created p dirs t) (hn : (worker p dirs i).InRange n)
    (henter : enterDir t p.top (commonDir p dirs i n) s = .ok s') :
    (worker p dirs i).readdirFile statEach t s n =
      if (worker p dirs i).fileName n ∈ s'.dirMap then .ok { s' with fileCount := s'.fileCount + 1 }
      else .error (.missing s'.prevDir) := by
  obtain ⟨a, ha⟩ := h.file i n hn.1 hn.2
  have hstat : statFile statEach t ((worker p dirs i).mkFileNm .src n) = .ok () := by
    rw [statFile, metadata, find_of_lookup h.rooted ha]
    cases statEach <;> rfl
  have hname : ((worker p dirs i).mkFileNm .src n).getLastD "" = (worker p dirs i).fileName n := by
    rw [Worker.mkFileNm_eq_root, List.getLastD_concat]
  rw [commonDir] at henter
  simp only [Worker.readdirFile, if_pos (top_prefix_dir n), henter, hstat, hname]
  rfl

theorem readdirFile_found (h : Created p dirs t) (hn : (worker p dirs i).InRange n)
    (henter : enterDir t p.top (commonDir p dirs i n) s = .ok s')
    (hmem : (worker p dirs i).fileName n ∈ s'.dirMap) :
    (worker p dirs i).readdirFile statEach t s n = .ok { s' with fileCount := s'.fileCount + 1 } :=
  (readdirFile_of_enter h hn henter).trans (if_pos hmem)

theorem readdirFile_of_error {e : ReaddirError}
    (henter : enterDir t p.top (commonDir p dirs i n) s = .error e) :
    (worker p dirs i).readdirFile statEach t s n = .error e := by
  rw [commonDir] at henter
  simp only [Worker.readdirFile, if_pos (top_prefix_dir n), henter]
  rfl

theorem fileName_mem (h : Created p dirs t) (hdirs : p.fileDirs = some dirs) (hhash : p.hashToDir = false)
    (hletter : startsWithD p.filePrefix = false) (hn : (worker p dirs i).InRange n) :
    (worker p dirs i).fileName n ∈ fileNames p dirs t i n :=
  (mem_fileNames h hdirs hhash hletter hn.2).mpr ⟨i, n, hn, rfl, rfl, rfl⟩

theorem fileNames_congr (hdirs : p.fileDirs = some dirs) (hhash : p.hashToDir = false)
    (hm : m ≤ p.iterations) (hn : n ≤ p.iterations) (h : m / p.filesPerDir = n / p.filesPerDir) :
    fileNames p dirs t i m = fileNames p dirs t i n := by
  have hdir := (commonDir_eq_iff (i := i) hdirs hhash hm hn).mpr h
  rw [fileNames, fileNames, ← top_append_commonDir, hdir, top_append_commonDir]

/-- **A round that goes on**: the file is in the directory of the last one, or the counts agree. -/
theorem readdirFile_ok (h : Created p dirs t) (hdirs : p.fileDirs = some dirs)
    (hhash : p.hashToDir = false) (hletter : startsWithD p.filePrefix = false) (hn : n < p.iterations)
    (hcount : n ≠ 0 → (n + 1) / p.filesPerDir ≠ n / p.filesPerDir →
      (fileNames p dirs t i n).card = foundUpTo p.filesPerDir n) :
    (worker p dirs i).readdirFile statEach t (stateAfter p dirs t i n) (n + 1) =
      .ok (stateAfter p dirs t i (n + 1)) := by
  have hin : (worker p dirs i).InRange (n + 1) := ⟨Nat.succ_pos n, hn⟩
  have hmem := fileName_mem h hdirs hhash hletter hin
  cases n with
  | zero =>
    have henter := enterDir_new (s := stateAfter p dirs t i 0) h hin (commonDir_ne_nil 1) rfl
    have hone : foundUpTo p.filesPerDir 1 = 1 := by
      have := Nat.div_mul_le_self 1 p.filesPerDir
      rw [foundUpTo]
      omega
    rw [readdirFile_found h hin henter hmem, stateAfter, hone]
  | succ n =>
    by_cases hquot : (n + 1 + 1) / p.filesPerDir = (n + 1) / p.filesPerDir
    · have hdir := (commonDir_eq_iff (i := i) hdirs hhash hin.2 (Nat.le_of_lt hn)).mpr hquot
      have hnames := fileNames_congr (t := t) (i := i) hdirs hhash hin.2 (Nat.le_of_lt hn) hquot
      have henter : enterDir t p.top (commonDir p dirs i (n + 1 + 1)) (stateAfter p dirs t i (n + 1)) =
          .ok (stateAfter p dirs t i (n + 1)) := if_pos hdir
      rw [hnames] at hmem
      rw [readdirFile_found h hin henter hmem, stateAfter, stateAfter,
        foundUpTo_succ (Nat.succ_pos n) hquot, hdir, hnames]
    · have hne : commonDir p dirs i (n + 1 + 1) ≠ (stateAfter p dirs t i (n + 1)).prevDir := fun heq =>
        hquot ((commonDir_eq_iff (i := i) hdirs hhash hin.2 (Nat.le_of_lt hn)).mp heq)
      have henter := enterDir_new h hin hne (hcount (Nat.succ_ne_zero n) hquot).symm
      rw [readdirFile_found h hin henter hmem, stateAfter, foundUpTo_first hquot]

/-- A round that finds a wrong count. -/
theorem readdirFile_notAllFound (hdirs : p.fileDirs = some dirs) (hhash : p.hashToDir = false)
    (h1 : 1 ≤ n) (hn : n < p.iterations) (hquot : (n + 1) / p.filesPerDir ≠ n / p.filesPerDir)
    (hcount : foundUpTo p.filesPerDir n ≠ (fileNames p dirs t i n).card) :
    (worker p dirs i).readdirFile statEach t (stateAfter p dirs t i n) (n + 1) =
      .error (.notAllFound (commonDir p dirs i n)) := by
  obtain ⟨m, rfl⟩ : ∃ m, n = m + 1 := ⟨n - 1, by omega⟩
  have hne : commonDir p dirs i (m + 1 + 1) ≠ (stateAfter p dirs t i (m + 1)).prevDir := fun heq =>
    hquot ((commonDir_eq_iff (i := i) hdirs hhash hn (Nat.le_of_lt hn)).mp heq)
  refine readdirFile_of_error ?_
  rw [enterDir, if_neg hne]
  exact if_pos hcount

/-- The first file, where the names of files begin with a `d`. -/
theorem readdirFile_missing (h : Created p dirs t) (hletter : startsWithD p.filePrefix = true)
    (hn : 1 ≤ p.iterations) : (worker p dirs i).readdirFile statEach t (stateAfter p dirs t i 0) 1 =
      .error (.missing (commonDir p dirs i 1)) := by
  have hin : (worker p dirs i).InRange 1 := ⟨Nat.le_refl 1, hn⟩
  have henter := enterDir_new (s := stateAfter p dirs t i 0) h hin (commonDir_ne_nil 1) rfl
  rw [readdirFile_of_enter h hin henter]
  refine if_neg fun hmem => ?_
  have hnot := (Finset.mem_filter.mp hmem).2
  rw [startsWithD_fileName, hletter] at hnot
  cases hnot

/-! ## The loop -/

/-- A thread shares its tree with no other one. -/
theorem eq_of_root (hdirs : p.fileDirs = some dirs) (hone : p.isSharedDir = false ∨ p.threads = 1)
    (h : (worker p dirs j).root .src = (worker p dirs i).root .src) : j = i := by
  rcases hone with hown | hone
  · have hready : ∀ i, (worker p dirs i).Ready := fun i => ⟨hown, hdirs⟩
    rw [(hready j).root_eq, (hready i).root_eq] at h
    have hlabel := (List.cons.inj (List.append_cancel_left h)).1
    exact Fin.ext (twoDigits_injective (append_left_cancel hlabel))
  · have hi := i.isLt
    have hj := j.isLt
    exact Fin.ext (by omega)

theorem root_shared (hshared : p.isSharedDir = true) :
    (worker p dirs j).root .src = (worker p dirs i).root .src := by
  have hroot : ∀ i, (worker p dirs i).root .src = p.top ++ ["file_srcdir"] := fun i => by
    simp [Worker.root, Worker.baseDirs, Params.srcDirs, hshared]
  rw [hroot, hroot]

theorem doReaddir_eq (hhash : p.hashToDir = false) : (worker p dirs i).doReaddir statEach k t = (do
    let _ ← (List.range' 1 k).foldlM ((worker p dirs i).readdirFile statEach t) (stateAfter p dirs t i 0)
    .ok ()) := by
  rw [Worker.doReaddir]
  exact if_neg (by rw [hhash]; exact Bool.false_ne_true)

theorem doReaddir_ok (hhash : p.hashToDir = false)
    (h : ∀ n < k, (worker p dirs i).readdirFile statEach t (stateAfter p dirs t i n) (n + 1) =
      .ok (stateAfter p dirs t i (n + 1))) : (worker p dirs i).doReaddir statEach k t = .ok () := by
  rw [doReaddir_eq hhash, foldlM_range_ok h]
  rfl

theorem doReaddir_error {e : ReaddirError} (hhash : p.hashToDir = false)
    (h : ∀ m < n, (worker p dirs i).readdirFile statEach t (stateAfter p dirs t i m) (m + 1) =
      .ok (stateAfter p dirs t i (m + 1))) (hn : n < k)
    (herr : (worker p dirs i).readdirFile statEach t (stateAfter p dirs t i n) (n + 1) = .error e) :
    (worker p dirs i).doReaddir statEach k t = .error e := by
  rw [doReaddir_eq hhash, foldlM_range_error h hn herr]
  rfl

/-- The first change of the directory. -/
theorem exists_first_change {f : ℕ} (h1 : 1 ≤ k) (h : k / f ≠ 1 / f) : ∃ n, 1 ≤ n ∧ n < k ∧
    (n + 1) / f ≠ n / f ∧ ∀ m, 1 ≤ m → m < n → (m + 1) / f = m / f := by
  have hex : ∃ n, 1 ≤ n ∧ n < k ∧ (n + 1) / f ≠ n / f := by
    by_contra hnone
    refine h ?_
    induction k, h1 using Nat.le_induction with
    | base => rfl
    | succ k hk ih =>
      have hsame : (k + 1) / f = k / f := by
        by_contra hne
        exact hnone ⟨k, hk, Nat.lt_succ_self k, hne⟩
      by_cases heq : k / f = 1 / f
      · rw [hsame, heq]
      · refine absurd (ih heq fun ⟨n, hn, hlt, hne⟩ => hnone ⟨n, hn, Nat.lt_succ_of_lt hlt, hne⟩) heq
  classical
  obtain ⟨hn, hlt, hne⟩ := Nat.find_spec hex
  refine ⟨Nat.find hex, hn, hlt, hne, fun m hm hmn => ?_⟩
  by_contra hchange
  exact Nat.find_min hex hmn ⟨hm, hmn.trans hlt, hchange⟩

/-- **When `do_readdir` has no error** after a complete create phase, with or without a stat of each
file: the prefix of the names does not begin with a `d`, and the thread shares its tree with no other
one, or all its files are in one directory. -/
theorem doReaddir_iff (hphase : CreatePhase p dirs t) (hhash : p.hashToDir = false) (i : Fin p.threads)
    (statEach : Bool) (h1 : 1 ≤ k) (hk : k ≤ p.iterations) :
    (worker p dirs i).doReaddir statEach k t = .ok () ↔ startsWithD p.filePrefix = false ∧
      (p.isSharedDir = false ∨ p.threads = 1 ∨ k / p.filesPerDir = 1 / p.filesPerDir) := by
  have h := Created.of_phase hphase
  have hdirs := hphase.1
  cases hletter : startsWithD p.filePrefix with
  | true =>
    rw [doReaddir_error (n := 0) hhash (fun m hm => absurd hm (Nat.not_lt_zero m)) h1
      (readdirFile_missing h hletter (h1.trans hk))]
    exact iff_of_false nofun fun hcond => nomatch hcond.1
  | false =>
    have hround : ∀ n < k, (n ≠ 0 → (n + 1) / p.filesPerDir ≠ n / p.filesPerDir →
        (fileNames p dirs t i n).card = foundUpTo p.filesPerDir n) →
        (worker p dirs i).readdirFile statEach t (stateAfter p dirs t i n) (n + 1) =
          .ok (stateAfter p dirs t i (n + 1)) := fun n hn =>
      readdirFile_ok h hdirs hhash hletter (hn.trans_le hk)
    by_cases hone : p.isSharedDir = false ∨ p.threads = 1
    · refine iff_of_true (doReaddir_ok hhash fun n hn => hround n hn fun _ hlast => ?_)
        ⟨rfl, hone.imp_right .inl⟩
      exact card_fileNames_alone h hdirs hhash hletter (hn.le.trans hk) hlast fun j => eq_of_root hdirs hone
    · by_cases hquot : k / p.filesPerDir = 1 / p.filesPerDir
      · refine iff_of_true (doReaddir_ok hhash fun n hn => hround n hn fun h0 hlast => ?_)
          ⟨rfl, .inr (.inr hquot)⟩
        -- The quotients grow from that of 1 to that of `k`.
        have hlow : 1 / p.filesPerDir ≤ n / p.filesPerDir := Nat.div_le_div_right (by omega)
        have hmid : n / p.filesPerDir ≤ (n + 1) / p.filesPerDir := Nat.div_le_div_right (by omega)
        have hhigh : (n + 1) / p.filesPerDir ≤ k / p.filesPerDir := Nat.div_le_div_right (by omega)
        exact absurd (by omega) hlast
      · obtain ⟨hshared, hthreads⟩ := not_or.mp hone
        obtain ⟨n, hn1, hnk, hlast, hbefore⟩ := exists_first_change h1 hquot
        obtain ⟨j, hj⟩ : ∃ j, j ≠ i := by
          have : Nontrivial (Fin p.threads) := Fin.nontrivial_iff_two_le.mpr (by
            have := p.threads_pos
            omega)
          exact exists_ne i
        have hlt := lt_card_fileNames h hdirs hhash hletter hn1 (hnk.le.trans hk) hlast hj
          (root_shared (Bool.not_eq_false _ ▸ hshared))
        rw [doReaddir_error hhash (fun m hm => hround m (hm.trans hnk) fun h0 hne =>
          absurd (hbefore m (by omega) hm) hne) hnk
          (readdirFile_notAllFound hdirs hhash hn1 (hnk.trans_le hk) hlast hlt.ne)]
        exact iff_of_false nofun fun hcond => hcond.2.elim hshared fun h => h.elim hthreads hquot

/-- Two threads with two files each, in a directory for each file. -/
def twoReaders : SuiteParams :=
  SuiteRun.sample 2 2 1 Nat.two_pos Nat.two_pos (by decide) Nat.one_pos

theorem doReaddir_twoReaders : ∃ t, CreatePhase twoReaders [["d_000"], ["d_001"], ["d_002"]] t ∧
    ∀ i statEach, (worker twoReaders [["d_000"], ["d_001"], ["d_002"]] i).doReaddir statEach 2 t = .ok () := by
  obtain ⟨t, ht⟩ := exists_createPhase (p := twoReaders) [["d_000"], ["d_001"], ["d_002"]] rfl rfl
    (SuiteRun.sample_emptyTop ..)
  exact ⟨t, ht, fun i statEach =>
    (doReaddir_iff ht rfl i statEach (by decide) (by decide)).mpr ⟨rfl, .inl rfl⟩⟩

/-- One thread with one file, whose name begins with a `d`. -/
def dPrefixed : SuiteParams :=
  { SuiteRun.sample 1 1 1 Nat.one_pos Nat.one_pos one_lt_u32Size Nat.one_pos with
    filePrefix := "d"
    filePrefix_name := by decide }

/-- **The directory has the file, and `do_readdir` does not find it.** -/
theorem doReaddir_dPrefixed : ∃ t, CreatePhase dPrefixed [["d_000"], ["d_001"]] t ∧
    (worker dPrefixed [["d_000"], ["d_001"]] ⟨0, by decide⟩).doReaddir false 1 t =
      .error (.missing ["file_srcdir", "host", "thrd_00", "d_001"]) := by
  have hempty : SuiteRun.EmptyTop dPrefixed ∅ := ⟨rooted_empty, .inl rfl, fun _ _ _ => AList.lookup_empty _⟩
  obtain ⟨t, ht⟩ := exists_createPhase [["d_000"], ["d_001"]] rfl rfl hempty
  refine ⟨t, ht, ?_⟩
  rw [doReaddir_error (n := 0) rfl (fun m hm => absurd hm (Nat.not_lt_zero m)) (by decide)
    (readdirFile_missing (Created.of_phase ht) rfl (by decide))]
  rfl

end

end Fstest.Smallfile
