import Fstest.Lib.Checked
import Fstest.Smallfile.Phase
import Mathlib.Algebra.Order.Ring.Nat
import Mathlib.Data.List.GetD

/-!
# Names of a smallfile suite

The directory of a file is named after the file's number, as a number of radix `dirs_per_dir` or by a
hash. The names of all files up to `iterations + files_per_dir` are computed when a thread starts, in
`u32` arithmetic; `Fits` is the exact condition under which that does not overflow. An overflow is a
panic here (`none`), as in a build with overflow checks.

Paths are lists of components here, so a directory name is the list of its parts, and the name of a
file is one component. What the suite needs of the names: a file's name determines its number and has
more underscores than a directory's, and the directories made in advance have that of every file.
-/

namespace Fstest.Smallfile

inductive Distr where
  | fixed
  | exponential
  deriving DecidableEq, Repr

/-- The parameters of a suite, as the command line and `run` admit them. `draws tid n` is the draw of
thread `tid` for its `n`-th file size; it is the same in every phase. -/
structure SuiteParams extends Params where
  recordSzKb : ℕ
  totalSzKb : ℕ
  filesizeDistr : Distr
  dirsPerDir : ℕ
  verifyRead : Bool
  draws : ℕ → ℕ → ℕ
  iterations_pos : 0 < iterations
  iterations_lt : iterations < u32Size
  threads_pos : 0 < threads
  filesPerDir_pos : 0 < filesPerDir
  dirsPerDir_pos : 0 < dirsPerDir
  recordSzKb_le : recordSzKb ≤ totalSzKb ∨ totalSzKb = 0
  filePrefix_name : '/' ∉ filePrefix.toList
  fileSuffix_name : '/' ∉ fileSuffix.toList

/-! The defaults of the program pass its checks. -/

theorem one_lt_u32Size : 1 < u32Size := by decide

theorem defaultFilesPerDir_pos : 0 < 100 := by decide

theorem defaultDirsPerDir_pos : 0 < 10 := by decide

theorem defaultRecordSz_le : 0 ≤ 64 ∨ 64 = 0 := .inl (Nat.zero_le 64)

theorem defaultAffix_name : '/' ∉ "".toList := by decide

/-- The decimal number of at least three digits. -/
def threeDigits (n : ℕ) : String := if n < 10 then "00" ++ toString n else
  if n < 100 then "0" ++ toString n else toString n

def somePrime : ℕ := 900593

/-- The powers of `dirs_per_dir` up to `dirIn`, as the loop of `mk_seq_dir_name` finds them, with a
bound on its rounds. -/
def levelDirs (dirsPerDir dirIn : ℕ) : ℕ → ℕ → Option (List ℕ)
  | 0, _ => none
  | rounds + 1, dirsForThisLevel =>
    if dirsForThisLevel ≤ dirIn then do
      let next ← mulU32 dirsForThisLevel dirsPerDir
      let levels ← levelDirs dirsPerDir dirIn rounds next
      pure (dirsForThisLevel :: levels)
    else some []

/-- The digits of `dirIn`, from the highest of the levels down. -/
def seqParts : List ℕ → ℕ → List String
  | [], dirIn => ["d_" ++ threeDigits dirIn]
  | lvl :: levels, dirIn =>
    ("d_" ++ threeDigits (dirIn / lvl)) :: seqParts levels (dirIn - dirIn / lvl * lvl)

/-- The loop of `mk_hashed_dir_name`, with a bound on its rounds. -/
def hashedParts (dirsPerDir : ℕ) : ℕ → ℕ → List String → Option (List String)
  | 0, _, _ => none
  | rounds + 1, dirNum, pathlist =>
    if 1 < dirNum then
      hashedParts dirsPerDir rounds (dirNum / dirsPerDir)
        (("h_" ++ threeDigits (dirNum * somePrime % dirsPerDir)) :: pathlist)
    else some pathlist

namespace SuiteParams

variable (p : SuiteParams)

/-- 32 rounds are enough for a radix of at least 2, as the level doubles in each. -/
def mkSeqDirName (fileNum : ℕ) : Option (List String) := do
  let dirIn := fileNum / p.filesPerDir
  let levels ← levelDirs p.dirsPerDir dirIn 32 p.dirsPerDir
  pure (seqParts levels.reverse dirIn)

-- The products are `u64` ones of a `u32` and a number of 20 bits.
def mkHashedDirName (fileNum : ℕ) : Option (List String) :=
  hashedParts p.dirsPerDir 32 (fileNum * somePrime % p.iterations / p.filesPerDir) []

def mkDirName (fileNum : ℕ) : Option (List String) :=
  if p.hashToDir then p.mkHashedDirName fileNum else p.mkSeqDirName fileNum

/-- The directory names that a thread computes when it starts. `none` is a panic. -/
def fileDirs : Option (List (List String)) := do
  let n ← addU32 p.iterations p.filesPerDir
  (List.range n).mapM p.mkDirName

/-- **The condition under which the directory names can be computed.** -/
def Fits : Prop :=
  p.iterations + p.filesPerDir < u32Size ∧
    (p.hashToDir = false → ∀ k,
      p.dirsPerDir ^ (k + 1) ≤ (p.iterations + p.filesPerDir - 1) / p.filesPerDir →
        p.dirsPerDir ^ (k + 2) < u32Size)

end SuiteParams

/-! ## When the directory names can be computed -/

/-- The levels overflow exactly if the square of the radix, or a higher power of it, is needed and
does not fit. -/
theorem levelDirs_isSome_iff {dirsPerDir dirIn : ℕ} (hradix : 2 ≤ dirsPerDir) (hdir : dirIn < u32Size)
    {rounds k : ℕ} (hrounds : 32 ≤ k + 1 + rounds) :
    (levelDirs dirsPerDir dirIn (rounds + 1) (dirsPerDir ^ (k + 1))).isSome ↔
      ∀ j, k ≤ j → dirsPerDir ^ (j + 1) ≤ dirIn → dirsPerDir ^ (j + 2) < u32Size := by
  have habove : ∀ k j, k ≤ j → dirIn < dirsPerDir ^ (k + 1) → ¬ dirsPerDir ^ (j + 1) ≤ dirIn :=
    fun k j hj hlt => Nat.not_le.mpr
      (Nat.lt_of_lt_of_le hlt (Nat.pow_le_pow_right (by omega) (Nat.succ_le_succ hj)))
  induction rounds generalizing k with
  | zero =>
    have hpow : u32Size ≤ dirsPerDir ^ (k + 1) :=
      (Nat.pow_le_pow_right (by decide) hrounds).trans (Nat.pow_le_pow_left hradix (k + 1))
    have hlt := Nat.lt_of_lt_of_le hdir hpow
    rw [levelDirs, if_neg (Nat.not_le.mpr hlt)]
    exact iff_of_true rfl fun j hj hle => absurd hle (habove k j hj hlt)
  | succ rounds ih =>
    rw [levelDirs]
    by_cases hle : dirsPerDir ^ (k + 1) ≤ dirIn
    · rw [if_pos hle, mulU32, ← pow_succ]
      by_cases hlt : dirsPerDir ^ (k + 2) < u32Size
      · rw [if_pos hlt]
        have hrest : (levelDirs dirsPerDir dirIn (rounds + 1) (dirsPerDir ^ (k + 2))).isSome ↔
            ∀ j, k + 1 ≤ j → dirsPerDir ^ (j + 1) ≤ dirIn → dirsPerDir ^ (j + 2) < u32Size :=
          ih (by omega)
        have hmap : ((do
            let levels ← levelDirs dirsPerDir dirIn (rounds + 1) (dirsPerDir ^ (k + 2))
            pure (dirsPerDir ^ (k + 1) :: levels) : Option (List ℕ))).isSome ↔
              (levelDirs dirsPerDir dirIn (rounds + 1) (dirsPerDir ^ (k + 2))).isSome := by
          cases levelDirs dirsPerDir dirIn (rounds + 1) (dirsPerDir ^ (k + 2)) <;> rfl
        refine (hmap.trans hrest).trans ⟨fun h j hj hle => ?_, fun h j hj => h j (by omega)⟩
        rcases Nat.eq_or_lt_of_le hj with rfl | hj
        · exact hlt
        · exact h j hj hle
      · rw [if_neg hlt]
        exact iff_of_false Bool.false_ne_true fun h => hlt (h k (Nat.le_refl k) hle)
    · rw [if_neg hle]
      exact iff_of_true rfl fun j hj hle' => absurd hle' (habove k j hj (Nat.not_le.mp hle))

theorem hashedParts_isSome {dirsPerDir : ℕ} (hradix : 2 ≤ dirsPerDir) {rounds dirNum : ℕ}
    (h : dirNum < 2 ^ (rounds + 1)) (pathlist : List String) :
    (hashedParts dirsPerDir (rounds + 1) dirNum pathlist).isSome := by
  induction rounds generalizing dirNum pathlist with
  | zero =>
    rw [hashedParts, if_neg (by omega)]
    rfl
  | succ rounds ih =>
    rw [hashedParts]
    split
    · refine ih ?_ _
      rw [Nat.div_lt_iff_lt_mul (by omega)]
      exact Nat.lt_of_lt_of_le h (by rw [pow_succ]; exact Nat.mul_le_mul_left _ hradix)
    · rfl

section

variable {p : SuiteParams}

theorem mkSeqDirName_isSome_iff (hradix : 2 ≤ p.dirsPerDir) {n : ℕ} (hn : n < u32Size) :
    (p.mkSeqDirName n).isSome ↔ ∀ k, p.dirsPerDir ^ (k + 1) ≤ n / p.filesPerDir →
      p.dirsPerDir ^ (k + 2) < u32Size := by
  have hdir : n / p.filesPerDir < u32Size := Nat.lt_of_le_of_lt (Nat.div_le_self _ _) hn
  have hlevels : (levelDirs p.dirsPerDir (n / p.filesPerDir) (31 + 1) (p.dirsPerDir ^ (0 + 1))).isSome ↔ _ :=
    levelDirs_isSome_iff hradix hdir (by decide)
  rw [Nat.zero_add, pow_one] at hlevels
  have hmap : (p.mkSeqDirName n).isSome ↔
      (levelDirs p.dirsPerDir (n / p.filesPerDir) 32 p.dirsPerDir).isSome := by
    rw [SuiteParams.mkSeqDirName]
    cases levelDirs p.dirsPerDir (n / p.filesPerDir) 32 p.dirsPerDir <;> simp
  rw [hmap, hlevels]
  exact forall_congr' fun k => ⟨fun h => h (Nat.zero_le k), fun h _ => h⟩

theorem mkHashedDirName_isSome (hradix : 2 ≤ p.dirsPerDir) (n : ℕ) :
    (p.mkHashedDirName n).isSome := by
  refine hashedParts_isSome hradix ?_ []
  have hmod := Nat.mod_lt (n * somePrime) p.iterations_pos
  have hdiv := Nat.div_le_self (n * somePrime % p.iterations) p.filesPerDir
  exact Nat.lt_of_le_of_lt hdiv (hmod.trans p.iterations_lt)

/-- **The threads of a suite start exactly if the names fit.** -/
theorem fileDirs_isSome_iff (hradix : 2 ≤ p.dirsPerDir) : p.fileDirs.isSome ↔ p.Fits := by
  rw [SuiteParams.fileDirs, SuiteParams.Fits, addU32]
  by_cases hsum : p.iterations + p.filesPerDir < u32Size
  · rw [if_pos hsum]
    have hall : ((List.range (p.iterations + p.filesPerDir)).mapM p.mkDirName).isSome ↔
        ∀ n, n < p.iterations + p.filesPerDir → (p.mkDirName n).isSome := by
      rw [mapM_isSome]
      exact forall_congr' fun n => by rw [List.mem_range]
    refine hall.trans ⟨fun h => ⟨hsum, fun hhash k hle => ?_⟩, fun h n hn => ?_⟩
    · -- The last of the names has the most levels.
      have hlast := h (p.iterations + p.filesPerDir - 1) (by have := p.iterations_pos; omega)
      rw [SuiteParams.mkDirName, if_neg (by rw [hhash]; exact Bool.false_ne_true)] at hlast
      exact (mkSeqDirName_isSome_iff hradix (by omega)).mp hlast k hle
    · rw [SuiteParams.mkDirName]
      split
      · exact mkHashedDirName_isSome hradix n
      · rename_i hhash
        refine (mkSeqDirName_isSome_iff hradix (hn.trans hsum)).mpr fun k hle => ?_
        exact h.2 (Bool.eq_false_iff.mpr hhash) k (hle.trans (Nat.div_le_div_right (by omega)))
  · rw [if_neg hsum]
    exact iff_of_false Bool.false_ne_true fun h => hsum h.1

end

/-! ## Underscores -/

def underscores (s : String) : ℕ := s.toList.count '_'

@[simp] theorem underscores_append (s s' : String) :
    underscores (s ++ s') = underscores s + underscores s' := by
  rw [underscores, String.toList_append, List.count_append, underscores, underscores]

@[simp] theorem underscores_toString (n : ℕ) : underscores (toString n) = 0 :=
  List.count_eq_zero.mpr (notMem_toString rfl n)

@[simp] theorem underscores_threeDigits (n : ℕ) : underscores (threeDigits n) = 0 := by
  rw [threeDigits]
  split
  · rw [underscores_append, underscores_toString]
    rfl
  · split
    · rw [underscores_append, underscores_toString]
      rfl
    · exact underscores_toString n

/-- The parts of directory names. -/
def Plain (dir : List String) : Prop := ∀ part ∈ dir, underscores part = 1

theorem plain_seqParts (levels : List ℕ) (dirIn : ℕ) : Plain (seqParts levels dirIn) := by
  have hpart : ∀ n, underscores ("d_" ++ threeDigits n) = 1 := fun n => by
    rw [underscores_append, underscores_threeDigits]
    rfl
  induction levels generalizing dirIn with
  | nil => exact fun part hp => List.mem_singleton.mp hp ▸ hpart dirIn
  | cons lvl levels ih =>
    intro part hp
    rcases List.mem_cons.mp hp with rfl | hp
    · exact hpart _
    · exact ih _ part hp

theorem plain_hashedParts {dirsPerDir rounds dirNum : ℕ} {pathlist dir : List String}
    (h : hashedParts dirsPerDir rounds dirNum pathlist = some dir) (hplain : Plain pathlist) :
    Plain dir := by
  induction rounds generalizing dirNum pathlist with
  | zero => cases h
  | succ rounds ih =>
    rw [hashedParts] at h
    split at h
    · refine ih h fun part hp => ?_
      rcases List.mem_cons.mp hp with rfl | hp
      · rw [underscores_append, underscores_threeDigits]
        rfl
      · exact hplain part hp
    · exact Option.some.inj h ▸ hplain

theorem plain_mkDirName {p : SuiteParams} {n : ℕ} {dir : List String} (h : p.mkDirName n = some dir) :
    Plain dir := by
  rw [SuiteParams.mkDirName] at h
  split at h
  · exact plain_hashedParts h fun _ hp => absurd hp List.not_mem_nil
  · rw [SuiteParams.mkSeqDirName] at h
    obtain ⟨levels, -, hdir⟩ := Option.bind_eq_some_iff.mp h
    exact Option.some.inj hdir ▸ plain_seqParts _ _

/-! ## Threads -/

theorem twoDigits_injective {m n : ℕ} (h : twoDigits m = twoDigits n) : m = n := by
  have hvalue : ∀ k, Nat.ofDigitChars 10 (twoDigits k).toList 0 = k := by
    intro k
    have hdigits : Nat.ofDigitChars 10 (toString k).toList 0 = k := by
      rw [show toString k = k.repr from rfl, Nat.toList_repr, Nat.ofDigitChars_ten_toDigits]
    rw [twoDigits]
    split
    · rw [String.toList_append]
      exact hdigits
    · exact hdigits
  rw [← hvalue m, h, hvalue n]

/-- What a thread of a suite works with. -/
structure Worker where
  p : SuiteParams
  tid : ℕ
  fileDirs : List (List String)

/-- The files of a thread are below a source directory first, and below a destination directory once
they are renamed. -/
inductive Side where
  | src
  | dest
  deriving DecidableEq, Repr

namespace Worker

variable (w : Worker)

def tidLabel : String := twoDigits w.tid

def baseDirs : Side → List Path
  | .src => w.p.srcDirs w.tidLabel
  | .dest => w.p.destDirs w.tidLabel

def fileName (filenum : ℕ) : String :=
  w.p.filePrefix ++ ("_" ++ w.p.host ++ "_" ++ w.tidLabel ++ "_") ++
    (toString filenum ++ ("_" ++ w.p.fileSuffix))

def mkFileNm (s : Side) (filenum : ℕ) : Path :=
  (w.baseDirs s).getD (filenum % (w.baseDirs s).length) [] ++ w.fileDirs.getD filenum [] ++
    [w.fileName filenum]

/-- The parent directories of the files with the numbers of `subdir_file_nums`. -/
def subdirs (s : Side) : List Path := w.p.subdirFileNums.map fun j => (w.mkFileNm s j).dropLast

end Worker

/-- A set of paths in the order of paths (`BTreeSet<PathBuf>`). -/
def dirset (l : List Path) : List Path := l.dedup.mergeSort fun a b => decide (a ≤ b)

@[simp] theorem mem_dirset {l : List Path} {d : Path} : d ∈ dirset l ↔ d ∈ l := by
  rw [dirset, List.mem_mergeSort, List.mem_dedup]

def Side.base (p : Params) : Side → Path
  | .src => p.srcBase
  | .dest => p.destBase

namespace Worker

variable (w : Worker)

/-- The directory of a thread. -/
def tree (s : Side) : Path := s.base w.p.toParams ++ ["thrd_" ++ w.tidLabel]

def dir (filenum : ℕ) : List String := w.fileDirs.getD filenum []

/-- The directories that the thread shares with all others, or has for itself. -/
def root (s : Side) : Path := (w.baseDirs s).headD []

/-- The thread has computed the names. -/
structure Named : Prop where
  fileDirs_eq : w.p.fileDirs = some w.fileDirs

/-- The thread has a directory of its own and has computed the names. -/
structure Ready : Prop where
  own_dir : w.p.isSharedDir = false
  fileDirs_eq : w.p.fileDirs = some w.fileDirs

variable {w} {s s' : Side} {m n : ℕ}

theorem Ready.baseDirs_eq (h : w.Ready) (s : Side) : w.baseDirs s = [w.tree s] := by
  cases s
  · exact if_neg (by rw [h.own_dir]; exact Bool.false_ne_true)
  · exact if_neg (by rw [h.own_dir]; exact Bool.false_ne_true)

theorem Ready.mkFileNm_eq (h : w.Ready) (s : Side) (n : ℕ) :
    w.mkFileNm s n = w.tree s ++ w.dir n ++ [w.fileName n] := by
  rw [mkFileNm, h.baseDirs_eq, List.length_singleton, Nat.mod_one]
  rfl

theorem Ready.dropLast_mkFileNm (h : w.Ready) (s : Side) (n : ℕ) :
    (w.mkFileNm s n).dropLast = w.tree s ++ w.dir n := by
  rw [h.mkFileNm_eq, List.dropLast_concat]

theorem Ready.named (h : w.Ready) : w.Named := ⟨h.fileDirs_eq⟩

theorem baseDirs_eq_root (w : Worker) (s : Side) : w.baseDirs s = [w.root s] := by
  have hone : ∀ (b : Bool) (x y : Path), (if b then [x] else [y]) =
      [(if b then [x] else [y] : List Path).headD []] := by
    intro b x y
    cases b <;> rfl
  cases s <;> exact hone _ _ _

theorem mkFileNm_eq_root (w : Worker) (s : Side) (n : ℕ) :
    w.mkFileNm s n = w.root s ++ w.dir n ++ [w.fileName n] := by
  rw [mkFileNm, baseDirs_eq_root, List.length_singleton, Nat.mod_one]
  rfl

theorem dropLast_mkFileNm_root (w : Worker) (s : Side) (n : ℕ) :
    (w.mkFileNm s n).dropLast = w.root s ++ w.dir n := by
  rw [mkFileNm_eq_root, List.dropLast_concat]

theorem Named.map_mkDirName (h : w.Named) :
    (List.range (w.p.iterations + w.p.filesPerDir)).map w.p.mkDirName = w.fileDirs.map some := by
  obtain ⟨n, hn, hdirs⟩ := Option.bind_eq_some_iff.mp h.fileDirs_eq
  rw [addU32] at hn
  split at hn
  · rw [Option.some.inj hn]
    exact mapM_eq_some.mp hdirs
  · cases hn

/-- All numbers for which a name is asked are in range. -/
theorem Named.mkDirName_eq (h : w.Named) (hn : n < w.p.iterations + w.p.filesPerDir) :
    w.p.mkDirName n = some (w.dir n) := by
  have hget := congrArg (fun l : List (Option (List String)) => l[n]?) h.map_mkDirName
  have hlen := congrArg List.length h.map_mkDirName
  rw [List.length_map, List.length_map, List.length_range] at hlen
  simp only [List.getElem?_map, List.getElem?_range hn, Option.map_some] at hget
  rw [List.getElem?_eq_getElem (by omega), Option.map_some] at hget
  rw [Option.some.inj hget, dir, List.getD_eq_getElem _ _ (by omega)]

theorem Named.plain_dir (h : w.Named) (n : ℕ) : Plain (w.dir n) := by
  by_cases hn : n < w.p.iterations + w.p.filesPerDir
  · exact plain_mkDirName (h.mkDirName_eq hn)
  · have hlen := congrArg List.length h.map_mkDirName
    rw [List.length_map, List.length_map, List.length_range] at hlen
    rw [dir, List.getD_eq_default _ _ (by omega)]
    exact fun part hp => absurd hp List.not_mem_nil

theorem Ready.plain_dir (h : w.Ready) (n : ℕ) : Plain (w.dir n) := h.named.plain_dir n

theorem lt_of_mem_subdirFileNums (h : n ∈ w.p.subdirFileNums) :
    n < w.p.iterations + w.p.filesPerDir := by
  have hpos := w.p.filesPerDir_pos
  rw [Params.subdirFileNums] at h
  split at h
  · rw [List.mem_range] at h
    omega
  · exact List.mem_range.mp (List.mem_filter.mp h).1

/-- **The directories made in advance have that of every file.** -/
theorem Named.mem_subdirs (h : w.Named) (s : Side) (hn : n ≤ w.p.iterations) :
    w.root s ++ w.dir n ∈ w.subdirs s := by
  have hpos := w.p.filesPerDir_pos
  have hfirst : ∃ j ∈ w.p.subdirFileNums, w.p.mkDirName j = w.p.mkDirName n := by
    rw [Params.subdirFileNums]
    by_cases hhash : w.p.hashToDir = true
    · rw [if_pos hhash]
      exact ⟨n, List.mem_range.mpr (Nat.lt_succ_of_le hn), rfl⟩
    · -- The first file of the same directory.
      have hle := Nat.div_mul_le_self n w.p.filesPerDir
      refine ⟨n / w.p.filesPerDir * w.p.filesPerDir, ?_, ?_⟩
      · rw [if_neg hhash, List.mem_filter, List.mem_range]
        exact ⟨by omega, decide_eq_true (Nat.mul_mod_left _ _)⟩
      · rw [SuiteParams.mkDirName, SuiteParams.mkDirName, if_neg hhash, if_neg hhash,
          SuiteParams.mkSeqDirName, SuiteParams.mkSeqDirName, Nat.mul_div_cancel _ hpos]
  obtain ⟨j, hj, hname⟩ := hfirst
  rw [h.mkDirName_eq (lt_of_mem_subdirFileNums hj), h.mkDirName_eq (by omega)] at hname
  refine List.mem_map.mpr ⟨j, hj, ?_⟩
  rw [dropLast_mkFileNm_root, Option.some.inj hname]

theorem Ready.root_eq (h : w.Ready) (s : Side) : w.root s = w.tree s := by
  rw [root, h.baseDirs_eq]
  rfl

theorem Ready.mem_subdirs (h : w.Ready) (s : Side) (hn : n ≤ w.p.iterations) :
    w.tree s ++ w.dir n ∈ w.subdirs s :=
  h.root_eq s ▸ h.named.mem_subdirs s hn

/-- Every directory made in advance is below the thread's, with plain names. -/
theorem Named.of_mem_subdirs (h : w.Named) {d : Path} (hd : d ∈ w.subdirs s) :
    ∃ parts, Plain parts ∧ d = w.root s ++ parts := by
  obtain ⟨j, -, rfl⟩ := List.mem_map.mp hd
  exact ⟨w.dir j, h.plain_dir j, dropLast_mkFileNm_root w s j⟩

theorem Ready.of_mem_subdirs (h : w.Ready) {d : Path} (hd : d ∈ w.subdirs s) :
    ∃ parts, Plain parts ∧ d = w.tree s ++ parts :=
  h.root_eq s ▸ h.named.of_mem_subdirs hd

theorem fileName_injective (h : w.fileName m = w.fileName n) : m = n := by
  have hnum := congrArg String.toList (append_left_cancel h)
  rw [String.toList_append, String.toList_append (s := toString n)] at hnum
  exact toString_injective (String.toList_injective (List.append_cancel_right hnum))

theorem underscores_fileName (n : ℕ) : 4 ≤ underscores (w.fileName n) := by
  have hone : underscores "_" = 1 := rfl
  simp only [fileName, underscores_append, hone]
  omega

theorem length_base (p : Params) (s : Side) : (s.base p).length = p.top.length + 2 := by
  cases s <;> exact List.length_append

theorem base_injective {p : Params} (h : s.base p = s'.base p) : s = s' := by
  cases s <;> cases s' <;> first
    | rfl
    | exact absurd (List.append_cancel_left h) (by simp)

theorem tree_injective (h : w.tree s = w.tree s') : s = s' :=
  base_injective (List.append_cancel_right h)

/-- **A path determines the side and the number of the file.** -/
theorem Ready.mkFileNm_injective (h : w.Ready) (heq : w.mkFileNm s m = w.mkFileNm s' n) :
    s = s' ∧ m = n := by
  rw [h.mkFileNm_eq, h.mkFileNm_eq] at heq
  obtain ⟨hdir, hname⟩ := List.append_inj' heq rfl
  have hnum : m = n := fileName_injective (List.cons.inj hname).1
  subst hnum
  exact ⟨tree_injective (List.append_cancel_right hdir), rfl⟩

end Worker

end Fstest.Smallfile
