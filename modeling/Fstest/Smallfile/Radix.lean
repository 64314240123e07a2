import Fstest.Lib.Radix
import Fstest.Smallfile.Naming
import Mathlib.Data.Set.Card
import Mathlib.Order.Interval.Finset.Nat

/-!
# Sequential directory names as numbers

`mk_seq_dir_name` writes the number of a directory in the radix `dirs_per_dir`, one digit in each part
of the name (`mkSeqDirName_eq`). With a radix of at least 2 there is a name for every file for which the
powers of the radix fit into a machine word. Two files have one directory exactly if their numbers have
one quotient by `files_per_dir`, and a directory has no more subdirectories than there are digits
(`seqDirNames_faithful`).

`namesEnd_iff` is the exact condition under which the loops of the two kinds of names come to an end,
without an overflow: a radix of 1 never gets anywhere. As in `Naming`, an overflow is a panic.
-/

namespace Fstest.Smallfile

open Radix

/-! ## Parts of names -/

/-- `parts.join("/")` -/
def joinParts (parts : List String) : String := String.intercalate "/" parts

def part (digit : ℕ) : String := "d_" ++ threeDigits digit

theorem threeDigits_injective {m n : ℕ} (h : threeDigits m = threeDigits n) : m = n := by
  have hdigits : ∀ k, Nat.ofDigitChars 10 (toString k).toList 0 = k := fun k => by
    rw [show toString k = k.repr from rfl, Nat.toList_repr, Nat.ofDigitChars_ten_toDigits]
  have hvalue : ∀ k, Nat.ofDigitChars 10 (threeDigits k).toList 0 = k := by
    intro k
    rw [threeDigits]
    split
    · rw [String.toList_append]
      exact hdigits k
    · split
      · rw [String.toList_append]
        exact hdigits k
      · exact hdigits k
  rw [← hvalue m, h, hvalue n]

theorem part_injective : Function.Injective part := fun _ _ h =>
  threeDigits_injective (append_left_cancel h)

theorem slash_notMem_part (digit : ℕ) : '/' ∉ (part digit).toList := by
  have hdigits : ∀ k : ℕ, '/' ∉ (toString k).toList := fun k => notMem_toString rfl k
  rw [part, String.toList_append, List.mem_append, threeDigits]
  refine not_or_intro (by decide) ?_
  split
  · rw [String.toList_append, List.mem_append]
    exact not_or_intro (by decide) (hdigits digit)
  · split
    · rw [String.toList_append, List.mem_append]
      exact not_or_intro (by decide) (hdigits digit)
    · exact hdigits digit

theorem seqParts_eq (levels : List ℕ) (dirIn : ℕ) :
    seqParts levels dirIn = (digitsDown levels dirIn).map part := by
  induction levels generalizing dirIn with
  | nil => rfl
  | cons lvl levels ih =>
    rw [seqParts, ih]
    rfl

/-! ## The levels -/

/-- The levels that the loop finds are powers, up to the last that is not above `dirIn`. -/
theorem levelDirs_powers {dirsPerDir dirIn rounds k : ℕ} {levels : List ℕ}
    (h : levelDirs dirsPerDir dirIn rounds (dirsPerDir ^ (k + 1)) = some levels) :
    ∃ m, levels = (List.range' k m).map (fun i => dirsPerDir ^ (i + 1)) ∧
      dirIn < dirsPerDir ^ (k + m + 1) := by
  induction rounds generalizing k levels with
  | zero => cases h
  | succ rounds ih =>
    rw [levelDirs] at h
    split at h
    · obtain ⟨next, hnext, h⟩ := Option.bind_eq_some_iff.mp h
      obtain ⟨rest, hrest, h⟩ := Option.bind_eq_some_iff.mp h
      rw [mulU32] at hnext
      split at hnext
      · rw [← Option.some.inj hnext, ← pow_succ] at hrest
        obtain ⟨m, hm, hlt⟩ := ih hrest
        refine ⟨m + 1, ?_, ?_⟩
        · rw [← Option.some.inj h, hm, List.range'_succ, List.map_cons]
        · rw [show k + (m + 1) + 1 = k + 1 + m + 1 by omega]
          exact hlt
      · cases hnext
    · rename_i hnot
      exact ⟨0, (Option.some.inj h).symm, Nat.not_le.mp hnot⟩

section

variable {p : SuiteParams} {name : List String} {n : ℕ}

/-- **A sequential name has the digits of the number of the directory.** -/
theorem mkSeqDirName_eq (h : p.mkSeqDirName n = some name) :
    ∃ m, name = (digitsDown (placesDown p.dirsPerDir m) (n / p.filesPerDir)).map part ∧
      n / p.filesPerDir < p.dirsPerDir ^ (m + 1) := by
  obtain ⟨levels, hlevels, hname⟩ := Option.bind_eq_some_iff.mp h
  have hpowers : levelDirs p.dirsPerDir (n / p.filesPerDir) 32 (p.dirsPerDir ^ (0 + 1)) = some levels := by
    rwa [Nat.zero_add, pow_one]
  obtain ⟨m, rfl, hlt⟩ := levelDirs_powers hpowers
  refine ⟨m, ?_, by rwa [Nat.zero_add] at hlt⟩
  rw [← Option.some.inj hname, seqParts_eq, ← List.range_eq_range', reverse_powers]

/-! ## Names and their numbers -/

theorem mkSeqDirName_congr {a b : ℕ} (h : a / p.filesPerDir = b / p.filesPerDir) :
    p.mkSeqDirName a = p.mkSeqDirName b := by
  rw [SuiteParams.mkSeqDirName, SuiteParams.mkSeqDirName, h]

theorem mkSeqDirName_ne_nil (h : p.mkSeqDirName n = some name) : name ≠ [] := by
  obtain ⟨m, rfl, -⟩ := mkSeqDirName_eq h
  exact mt List.map_eq_nil_iff.mp (digitsDown_ne_nil _ _)

theorem mkSeqDirName_parts (h : p.mkSeqDirName n = some name) :
    ∀ x ∈ name, ∃ digit < p.dirsPerDir, x = part digit := by
  obtain ⟨m, rfl, hlt⟩ := mkSeqDirName_eq h
  intro x hx
  obtain ⟨digit, hdigit, rfl⟩ := List.mem_map.mp hx
  exact ⟨digit, digitsDown_lt hlt digit hdigit, rfl⟩

/-- A name determines the number of the directory. -/
theorem mkSeqDirName_injective {a b : ℕ} (ha : p.mkSeqDirName a = some name)
    (hb : p.mkSeqDirName b = some name) : a / p.filesPerDir = b / p.filesPerDir := by
  obtain ⟨m, rfl, -⟩ := mkSeqDirName_eq ha
  obtain ⟨m', hname, -⟩ := mkSeqDirName_eq hb
  exact eq_of_digitsDown_eq (List.map_injective_iff.mpr part_injective hname)

theorem joinParts_injective {name' : List String} {n' : ℕ} (h : p.mkSeqDirName n = some name)
    (h' : p.mkSeqDirName n' = some name') (hjoin : joinParts name = joinParts name') : name = name' := by
  have hslash : ∀ {n name}, p.mkSeqDirName n = some name → ∀ x ∈ name.map String.toList, '/' ∉ x := by
    intro n name h x hx
    obtain ⟨y, hy, rfl⟩ := List.mem_map.mp hx
    obtain ⟨digit, -, rfl⟩ := mkSeqDirName_parts h y hy
    exact slash_notMem_part digit
  have hlist := congrArg String.toList hjoin
  rw [joinParts, joinParts, String.toList_intercalate, String.toList_intercalate] at hlist
  refine List.map_injective_iff.mpr (fun _ _ heq => String.toList_injective heq) ?_
  exact intercalate_injective (hslash h) (hslash h')
    (mt List.map_eq_nil_iff.mp (mkSeqDirName_ne_nil h)) (mt List.map_eq_nil_iff.mp (mkSeqDirName_ne_nil h'))
    hlist

/-- The numbers with one quotient are as many as the divisor. -/
theorem encard_quotient (filesPerDir q : ℕ) (hpos : 0 < filesPerDir) :
    {n | n / filesPerDir = q}.encard = filesPerDir := by
  have hset : {n | n / filesPerDir = q} =
      (Finset.Ico (q * filesPerDir) (q * filesPerDir + filesPerDir) : Set ℕ) := by
    ext n
    rw [Set.mem_ofPred_eq, Finset.mem_coe, Finset.mem_Ico, Nat.div_eq_iff hpos]
    omega
  rw [hset, Set.encard_coe_eq_coe_finsetCard, Nat.card_Ico, Nat.add_sub_cancel_left]

/-- The files with one name for their directory. -/
theorem encard_files (p : SuiteParams) (name : List String) :
    {n | p.mkSeqDirName n = some name}.encard ≤ p.filesPerDir := by
  by_cases hne : {n | p.mkSeqDirName n = some name}.Nonempty
  · obtain ⟨a, ha⟩ := hne
    rw [← encard_quotient p.filesPerDir (a / p.filesPerDir) p.filesPerDir_pos]
    exact Set.encard_le_encard fun n hn => mkSeqDirName_injective hn ha
  · rw [Set.not_nonempty_iff_eq_empty.mp hne, Set.encard_empty]
    exact zero_le

/-- The subdirectories of the directory `d`, in the tree of all sequential names. -/
def subdirNames (p : SuiteParams) (d : List String) : Set String :=
  {x | ∃ n name, p.mkSeqDirName n = some name ∧ d ++ [x] <+: name}

theorem encard_subdirNames (p : SuiteParams) (d : List String) :
    (subdirNames p d).encard ≤ p.dirsPerDir := by
  have hsub : subdirNames p d ⊆ ((Finset.range p.dirsPerDir).image part : Finset String) := by
    rintro x ⟨n, name, hname, hpre⟩
    obtain ⟨digit, hdigit, rfl⟩ :=
      mkSeqDirName_parts hname x (hpre.subset (List.mem_append_right d (List.mem_singleton_self x)))
    exact Finset.mem_image_of_mem part (Finset.mem_range.mpr hdigit)
  refine (Set.encard_le_encard hsub).trans ?_
  rw [Set.encard_coe_eq_coe_finsetCard]
  exact Nat.cast_le.mpr (Finset.card_image_le.trans (Finset.card_range _).le)

end

/-- Among the files of a thread, those in one directory. -/
theorem encard_threadFiles {w : Worker} (hw : w.Named) (hhash : w.p.hashToDir = false) (s : Side)
    (d : Path) : {n | n ≤ w.p.iterations ∧ (w.mkFileNm s n).dropLast = d}.encard ≤ w.p.filesPerDir := by
  have hpos := w.p.filesPerDir_pos
  have hname : ∀ n, n ≤ w.p.iterations → w.p.mkSeqDirName n = some (w.dir n) := fun n hn => by
    rw [← hw.mkDirName_eq (by omega), SuiteParams.mkDirName, hhash]
    rfl
  by_cases hne : {n | n ≤ w.p.iterations ∧ (w.mkFileNm s n).dropLast = d}.Nonempty
  · obtain ⟨a, ha, rfl⟩ := hne
    refine (Set.encard_le_encard fun n hn => ?_).trans (encard_files w.p (w.dir a))
    obtain ⟨hle, heq⟩ := hn
    rw [Worker.dropLast_mkFileNm_root, Worker.dropLast_mkFileNm_root] at heq
    exact (hname n hle).trans (congrArg some (List.append_cancel_left heq))
  · rw [Set.not_nonempty_iff_eq_empty.mp hne, Set.encard_empty]
    exact zero_le

/-- No product overflows in the name of the directory of file `n`. -/
def SeqFits (p : SuiteParams) (n : ℕ) : Prop :=
  n < u32Size ∧ ∀ k, p.dirsPerDir ^ (k + 1) ≤ n / p.filesPerDir → p.dirsPerDir ^ (k + 2) < u32Size

/-- **Sequential directory names are a faithful radix code.** Where no product overflows, two files have
names for their directories, and these are the same exactly if the files have one quotient. If all names
of a thread fit, it computes them, and no directory gets more than `files_per_dir` of its files, or more
than `dirs_per_dir` subdirectories. -/
theorem seqDirNames_faithful (p : SuiteParams) (hradix : 2 ≤ p.dirsPerDir) :
    (∀ a b, SeqFits p a → SeqFits p b →
      ∃ na nb, p.mkSeqDirName a = some na ∧ p.mkSeqDirName b = some nb ∧
        (joinParts na = joinParts nb ↔ a / p.filesPerDir = b / p.filesPerDir)) ∧
    (p.hashToDir = false → p.Fits → ∃ dirs, p.fileDirs = some dirs ∧
      ∀ w : Worker, w.p = p → w.fileDirs = dirs → ∀ s d,
        {n | n ≤ p.iterations ∧ (w.mkFileNm s n).dropLast = d}.encard ≤ p.filesPerDir) ∧
    ∀ d, (subdirNames p d).encard ≤ p.dirsPerDir := by
  have hsome : ∀ n, SeqFits p n → ∃ name, p.mkSeqDirName n = some name := fun n hn =>
    Option.isSome_iff_exists.mp ((mkSeqDirName_isSome_iff hradix hn.1).mpr hn.2)
  refine ⟨fun a b ha hb => ?_, fun hhash hfits => ?_, encard_subdirNames p⟩
  · obtain ⟨na, hna⟩ := hsome a ha
    obtain ⟨nb, hnb⟩ := hsome b hb
    refine ⟨na, nb, hna, hnb, fun h => ?_, fun h => ?_⟩
    · obtain rfl := joinParts_injective hna hnb h
      exact mkSeqDirName_injective hna hnb
    · rw [mkSeqDirName_congr h, hnb] at hna
      rw [Option.some.inj hna]
  · obtain ⟨dirs, hdirs⟩ := Option.isSome_iff_exists.mp ((fileDirs_isSome_iff hradix).mpr hfits)
    refine ⟨dirs, hdirs, ?_⟩
    rintro w rfl rfl s d
    exact encard_threadFiles ⟨hdirs⟩ hhash s d

/-- 200 files in directories of 100, with one subdirectory for each directory. -/
def oneDirPerDir : SuiteParams where
  opname := .create
  iterations := 200
  threads := 2
  filesPerDir := 100
  filePrefix := ""
  fileSuffix := ""
  hashToDir := false
  isSharedDir := false
  top := ["mnt"]
  host := "host"
  recordSzKb := 0
  totalSzKb := 64
  filesizeDistr := .fixed
  dirsPerDir := 1
  verifyRead := true
  draws := fun _ _ => 0
  iterations_pos := by decide
  iterations_lt := by decide
  threads_pos := Nat.two_pos
  filesPerDir_pos := defaultFilesPerDir_pos
  dirsPerDir_pos := Nat.one_pos
  recordSzKb_le := defaultRecordSz_le
  filePrefix_name := defaultAffix_name
  fileSuffix_name := defaultAffix_name

/-- The same files with two subdirectories for each directory. -/
def twoDirsPerDir : SuiteParams := { oneDirPerDir with dirsPerDir := 2, dirsPerDir_pos := Nat.two_pos }

/-- Files 100 and 199 are in one directory, and file 200 is in another one. -/
theorem seqDirNames_twoDirsPerDir : ∃ na nb nc : List String, twoDirsPerDir.mkSeqDirName 100 = some na ∧
    twoDirsPerDir.mkSeqDirName 199 = some nb ∧ twoDirsPerDir.mkSeqDirName 200 = some nc ∧
    joinParts na = joinParts nb ∧ joinParts na ≠ joinParts nc := by
  obtain ⟨hnames, -, -⟩ := seqDirNames_faithful twoDirsPerDir (Nat.le_refl 2)
  have hfits : ∀ n, n ≤ 200 → SeqFits twoDirsPerDir n := by
    intro n hn
    refine ⟨Nat.lt_of_le_of_lt hn (by decide), fun k hk => ?_⟩
    have hquot : 2 ^ (k + 1) ≤ 2 := Nat.le_trans (show 2 ^ (k + 1) ≤ n / 100 from hk) (by omega)
    have hpow : (2 : ℕ) ^ (k + 2) = 2 ^ (k + 1) * 2 := pow_succ ..
    exact Nat.lt_of_le_of_lt (show 2 ^ (k + 2) ≤ 4 by omega) (by decide)
  obtain ⟨na, nb, hna, hnb, hsame⟩ := hnames 100 199 (hfits 100 (by decide)) (hfits 199 (by decide))
  obtain ⟨na', nc, hna', hnc, hother⟩ := hnames 100 200 (hfits 100 (by decide)) (hfits 200 (by decide))
  obtain rfl := Option.some.inj (hna.symm.trans hna')
  exact ⟨na, nb, nc, hna, hnb, hnc, hsame.mpr (by decide), fun h => absurd (hother.mp h) (by decide)⟩

/-! ## When the loops end -/

/-- The loop of `mk_seq_dir_name` ends after some number of rounds, and no product overflows. -/
def SeqNameEnds (p : SuiteParams) (n : ℕ) : Prop :=
  ∃ rounds, (levelDirs p.dirsPerDir (n / p.filesPerDir) rounds p.dirsPerDir).isSome

/-- The number that `mk_hashed_dir_name` starts with. -/
def hashedDirNum (p : SuiteParams) (n : ℕ) : ℕ := n * somePrime % p.iterations / p.filesPerDir

/-- The loop of `mk_hashed_dir_name` ends after some number of rounds. -/
def HashedNameEnds (p : SuiteParams) (n : ℕ) : Prop :=
  ∃ rounds, (hashedParts p.dirsPerDir rounds (hashedDirNum p n) []).isSome

/-- With a radix of 1 the level stays where it is. -/
theorem levelDirs_one {dirIn : ℕ} (h : 1 ≤ dirIn) (rounds : ℕ) : levelDirs 1 dirIn rounds 1 = none := by
  induction rounds with
  | zero => rfl
  | succ rounds ih =>
    rw [levelDirs, if_pos h, mulU32, if_pos (by decide)]
    show (levelDirs 1 dirIn rounds 1).bind _ = none
    rw [ih]
    rfl

/-- With a radix of 1 the number of the directory stays as it is. -/
theorem hashedParts_one {dirNum : ℕ} (h : 1 < dirNum) (rounds : ℕ) (pathlist : List String) :
    hashedParts 1 rounds dirNum pathlist = none := by
  induction rounds generalizing pathlist with
  | zero => rfl
  | succ rounds ih =>
    rw [hashedParts, if_pos h, Nat.div_one]
    exact ih _

/-- A loop that ends has multiplied every level that it needs. -/
theorem fits_of_levelDirs {dirsPerDir dirIn rounds k : ℕ} (hpos : 0 < dirsPerDir)
    (h : (levelDirs dirsPerDir dirIn rounds (dirsPerDir ^ (k + 1))).isSome) :
    ∀ j, k ≤ j → dirsPerDir ^ (j + 1) ≤ dirIn → dirsPerDir ^ (j + 2) < u32Size := by
  induction rounds generalizing k with
  | zero => cases h
  | succ rounds ih =>
    rw [levelDirs] at h
    intro j hj hle
    by_cases hlevel : dirsPerDir ^ (k + 1) ≤ dirIn
    · rw [if_pos hlevel, mulU32, ← pow_succ] at h
      by_cases hlt : dirsPerDir ^ (k + 2) < u32Size
      · rw [if_pos hlt] at h
        rcases Nat.eq_or_lt_of_le hj with rfl | hj
        · exact hlt
        · refine ih (k := k + 1) ?_ j hj hle
          obtain ⟨levels, hlevels⟩ := Option.isSome_iff_exists.mp h
          change (levelDirs dirsPerDir dirIn rounds (dirsPerDir ^ (k + 1 + 1))).bind _ = _ at hlevels
          obtain ⟨rest, hrest, -⟩ := Option.bind_eq_some_iff.mp hlevels
          exact Option.isSome_iff_exists.mpr ⟨rest, hrest⟩
      · rw [if_neg hlt] at h
        cases h
    · exact absurd ((Nat.pow_le_pow_right hpos (Nat.succ_le_succ hj)).trans hle) hlevel

/-- With a radix of at least 2 the level grows until the loop ends. -/
theorem levelDirs_ends {dirsPerDir dirIn k : ℕ} (hradix : 2 ≤ dirsPerDir)
    (h : ∀ j, k ≤ j → dirsPerDir ^ (j + 1) ≤ dirIn → dirsPerDir ^ (j + 2) < u32Size) :
    ∃ rounds, (levelDirs dirsPerDir dirIn rounds (dirsPerDir ^ (k + 1))).isSome := by
  induction hgap : dirIn + 1 - dirsPerDir ^ (k + 1) using Nat.strongRecOn generalizing k with
  | ind gap ih =>
    by_cases hle : dirsPerDir ^ (k + 1) ≤ dirIn
    · have hgrow : dirsPerDir ^ (k + 1) < dirsPerDir ^ (k + 1 + 1) :=
        Nat.pow_lt_pow_right hradix (Nat.lt_succ_self _)
      obtain ⟨rounds, hrounds⟩ := ih (dirIn + 1 - dirsPerDir ^ (k + 1 + 1)) (by omega)
        (fun j hj => h j (by omega)) rfl
      obtain ⟨rest, hrest⟩ := Option.isSome_iff_exists.mp hrounds
      refine ⟨rounds + 1, Option.isSome_iff_exists.mpr ⟨dirsPerDir ^ (k + 1) :: rest, ?_⟩⟩
      rw [levelDirs, if_pos hle, mulU32, ← pow_succ, if_pos (h k (Nat.le_refl k) hle)]
      show (levelDirs dirsPerDir dirIn rounds (dirsPerDir ^ (k + 1 + 1))).bind _ = _
      rw [hrest]
      rfl
    · exact ⟨1, by rw [levelDirs, if_neg hle]; rfl⟩

theorem seqNameEnds_of_zero {p : SuiteParams} {n : ℕ} (h : n / p.filesPerDir = 0) : SeqNameEnds p n :=
  ⟨1, by rw [levelDirs, h, if_neg (Nat.not_le.mpr p.dirsPerDir_pos)]; rfl⟩

/-- **When the names can be computed.** The loops end without an overflow exactly if the radix is at
least 2, or the numbers that they start with are too small for a round, and all the powers of the
radix that are needed fit. -/
theorem namesEnd_iff (p : SuiteParams) (n : ℕ) :
    SeqNameEnds p n ∧ HashedNameEnds p n ↔
      (2 ≤ p.dirsPerDir ∨ n / p.filesPerDir = 0 ∧ hashedDirNum p n ≤ 1) ∧
        ∀ k, p.dirsPerDir ^ (k + 1) ≤ n / p.filesPerDir → p.dirsPerDir ^ (k + 2) < u32Size := by
  constructor
  · rintro ⟨⟨rounds, hseq⟩, ⟨rounds', hhash⟩⟩
    refine ⟨or_iff_not_imp_left.mpr fun hradix => ?_, fun k => ?_⟩
    · have hone : p.dirsPerDir = 1 := by
        have := p.dirsPerDir_pos
        omega
      rw [hone] at hseq hhash
      constructor
      · refine Nat.eq_zero_of_not_pos fun hpos => ?_
        rw [levelDirs_one hpos] at hseq
        cases hseq
      · refine Nat.not_lt.mp fun hlt => ?_
        rw [hashedParts_one hlt] at hhash
        cases hhash
    · have hseq' : (levelDirs p.dirsPerDir (n / p.filesPerDir) rounds (p.dirsPerDir ^ (0 + 1))).isSome := by
        rwa [Nat.zero_add, pow_one]
      exact fits_of_levelDirs p.dirsPerDir_pos hseq' k (Nat.zero_le k)
  · rintro ⟨hradix | ⟨hzero, hsmall⟩, hfits⟩
    · obtain ⟨rounds, hrounds⟩ := levelDirs_ends (k := 0) hradix fun j _ => hfits j
      rw [Nat.zero_add, pow_one] at hrounds
      have hlt : hashedDirNum p n < 2 ^ (hashedDirNum p n + 1) :=
        Nat.lt_trans (Nat.lt_succ_self _) Nat.lt_two_pow_self
      exact ⟨⟨rounds, hrounds⟩, _, hashedParts_isSome hradix hlt []⟩
    · exact ⟨seqNameEnds_of_zero hzero, 1, by rw [hashedParts, if_neg (Nat.not_lt.mpr hsmall)]; rfl⟩

/-- The name of the directory of file 100 is never finished. -/
theorem oneDirPerDir_never_ends :
    ¬ ∀ n < oneDirPerDir.iterations + oneDirPerDir.filesPerDir,
      SeqNameEnds oneDirPerDir n ∧ HashedNameEnds oneDirPerDir n := by
  intro h
  obtain ⟨rounds, hrounds⟩ := (h 100 (by decide)).1
  change (levelDirs 1 1 rounds 1).isSome at hrounds
  rw [levelDirs_one (Nat.le_refl 1)] at hrounds
  cases hrounds

end Fstest.Smallfile
