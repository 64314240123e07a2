import Fstest.Fsmark.Report
import Fstest.Lib.SplitMix
import Fstest.Lib.Text
import Fstest.Lib.Turns
import Mathlib.Data.List.Basic

/-!
# The names of the files

A name is the time in hexadecimal digits, cut or filled up to its part of the name, and random characters.
The generator reaches each word, so the loop for a random character ends whatever the seed is, and all names
are as long as the options say (`fileName_spec`). A thread gives each subdirectory its turn, so they share
the files alike (`roundRobin_spec`).
-/

namespace Fstest.Fsmark

/-! ## The options -/

inductive DirPolicy where
  | noSubdirs
  | roundRobin
  | timeHash
  deriving DecidableEq, Repr

def defaultSecsPerDir : ℕ := 180

/-- The options with what the files and their names depend on. -/
structure FileParams extends Params where
  ioSize : ℕ
  syncType : Fin 7
  dirPolicy : DirPolicy
  numSubdirs : ℕ
  numPerSubdir : ℕ
  secsPerDir : ℕ
  nameLen : ℕ
  randLen : ℕ
  syncBits_eq : syncBits = syncMethodBits syncType
  dirs_ne : dirs ≠ []
  keeps : 0 < loopCount ∨ fillFs = true → keepFiles = true
  ioSize_pos : 0 < ioSize
  randLen_lt : randLen < nameLen
  nameLen_le : nameLen ≤ maxFilenameSize
  subdirs : dirPolicy ≠ .noSubdirs → 2 ≤ numSubdirs

def Args.dirPolicy (a : Args) : DirPolicy :=
  if a.filesPerSubdir.isSome then .roundRobin
  else if a.subdirs.isSome then .timeHash
  else .noSubdirs

section

variable {a : Args} {dirs : List String}

theorem lens_of_rejection (h : rejection a dirs = none) :
    0 < a.writeSize ∧ a.randLen < a.nameLen ∧ a.nameLen ≤ maxFilenameSize := by
  simp only [rejection, Option.orElse_eq_none, refuse_eq_none] at h
  omega

theorem subdirs_of_rejection (h : rejection a dirs = none) (hp : a.dirPolicy ≠ .noSubdirs) :
    2 ≤ a.subdirs.getD 0 := by
  simp only [rejection, Option.orElse_eq_none, refuse_eq_none] at h
  obtain ⟨-, -, -, -, -, -, htwo, hsome, -⟩ := h
  cases hsub : a.subdirs with
  | some n =>
    rw [hsub] at htwo
    have hn : ¬ n < 2 := fun hlt => htwo ⟨n, rfl, hlt⟩
    exact Nat.le_of_not_lt hn
  | none =>
    rw [hsub] at hsome
    rw [Args.dirPolicy, hsub] at hp
    cases hper : a.filesPerSubdir with
    | some n => exact absurd ⟨by rw [hper]; rfl, rfl⟩ hsome
    | none => simp [hper] at hp

end

/-- `resolve`, with the rest of what it gives. -/
def resolveFiles (a : Args) (mountpoint : String) : Except String FileParams :=
  match h : rejection a (mountpoint :: a.dir) with
  | some message => .error message
  | none => .ok {
      dirs := mountpoint :: a.dir
      threads := a.numThreads (mountpoint :: a.dir).length
      numFiles := a.files
      fileSize := a.fileSize
      loopCount := a.iterations
      syncBits := syncMethodBits a.syncMethod
      keepFiles := a.keepFiles || decide (0 < a.iterations) || a.fillFs
      fillFs := a.fillFs
      threads_pos := threads_pos_of_rejection h
      numFiles_pos := files_pos_of_rejection h
      ioSize := a.writeSize
      syncType := a.syncMethod
      dirPolicy := a.dirPolicy
      numSubdirs := a.subdirs.getD 0
      numPerSubdir := a.filesPerSubdir.getD 0
      secsPerDir := defaultSecsPerDir
      nameLen := a.nameLen
      randLen := a.randLen
      syncBits_eq := rfl
      dirs_ne := List.cons_ne_nil _ _
      keeps := by
        rintro (hloop | hfill)
        · simp [hloop]
        · simp [hfill]
      ioSize_pos := (lens_of_rejection h).1
      randLen_lt := (lens_of_rejection h).2.1
      nameLen_le := (lens_of_rejection h).2.2
      subdirs := subdirs_of_rejection h }

theorem resolve_of_rejected {a : Args} {mountpoint message : String}
    (h : rejection a (mountpoint :: a.dir) = some message) : resolve a mountpoint = .error message := by
  unfold resolve
  dsimp only
  split
  · rename_i message' h'
    rw [h] at h'
    cases h'
    rfl
  · rename_i h'
    rw [h] at h'
    cases h'

theorem resolve_of_accepted {a : Args} {mountpoint : String}
    (h : rejection a (mountpoint :: a.dir) = none) :
    resolve a mountpoint = .ok {
      dirs := mountpoint :: a.dir
      threads := a.numThreads (mountpoint :: a.dir).length
      numFiles := a.files
      fileSize := a.fileSize
      loopCount := a.iterations
      syncBits := syncMethodBits a.syncMethod
      keepFiles := a.keepFiles || decide (0 < a.iterations) || a.fillFs
      fillFs := a.fillFs
      threads_pos := threads_pos_of_rejection h
      numFiles_pos := files_pos_of_rejection h } := by
  unfold resolve
  dsimp only
  split
  · rename_i message' h'
    rw [h] at h'
    cases h'
  · rfl

/-- It is `resolve` but for the rest. -/
theorem map_resolveFiles (a : Args) (mountpoint : String) :
    (resolveFiles a mountpoint).map FileParams.toParams = resolve a mountpoint := by
  unfold resolveFiles
  split
  · rename_i message h
    exact (resolve_of_rejected h).symm
  · rename_i h
    exact (resolve_of_accepted h).symm

/-! ## Subdirectories -/

structure ThreadState where
  dir : String
  rng : UInt64
  currentSubdir : ℕ
  startSecTime : ℕ
  filesInSubdir : ℕ
  deriving Repr

/-- `{:02x}`. -/
def subdirName (n : ℕ) : String := String.ofList (List.leftpad 2 '0' (Nat.toDigits 16 n))

/-- The time of the first file is the first start. -/
def ThreadState.begun (st : ThreadState) (secTime : ℕ) : ThreadState :=
  if st.startSecTime = 0 then { st with startSecTime := secTime } else st

/-- The subdirectory that the policy selects at a time, if there are any. The difference of the times wraps
around where the clock has been set back. -/
def FileParams.chooseSubdir (p : FileParams) (st : ThreadState) (secTime : ℕ) : Option ℕ × ThreadState :=
  let st := st.begun secTime
  match p.dirPolicy with
  | .noSubdirs => (none, st)
  | .roundRobin =>
    let st :=
      if p.numPerSubdir ≤ st.filesInSubdir then
        { st with currentSubdir := st.currentSubdir + 1, filesInSubdir := 0 }
      else st
    let currentSubdir := st.currentSubdir % p.numSubdirs
    (some currentSubdir, { st with currentSubdir, filesInSubdir := st.filesInSubdir + 1 })
  | .timeHash =>
    let st :=
      if p.secsPerDir < (secTime + 2 ^ 64 - st.startSecTime) % 2 ^ 64 then
        { st with currentSubdir := (st.currentSubdir + 1) % p.numSubdirs, startSecTime := secTime }
      else st
    (some st.currentSubdir, st)

/-- The subdirectories of the files that are made at the given times. -/
def FileParams.chosen (p : FileParams) : ThreadState → List ℕ → List (Option ℕ)
  | _, [] => []
  | st, secTime :: rest => (p.chooseSubdir st secTime).1 :: p.chosen (p.chooseSubdir st secTime).2 rest

/-! ## Names -/

/-- The part that depends on the time: its last digits, or all of them and a filling. -/
def seqPart (secTime seqLen : ℕ) : List Char :=
  let seqName := Nat.toDigits 16 secTime
  if seqLen < seqName.length then seqName.drop (seqName.length - seqLen)
  else seqName ++ List.replicate (seqLen - seqName.length) '~'

/-- The character of a random word, if it is an upper case letter or a digit. -/
def nameChar (val : UInt64) : Option Char :=
  let c := Char.ofNat ('0'.toNat + (val &&& 0x7f).toNat)
  if c.isUpper || c.isDigit then some c else none

theorem nameChar_zero : (nameChar 0).isSome := by decide

/-- The loop for one character. -/
def randomChar (rng : UInt64) : Char × UInt64 := SplitMix.drawAny nameChar nameChar_zero rng

def randomChars : ℕ → UInt64 → List Char × UInt64
  | 0, rng => ([], rng)
  | n + 1, rng =>
    let first := randomChar rng
    let rest := randomChars n first.2
    (first.1 :: rest.1, rest.2)

def FileParams.fileName (p : FileParams) (secTime : ℕ) (rng : UInt64) : String × UInt64 :=
  let chars := randomChars p.randLen rng
  (String.ofList (seqPart secTime (p.nameLen - p.randLen) ++ chars.1), chars.2)

/-- What a name may consist of. -/
def NameChar (c : Char) : Prop :=
  c = '~' ∨ c.isDigit = true ∨ c.isUpper = true ∨ ∃ d, 10 ≤ d ∧ d < 16 ∧ c = Nat.digitChar d

theorem NameChar.of_hex {d : ℕ} (h : d < 16) : NameChar (Nat.digitChar d) := by
  by_cases hd : d < 10
  · exact .inr (.inl (by rw [Nat.isDigit_digitChar, decide_eq_true hd]))
  · exact .inr (.inr (.inr ⟨d, by omega, h, rfl⟩))

theorem nameChar_of_isSome {val : UInt64} {c : Char} (h : nameChar val = some c) : NameChar c := by
  rw [nameChar] at h
  split at h
  · rename_i haccept
    cases h
    rcases Bool.or_eq_true _ _ ▸ haccept with hupper | hdigit
    · exact .inr (.inr (.inl hupper))
    · exact .inr (.inl hdigit)
  · cases h

theorem NameChar.utf8Size {c : Char} (h : NameChar c) : c.utf8Size = 1 := by
  have hletters : ∀ d < 16, (Nat.digitChar d).utf8Size = 1 := by decide
  rw [Char.utf8Size_eq_one_iff, UInt32.le_iff_toNat_le]
  rcases h with rfl | hdigit | hupper | ⟨d, -, hd, rfl⟩
  · decide
  · simp only [Char.isDigit, Bool.and_eq_true, decide_eq_true_eq, ge_iff_le,
      UInt32.le_iff_toNat_le] at hdigit
    exact hdigit.2.trans (by decide)
  · have hrange : c.val ≥ 'A'.val ∧ c.val ≤ 'Z'.val := of_decide_eq_true hupper
    exact (UInt32.le_iff_toNat_le.mp hrange.2).trans (by decide)
  · rw [← UInt32.le_iff_toNat_le, ← Char.utf8Size_eq_one_iff]
    exact hletters d hd

theorem NameChar.ne_slash {c : Char} (h : NameChar c) : c ≠ '/' ∧ c ≠ '\x00' := by
  have hletters : ∀ d < 16, Nat.digitChar d ≠ '/' ∧ Nat.digitChar d ≠ '\x00' := by decide
  rcases h with rfl | hdigit | hupper | ⟨d, -, hd, rfl⟩
  · decide
  · constructor <;> (rintro rfl; revert hdigit; decide)
  · constructor <;> (rintro rfl; revert hupper; decide)
  · exact hletters d hd

theorem length_seqPart (secTime seqLen : ℕ) : (seqPart secTime seqLen).length = seqLen := by
  rw [seqPart]
  split
  · rw [List.length_drop]
    omega
  · rw [List.length_append, List.length_replicate]
    omega

theorem nameChar_of_mem_seqPart {secTime seqLen : ℕ} {c : Char} (h : c ∈ seqPart secTime seqLen) :
    NameChar c := by
  have hdigits : ∀ c ∈ Nat.toDigits 16 secTime, NameChar c := by
    intro c hc
    obtain ⟨d, hd, rfl⟩ := Text.mem_toDigits (by decide) hc
    exact .of_hex hd
  rw [seqPart] at h
  split at h
  · exact hdigits c (List.mem_of_mem_drop h)
  · rcases List.mem_append.mp h with hseq | hfill
    · exact hdigits c hseq
    · exact .inl (List.eq_of_mem_replicate hfill)

theorem randomChar_spec (rng : UInt64) : NameChar (randomChar rng).1 := by
  obtain ⟨val, hval⟩ := SplitMix.drawAny_accepted nameChar_zero rng
  exact nameChar_of_isSome hval

theorem randomChars_spec (n : ℕ) (rng : UInt64) :
    (randomChars n rng).1.length = n ∧ ∀ c ∈ (randomChars n rng).1, NameChar c := by
  induction n generalizing rng with
  | zero => exact ⟨rfl, fun c hc => absurd hc List.not_mem_nil⟩
  | succ n ih =>
    obtain ⟨hlen, hchars⟩ := ih (randomChar rng).2
    refine ⟨congrArg (· + 1) hlen, fun c hc => ?_⟩
    rcases List.mem_cons.mp hc with rfl | hc
    · exact randomChar_spec rng
    · exact hchars c hc

theorem utf8ByteSize_ofList {l : List Char} (h : ∀ c ∈ l, c.utf8Size = 1) :
    (String.ofList l).utf8ByteSize = l.length := by
  induction l with
  | nil => rfl
  | cons c l ih =>
    rw [← List.singleton_append, String.ofList_append, String.utf8ByteSize_append,
      ih fun c' hc' => h c' (List.mem_cons_of_mem _ hc'), List.singleton_append, List.length_cons,
        Nat.add_comm]
    congr 1
    exact (String.utf8ByteSize_singleton ..).trans (h c List.mem_cons_self)

/-- **A name**, whatever the time and the seed are: for each random character the loop ends, and the name
has as many bytes as the options say and stays in its directory. -/
theorem fileName_spec (p : FileParams) (secTime : ℕ) (rng : UInt64) :
    (SplitMix.draw nameChar SplitMix.period rng).isSome ∧
      (p.fileName secTime rng).1.utf8ByteSize = p.nameLen ∧
      ∀ c ∈ (p.fileName secTime rng).1.toList, NameChar c ∧ c ≠ '/' ∧ c ≠ '\x00' := by
  obtain ⟨hlen, hrandom⟩ := randomChars_spec p.randLen rng
  have hchars : ∀ c ∈ seqPart secTime (p.nameLen - p.randLen) ++ (randomChars p.randLen rng).1,
    NameChar c := by
    intro c hc
    rcases List.mem_append.mp hc with hseq | hrand
    · exact nameChar_of_mem_seqPart hseq
    · exact hrandom c hrand
  refine ⟨SplitMix.draw_isSome nameChar_zero rng, ?_, fun c hc => ?_⟩
  · change (String.ofList _).utf8ByteSize = _
    rw [utf8ByteSize_ofList fun c hc => (hchars c hc).utf8Size, List.length_append, length_seqPart, hlen]
    have hlt := p.randLen_lt
    omega
  · have hc' := hchars c (by simpa [FileParams.fileName] using hc)
    exact ⟨hc', hc'.ne_slash⟩

/-! ## Turns -/

section Turns

variable {p : FileParams} {st : ThreadState}

/-- The number of files of a turn; with 0 the turn ends behind each file. -/
def FileParams.turn (p : FileParams) : ℕ := if p.numPerSubdir = 0 then 1 else p.numPerSubdir

/-- The subdirectory of the first file. -/
def FileParams.firstSubdir (p : FileParams) (st : ThreadState) : ℕ :=
  if p.numPerSubdir = 0 then st.currentSubdir + 1 else st.currentSubdir

@[simp] theorem currentSubdir_begun (st : ThreadState) (secTime : ℕ) :
    (st.begun secTime).currentSubdir = st.currentSubdir := by
  rw [ThreadState.begun]
  split <;> rfl

@[simp] theorem filesInSubdir_begun (st : ThreadState) (secTime : ℕ) :
    (st.begun secTime).filesInSubdir = st.filesInSubdir := by
  rw [ThreadState.begun]
  split <;> rfl

theorem chooseSubdir_roundRobin (hp : p.dirPolicy = .roundRobin) (st : ThreadState) (secTime : ℕ) :
    (p.chooseSubdir st secTime).1 = some (p.chooseSubdir st secTime).2.currentSubdir ∧
      (p.numPerSubdir ≤ st.filesInSubdir →
        (p.chooseSubdir st secTime).2.currentSubdir = (st.currentSubdir + 1) % p.numSubdirs ∧
          (p.chooseSubdir st secTime).2.filesInSubdir = 1) ∧
      (st.filesInSubdir < p.numPerSubdir →
        (p.chooseSubdir st secTime).2.currentSubdir = st.currentSubdir % p.numSubdirs ∧
          (p.chooseSubdir st secTime).2.filesInSubdir = st.filesInSubdir + 1) := by
  simp only [FileParams.chooseSubdir, hp]
  refine ⟨trivial, fun hfull => ?_, fun hroom => ?_⟩
  · simp [hfull]
  · simp [Nat.not_le_of_lt hroom]

/-- From a state within a turn on. -/
theorem chosen_within (hp : p.dirPolicy = .roundRobin) (hk : 0 < p.numPerSubdir) (secs : List ℕ)
    (hst : st.filesInSubdir ≤ p.numPerSubdir) :
    p.chosen st secs = (List.range secs.length).map fun i =>
      some (Turns.place st.currentSubdir p.numPerSubdir p.numSubdirs (st.filesInSubdir + i)) := by
  induction secs generalizing st with
  | nil => rfl
  | cons secTime rest ih =>
    obtain ⟨hchoose, hfull, hroom⟩ := chooseSubdir_roundRobin hp st secTime
    rw [FileParams.chosen, hchoose, List.length_cons, List.range_succ_eq_map, List.map_cons, List.map_map]
    rcases Nat.lt_or_eq_of_le hst with hlt | heq
    · obtain ⟨hcur, hfiles⟩ := hroom hlt
      rw [ih (by omega), hcur, hfiles]
      congr 1
      · rw [Turns.place, Nat.add_zero, Nat.div_eq_of_lt hlt, Nat.add_zero]
      · refine List.map_congr_left fun i _ => ?_
        simp only [Function.comp_def, Turns.place, Nat.mod_add_mod, Nat.succ_eq_add_one]
        rw [Nat.add_right_comm, Nat.add_assoc st.filesInSubdir]
    · obtain ⟨hcur, hfiles⟩ := hfull heq.ge
      rw [ih (by omega), hcur, hfiles]
      congr 1
      · simp only [Turns.place, heq, Nat.add_zero, Nat.div_self hk]
      · refine List.map_congr_left fun i _ => ?_
        have hdiv : (p.numPerSubdir + (i + 1)) / p.numPerSubdir = (i + 1) / p.numPerSubdir + 1 := by
          rw [Nat.add_comm, Nat.add_div_right _ hk]
        simp only [Function.comp_def, Turns.place, Nat.mod_add_mod, Nat.succ_eq_add_one, heq, hdiv]
        rw [Nat.add_right_comm, Nat.add_assoc, Nat.add_comm 1 i]

/-- A turn without files of its own. -/
theorem chosen_each (hp : p.dirPolicy = .roundRobin) (hk : p.numPerSubdir = 0) (secs : List ℕ) :
    p.chosen st secs = (List.range secs.length).map fun i =>
      some (Turns.place (st.currentSubdir + 1) 1 p.numSubdirs i) := by
  induction secs generalizing st with
  | nil => rfl
  | cons secTime rest ih =>
    obtain ⟨hchoose, hfull, -⟩ := chooseSubdir_roundRobin hp st secTime
    obtain ⟨hcur, -⟩ := hfull (by omega)
    rw [FileParams.chosen, hchoose, List.length_cons, List.range_succ_eq_map, List.map_cons, List.map_map,
      ih, hcur]
    congr 1
    refine List.map_congr_left fun i _ => ?_
    simp only [Function.comp_def, Turns.place, Nat.div_one, Nat.succ_eq_add_one]
    rw [Nat.add_assoc, Nat.mod_add_mod, Nat.add_comm 1 i]

theorem chosen_roundRobin (hp : p.dirPolicy = .roundRobin) (hst : st.filesInSubdir = 0) (secs : List ℕ) :
    p.chosen st secs = (List.range secs.length).map fun i =>
      some (Turns.place (p.firstSubdir st) p.turn p.numSubdirs i) := by
  rw [FileParams.firstSubdir, FileParams.turn]
  by_cases hk : p.numPerSubdir = 0
  · rw [if_pos hk, if_pos hk, chosen_each hp hk]
  · rw [if_neg hk, if_neg hk, chosen_within hp (Nat.pos_of_ne_zero hk) secs (by omega), hst]
    simp only [Nat.zero_add]

theorem count_map_some (f : ℕ → ℕ) (d m : ℕ) :
    ((List.range m).map fun i => some (f i)).count (some d) = Nat.count (fun i => f i = d) m := by
  induction m with
  | zero => rfl
  | succ m ih =>
    rw [List.range_succ, List.map_append, List.count_append, ih, Nat.count_succ]
    congr 1
    by_cases h : f m = d <;> simp [h]

/-- **Round robin**: each file of a thread has a subdirectory that is there, the next `turn` files have the
same one, then the next one has its turn, and the subdirectories get the same number of files but for those
of the round that is going on, whatever the clock does. -/
theorem roundRobin_spec (hp : p.dirPolicy = .roundRobin) (hst : st.filesInSubdir = 0) (secs : List ℕ) :
    p.chosen st secs =
        (List.range secs.length).map (fun i => some ((p.firstSubdir st + i / p.turn) % p.numSubdirs)) ∧
      ∀ d < p.numSubdirs,
        p.turn * (secs.length / (p.numSubdirs * p.turn)) ≤ (p.chosen st secs).count (some d) ∧
        (p.chosen st secs).count (some d) ≤ p.turn * (secs.length / (p.numSubdirs * p.turn)) + p.turn := by
  have hturn : 0 < p.turn := by
    rw [FileParams.turn]
    split <;> omega
  refine ⟨chosen_roundRobin hp hst secs, fun d hd => ?_⟩
  rw [chosen_roundRobin hp hst secs, count_map_some]
  exact Turns.share_between hturn hd _ _

/-- One thread with one file of one byte, which is flushed before it is closed. -/
def oneFile (keepFiles : Bool) : FileParams where
  toParams := { soloParams 1 Nat.one_pos with keepFiles, syncBits := 1 }
  ioSize := 4
  syncType := 1
  dirPolicy := .noSubdirs
  numSubdirs := 0
  numPerSubdir := 0
  secsPerDir := defaultSecsPerDir
  nameLen := 2
  randLen := 1
  syncBits_eq := rfl
  dirs_ne := List.cons_ne_nil _ _
  keeps := fun h => h.elim (fun h => absurd h (Nat.lt_irrefl 0)) (fun h => absurd h Bool.false_ne_true)
  ioSize_pos := by decide
  randLen_lt := by decide
  nameLen_le := by decide
  subdirs := fun h => absurd rfl h

/-- Two subdirectories in turns of two files. -/
def turnsOfTwo : FileParams :=
  { oneFile false with
    dirPolicy := .roundRobin
    numSubdirs := 2
    numPerSubdir := 2
    subdirs := fun _ => Nat.le_refl 2 }

theorem roundRobin_spec_two :
    turnsOfTwo.chosen ⟨"/mnt", 7, 0, 0, 0⟩ [9, 9, 3, 12, 12] = [some 0, some 0, some 1, some 1, some 0] :=
  (roundRobin_spec (p := turnsOfTwo) rfl rfl [9, 9, 3, 12, 12]).1.trans (by decide)

end Turns

end Fstest.Fsmark
