import Fstest.Fsx.Fallocate

/-!
# The start of fsx

What `run` does before its loop: it opens the file, asks for its size, probes what the file system
supports, and fills the file and the shadow (`enter`). The probes work on the file under test, and take
back what they did by a truncate, apart from the copy of a byte (`probeAll_contents`). With `lite` the
file is filled up to the maximum, while the shadow keeps the size that the file had, so the two start
equal only if that was the maximum (`enter_equal_iff`).
-/

namespace Fstest.Fsx

variable {σ : Type}

/-- The options that turn operations off. -/
structure Features where
  noFallocate : Bool := false
  noPunch : Bool := false
  noZero : Bool := false
  noCollapse : Bool := false
  noInsert : Bool := false
  noClone : Bool := false
  noCopy : Bool := false

inductive Platform where
  | linux
  | macos
  | other
  deriving DecidableEq, Repr

/-- The operations that are on before the probes. -/
def configured (p : Platform) (f : Features) : Op → Bool
  | .fallocate => !(f.noFallocate || p != .linux)
  | .punchHole => !(f.noPunch || (p != .linux && p != .macos))
  | .zeroRange => !(f.noZero || p != .linux)
  | .collapseRange => !(f.noCollapse || p != .linux)
  | .insertRange => !(f.noInsert || p != .linux)
  | .writeZeroes => p == .linux && !f.noZero
  | .cloneRange => !(f.noClone || p != .linux)
  | .copyRange => !(f.noCopy || p != .linux)
  | .read | .write | .mapRead | .mapWrite | .truncate | .fsync => true

/-! ## Probes -/

def enosys : Int := 38
def eopnotsupp : Int := 95
def enotty : Int := 25

section

variable (K : Kernel σ) (errno : IoError → Int)

/-- `FsxProbe::fa`: a byte at the end of the file, which a truncate takes back. -/
def probeFa (size mode : Nat) (fd : σ) : Option (Bool × σ) :=
  match K.fallocate fd mode size 1 with
  | .ok fd =>
    match K.ftruncate fd size with
    | .ok fd => some (true, fd)
    | .error _ => none
  | .error e => some (errno e != enosys && errno e != eopnotsupp && errno e != enotty, fd)

def probeCloneRange (fd : σ) : Option (Bool × σ) :=
  match K.ficlonerange fd 0 0 0 with
  | .ok fd => some (true, fd)
  | .error e => some (errno e != eopnotsupp && errno e != enotty, fd)

def probeCopyRange (fd : σ) : Option (Bool × σ) :=
  match K.copyFileRange fd 0 1 1 with
  | .ok (_, fd) => some (true, fd)
  | .error e => some (errno e != enosys && errno e != eopnotsupp && errno e != enotty, fd)

/-- The probes in their order. -/
def probes (size : Nat) : List (Op × (σ → Option (Bool × σ))) :=
  [(.fallocate, probeFa K errno size 0),
    (.punchHole, probeFa K errno size (fallocFlPunchHole ||| fallocFlKeepSize)),
    (.zeroRange, probeFa K errno size fallocFlZeroRange),
    (.collapseRange, probeFa K errno size fallocFlCollapseRange),
    (.insertRange, probeFa K errno size fallocFlInsertRange),
    (.writeZeroes, probeFa K errno size fallocFlWriteZeroes),
    (.cloneRange, probeCloneRange K errno),
    (.copyRange, probeCopyRange K errno)]

/-- An operation that is on is turned off where its probe says so. -/
def probeOp (p : Platform) (st : (Op → Bool) × σ) (q : Op × (σ → Option (Bool × σ))) :
    Option ((Op → Bool) × σ) :=
  if p == .linux && st.1 q.1 then
    (q.2 st.2).map fun r => (if r.1 then st.1 else Function.update st.1 q.1 false, r.2)
  else some st

def probeAll (p : Platform) (size : Nat) (st : (Op → Bool) × σ) : Option ((Op → Bool) × σ) :=
  (probes K errno size).foldlM (probeOp p) st

/-! ## The files -/

/-- `pwrite_all`, of which the result is not looked at. -/
def prefill (fd : σ) (data : Bytes) (off : Nat) : σ :=
  if data.length = 0 then fd
  else
    match K.pwrite fd data off with
    | .error _ => fd
    | .ok (n, fd') => prefill fd' (data.drop n.1) (off + n.1)
termination_by data.length
decreasing_by
  have := n.2
  simp only [List.length_drop]
  omega

/-- The part of `run` before its loop, on the file that it has opened. -/
def enter (a : Args) (f : Features) (p : Platform) (fd : σ) (pageSize : Nat) (rng : Nat → UInt32) :
    Option (Except IoError (Fsx σ)) :=
  match K.fstatSize fd with
  | .error _ => some (.error "fstat failed")
  | .ok stSize => do
    let fileSize := if a.lite then stSize else 0
    let maxfilelen := if a.lite then max a.flen fileSize else a.flen
    let (enabled, fd) ← probeAll K errno p fileSize (configured p f, fd)
    let s ← start { a with flen := maxfilelen } fd pageSize rng enabled
    let s := { s with fileSize, biggest := fileSize }
    if a.lite then
      let image ← slice s.goodBuf 0 maxfilelen
      return .ok { s with fd := prefill K fd image 0 }
    else if 0 < fileSize then
      match preadAll K fd fileSize 0 with
      | .error e => return .error e
      | .ok image =>
        let goodBuf ← copyIn s.goodBuf 0 image
        let s := { s with goodBuf }
        match K.ftruncate fd fileSize with
        | .error _ => return .error "no extend on truncate! not posix!"
        | .ok fd =>
          match K.ftruncate fd (fileSize + 100000) with
          | .error _ => return .error "no extend on truncate! not posix!"
          | .ok fd =>
            match K.ftruncate fd fileSize with
            | .error _ => return .ok { s with fd }
            | .ok fd => return .ok { s with fd }
    else return .ok s

end

/-- What is in the file after it is opened. Without `lite` it is emptied. -/
def opened (lite : Bool) (existing : Option Bytes) : Bytes := if lite then existing.getD [] else []

/-- A file system that works as documented as far as the start needs it. It may lack any of the calls
that are probed; `copies` says whether it has `copy_file_range`. -/
structure StartSemantics (K : Kernel σ) (contents : σ → Bytes) (copies : Bool) : Prop where
  fstatSize : ∀ fd, K.fstatSize fd = .ok (contents fd).length
  pwrite : ∀ fd data off, 0 < data.length → ∃ n fd', K.pwrite fd data off = .ok (n, fd') ∧
    contents fd' = overwrite (contents fd) off (data.take n)
  ftruncate : ∀ fd size fd', K.ftruncate fd size = .ok fd' →
    contents fd' = resize (contents fd) size
  /-- A byte that is preallocated or zeroed at the end of the file is a zero. -/
  extend : ∀ fd mode fd', mode = 0 ∨ mode = fallocFlZeroRange ∨ mode = fallocFlWriteZeroes →
    K.fallocate fd mode (contents fd).length 1 = .ok fd' →
    contents fd' = resize (contents fd) ((contents fd).length + 1)
  punchEnd : ∀ fd fd',
    K.fallocate fd (fallocFlPunchHole ||| fallocFlKeepSize) (contents fd).length 1 = .ok fd' →
    contents fd' = contents fd
  /-- No range can be cut out or inserted at the end of the file. -/
  rangeEnd : ∀ fd mode, mode = fallocFlCollapseRange ∨ mode = fallocFlInsertRange →
    ∃ e, K.fallocate fd mode (contents fd).length 1 = .error e
  /-- A file that is cloned onto itself does not change. -/
  cloneSelf : ∀ fd fd', K.ficlonerange fd 0 0 0 = .ok fd' → contents fd' = contents fd
  copyByte : ∀ fd, if copies then ∃ n fd', K.copyFileRange fd 0 1 1 = .ok (n, fd') ∧
      contents fd' = if contents fd = [] then [] else overwrite (contents fd) 1 ((contents fd).take 1)
    else ∃ e, K.copyFileRange fd 0 1 1 = .error e

section

variable {K : Kernel σ} {contents : σ → Bytes} {copies : Bool} {errno : IoError → Int}
  {p : Platform} {size mode : Nat} {fd fd' : σ} {b : Bool} {c : Bytes}

/-! ## What the probes leave -/

/-- What a probe at the end of the file has done is taken back. -/
theorem probeFa_contents (hK : StartSemantics K contents copies) (hsize : (contents fd).length = size)
    (hmode : mode = 0 ∨ mode = fallocFlPunchHole ||| fallocFlKeepSize ∨ mode = fallocFlZeroRange ∨
      mode = fallocFlCollapseRange ∨ mode = fallocFlInsertRange ∨ mode = fallocFlWriteZeroes)
    (h : probeFa K errno size mode fd = some (b, fd')) : contents fd' = contents fd := by
  subst hsize
  rw [probeFa] at h
  cases hcall : K.fallocate fd mode (contents fd).length 1 with
  | error e =>
    rw [hcall] at h
    cases h
    rfl
  | ok fd₁ =>
    simp only [hcall] at h
    cases htrunc : K.ftruncate fd₁ (contents fd).length with
    | error e =>
      rw [htrunc] at h
      cases h
    | ok fd₂ =>
      rw [htrunc] at h
      cases h
      rw [hK.ftruncate _ _ _ htrunc]
      have hback : ∀ n, (contents fd).length ≤ n →
          resize (resize (contents fd) n) (contents fd).length = contents fd := by
        intro n hn
        apply ext_byteAt (length_resize _ _)
        intro i hi
        rw [length_resize] at hi
        rw [byteAt_resize, if_pos hi, byteAt_resize, if_pos (by omega)]
      have hsame : resize (contents fd) (contents fd).length = contents fd := by
        rw [resize, List.take_length, Nat.sub_self, List.replicate_zero, List.append_nil]
      rcases hmode with rfl | rfl | rfl | rfl | rfl | rfl
      · rw [hK.extend _ _ _ (.inl rfl) hcall, hback _ (Nat.le_succ _)]
      · rw [hK.punchEnd _ _ hcall, hsame]
      · rw [hK.extend _ _ _ (.inr (.inl rfl)) hcall, hback _ (Nat.le_succ _)]
      · obtain ⟨e, he⟩ := hK.rangeEnd fd _ (.inl rfl)
        rw [hcall] at he
        cases he
      · obtain ⟨e, he⟩ := hK.rangeEnd fd _ (.inr rfl)
        rw [hcall] at he
        cases he
      · rw [hK.extend _ _ _ (.inr (.inr rfl)) hcall, hback _ (Nat.le_succ _)]

theorem probeCloneRange_contents (hK : StartSemantics K contents copies)
    (h : probeCloneRange K errno fd = some (b, fd')) : contents fd' = contents fd := by
  rw [probeCloneRange] at h
  cases hcall : K.ficlonerange fd 0 0 0 with
  | error e =>
    rw [hcall] at h
    cases h
    rfl
  | ok fd₁ =>
    rw [hcall] at h
    cases h
    exact hK.cloneSelf _ _ hcall

/-- Probes of other operations, none of which changes the contents `c`. -/
theorem foldlM_probeOp {l : List (Op × (σ → Option (Bool × σ)))} {st st' : (Op → Bool) × σ}
    (hl : ∀ q ∈ l, q.1 ≠ .copyRange ∧
      ∀ fd b fd', contents fd = c → q.2 fd = some (b, fd') → contents fd' = c)
    (hc : contents st.2 = c) (h : l.foldlM (probeOp p) st = some st') :
    contents st'.2 = c ∧ st'.1 .copyRange = st.1 .copyRange := by
  induction l generalizing st with
  | nil =>
    cases h
    exact ⟨hc, rfl⟩
  | cons q l ih =>
    rw [List.foldlM_cons, Option.bind_eq_bind, Option.bind_eq_some_iff] at h
    obtain ⟨st₁, h₁, h⟩ := h
    obtain ⟨hq, hrest⟩ := List.forall_mem_cons.mp hl
    have hone : contents st₁.2 = c ∧ st₁.1 .copyRange = st.1 .copyRange := by
      rw [probeOp] at h₁
      split at h₁
      · obtain ⟨⟨b, fd₁⟩, hprobe, rfl⟩ := Option.map_eq_some_iff.mp h₁
        refine ⟨hq.2 _ _ _ hc hprobe, ?_⟩
        cases b
        · exact Function.update_of_ne hq.1.symm _ _
        · rfl
      · cases h₁
        exact ⟨hc, rfl⟩
    obtain ⟨hc', hon⟩ := ih hrest hone.1 h
    exact ⟨hc', hon.trans hone.2⟩

/-- The probes copy a byte of the file. -/
def CopiesByte (f : Features) (p : Platform) (copies : Bool) (c : Bytes) : Prop :=
  p = .linux ∧ f.noCopy = false ∧ copies = true ∧ c ≠ []

/-- **The probes leave the file as it is**, or copy its first byte over its second one. -/
theorem probeAll_contents (hK : StartSemantics K contents copies) {f : Features} {on : Op → Bool}
    (hsize : (contents fd).length = size)
    (h : probeAll K errno p size (configured p f, fd) = some (on, fd')) :
    (CopiesByte f p copies (contents fd) →
      contents fd' = overwrite (contents fd) 1 ((contents fd).take 1)) ∧
    (¬ CopiesByte f p copies (contents fd) → contents fd' = contents fd) := by
  have hsplit : probes K errno size =
      (probes K errno size).dropLast ++ [(.copyRange, probeCopyRange K errno)] := rfl
  rw [probeAll, hsplit, List.foldlM_append, Option.bind_eq_bind, Option.bind_eq_some_iff] at h
  obtain ⟨st, hfirst, hlast⟩ := h
  have hfront : ∀ q ∈ (probes K errno size).dropLast, q.1 ≠ .copyRange ∧
      ∀ fd₁ b fd₂, contents fd₁ = contents fd → q.2 fd₁ = some (b, fd₂) →
        contents fd₂ = contents fd := by
    intro q hq
    simp only [probes, List.dropLast_cons_cons, List.dropLast_singleton, List.mem_cons,
      List.not_mem_nil, or_false] at hq
    subst hsize
    have hfa : ∀ mode, (mode = 0 ∨ mode = fallocFlPunchHole ||| fallocFlKeepSize ∨
        mode = fallocFlZeroRange ∨ mode = fallocFlCollapseRange ∨ mode = fallocFlInsertRange ∨
        mode = fallocFlWriteZeroes) → ∀ (fd₁ : σ) b fd₂, contents fd₁ = contents fd →
        probeFa K errno (contents fd).length mode fd₁ = some (b, fd₂) →
        contents fd₂ = contents fd := fun mode hmode fd₁ b fd₂ h₁ h₂ =>
      (probeFa_contents hK (by rw [h₁]) hmode h₂).trans h₁
    rcases hq with rfl | rfl | rfl | rfl | rfl | rfl | rfl
    · exact ⟨nofun, hfa _ (.inl rfl)⟩
    · exact ⟨nofun, hfa _ (.inr (.inl rfl))⟩
    · exact ⟨nofun, hfa _ (.inr (.inr (.inl rfl)))⟩
    · exact ⟨nofun, hfa _ (.inr (.inr (.inr (.inl rfl))))⟩
    · exact ⟨nofun, hfa _ (.inr (.inr (.inr (.inr (.inl rfl)))))⟩
    · exact ⟨nofun, hfa _ (.inr (.inr (.inr (.inr (.inr rfl)))))⟩
    · exact ⟨nofun, fun _ _ _ h₁ h₂ => (probeCloneRange_contents hK h₂).trans h₁⟩
  obtain ⟨hc, hon⟩ := foldlM_probeOp hfront rfl hfirst
  -- The last probe is the copy.
  have hcopy := hK.copyByte st.2
  rw [hc] at hcopy
  simp only [List.foldlM_cons, List.foldlM_nil, bind_pure, probeOp, hon] at hlast
  by_cases hrun : (p == .linux && configured p f .copyRange) = true
  · rw [if_pos hrun] at hlast
    obtain ⟨⟨b, fd₁⟩, hprobe, hst⟩ := Option.map_eq_some_iff.mp hlast
    obtain rfl : fd₁ = fd' := congrArg Prod.snd hst
    simp only [configured, Bool.and_eq_true, beq_iff_eq, Bool.not_eq_true', Bool.or_eq_false_iff]
      at hrun
    simp only [probeCopyRange] at hprobe
    cases copies with
    | true =>
      obtain ⟨n, fd₂, hcall, hcontents⟩ := hcopy
      rw [hcall] at hprobe
      cases hprobe
      rw [hcontents]
      by_cases hnil : contents fd = []
      · rw [if_pos hnil]
        exact ⟨fun h => absurd hnil h.2.2.2, fun _ => hnil.symm⟩
      · rw [if_neg hnil]
        exact ⟨fun _ => rfl, fun h => absurd ⟨hrun.1, hrun.2.1, rfl, hnil⟩ h⟩
    | false =>
      obtain ⟨e, hcall⟩ := hcopy
      rw [hcall] at hprobe
      cases hprobe
      exact ⟨fun h => absurd h.2.2.1 Bool.false_ne_true, fun _ => hc⟩
  · rw [if_neg hrun] at hlast
    cases hlast
    refine ⟨fun h => absurd ?_ hrun, fun _ => hc⟩
    simp only [configured, h.1, h.2.1]
    rfl

/-! ## Filling the file -/

theorem prefill_contents (hK : StartSemantics K contents copies) {data : Bytes} (fd : σ) (off : Nat)
    (hd : 0 < data.length) : contents (prefill K fd data off) = overwrite (contents fd) off data := by
  induction hn : data.length using Nat.strongRecOn generalizing data fd off with
  | ind len ih =>
    obtain ⟨n, fd₁, hw, hc⟩ := hK.pwrite fd data off hd
    have hn1 := n.2
    rw [prefill, if_neg (by omega), hw]
    simp only []
    by_cases hall : n.1 = data.length
    · rw [prefill, if_pos (by simp; omega), hc, List.take_of_length_le (by omega)]
    · have hrest : (data.drop n.1).length = len - n.1 := by simp; omega
      rw [ih (len - n.1) (by omega) fd₁ (off + n.1) (by omega) hrest, hc,
        overwrite_take_drop _ _ _ hn1.2]

/-- Zeros over the first `m` bytes. -/
theorem prefill_zeros (hK : StartSemantics K contents copies) (fd : σ) (m : Nat) :
    (contents (prefill K fd (List.replicate m 0) 0)).length = max (contents fd).length m ∧
    ∀ i < m, byteAt (contents (prefill K fd (List.replicate m 0) 0)) i = 0 := by
  cases m with
  | zero =>
    rw [List.replicate_zero, prefill, if_pos List.length_nil, Nat.max_zero]
    exact ⟨rfl, fun _ hi => absurd hi (Nat.not_lt_zero _)⟩
  | succ m =>
    rw [prefill_contents hK fd 0 (by rw [List.length_replicate]; exact Nat.succ_pos m)]
    refine ⟨by rw [length_overwrite, List.length_replicate, Nat.zero_add], fun i hi => ?_⟩
    rw [byteAt_overwrite, List.length_replicate, if_pos (by omega), byteAt_replicate_zero]

/-- With `lite` the shadow starts with the old size of the file, which is then the maximum, unless the
copy of its one byte has made the file longer. -/
def StartsEqual (a : Args) (f : Features) (p : Platform) (copies : Bool) (existing : Option Bytes) :
    Prop :=
  a.lite = true → a.flen ≤ (existing.getD []).length ∧
    ¬ ((existing.getD []).length = 1 ∧ CopiesByte f p copies (existing.getD []))

/-- **When the shadow equals the file at the start of the loop.** -/
theorem enter_equal_iff {a : Args} {f : Features} {existing : Option Bytes} {pageSize : Nat}
    {rng : Nat → UInt32} {s : Fsx σ} (hK : StartSemantics K contents copies)
    (hopen : contents fd = opened a.lite existing)
    (h : enter K errno a f p fd pageSize rng = some (.ok s)) :
    Equal contents s ↔ StartsEqual a f p copies existing := by
  rw [enter, hK.fstatSize] at h
  simp only [Option.bind_eq_bind, Option.bind_eq_some_iff] at h
  obtain ⟨⟨on, fd₁⟩, hprobe, s₁, hstart, h⟩ := h
  have ha := start_some hstart
  rw [start_of ha, Option.some.injEq] at hstart
  cases hlite : a.lite with
  | false =>
    simp only [hlite, Bool.false_eq_true, if_false, Nat.lt_irrefl] at h hprobe hstart
    rw [hlite, opened, if_neg Bool.false_ne_true] at hopen
    cases h
    obtain ⟨-, hsame⟩ := probeAll_contents hK (by rw [hopen]; rfl) hprobe
    have hnil : contents fd₁ = [] := (hsame fun h => h.2.2.2 hopen).trans hopen
    refine ⟨fun _ hl => absurd (hlite.symm.trans hl) Bool.false_ne_true, fun _ => ?_⟩
    subst hstart
    exact ⟨congrArg List.length hnil, fun _ hi => absurd hi (Nat.not_lt_zero _)⟩
  | true =>
    simp only [hlite, if_true] at h hprobe hstart
    rw [hlite, opened, if_pos rfl] at hopen
    rw [StartsEqual, ← hopen]
    simp only [hlite, true_imp_iff]
    obtain ⟨hcopied, hsame⟩ := probeAll_contents hK rfl hprobe
    generalize contents fd = c at hcopied hsame hstart h ⊢
    generalize hm : max a.flen c.length = m at hstart h ha
    subst hstart
    -- The shadow is all zeros, and so is what the file is filled with.
    have himage : slice (List.replicate (m + a.writebdy + 8) (0 : UInt8)) 0 m =
        some (List.replicate m 0) := by
      rw [slice_of (Nat.zero_le _) (by rw [List.length_replicate]; omega), List.drop_zero,
        List.take_replicate]
      congr 2
      omega
    simp only [initial, himage] at h
    cases h
    obtain ⟨hlen, hzero⟩ := prefill_zeros hK fd₁ m
    have hequal : Equal contents { (initial { a with flen := m } fd pageSize rng on
        (List.replicate (m + a.writebdy + 8) 0)) with
          fd := prefill K fd₁ (List.replicate m 0) 0, fileSize := c.length, biggest := c.length } ↔
        max (contents fd₁).length m = c.length := by
      rw [← hlen]
      refine ⟨fun heq => heq.1, fun heq => ⟨heq, fun i hi => ?_⟩⟩
      have hi : i < c.length := hi
      exact (hzero i (by omega)).trans (byteAt_replicate_zero _ _).symm
    refine hequal.trans ?_
    by_cases hcopies : CopiesByte f p copies c
    · have hpos := List.length_pos_iff.mpr hcopies.2.2.2
      have hprobed : (contents fd₁).length = max c.length 2 := by
        rw [hcopied hcopies, length_overwrite, List.length_take]
        omega
      simp only [hcopies, and_true]
      omega
    · have hprobed : (contents fd₁).length = c.length := congrArg List.length (hsame hcopies)
      simp only [hcopies, and_false, not_false_iff, and_true]
      omega

end

/-! ## A file system without clones -/

/-- A file in memory, on which no range can be cut out or inserted at its end, and none cloned. -/
def plainFile : Kernel Bytes :=
  { ramFile with
    fallocate := fun fd mode off len =>
      if (mode = fallocFlCollapseRange ∨ mode = fallocFlInsertRange) ∧ fd.length ≤ off then
        .error "Invalid argument"
      else ramFile.fallocate fd mode off len
    ficlonerange := fun _ _ _ _ => .error "Operation not supported"
    copyFileRange := fun fd src dest len =>
      if fd.length ≤ src then .ok (⟨0, Nat.zero_le _⟩, fd) else ramFile.copyFileRange fd src dest len }

def plainErrno (e : IoError) : Int := if e = "Operation not supported" then eopnotsupp else 22

theorem overwrite_end (f : Bytes) : overwrite f f.length [0] = resize f (f.length + 1) := by
  apply ext_byteAt
  · rw [length_overwrite, length_resize, List.length_singleton]
    omega
  · intro i hi
    rw [byteAt_overwrite, byteAt_resize, List.length_singleton]
    by_cases hlast : f.length ≤ i ∧ i < f.length + 1
    · obtain rfl : i = f.length := by omega
      rw [if_pos hlast, if_pos (Nat.lt_succ_self _), Nat.sub_self, byteAt_of_le (Nat.le_refl _)]
      rfl
    · rw [length_overwrite, List.length_singleton] at hi
      rw [if_neg hlast, if_pos (by omega)]

theorem plainFile_starts : StartSemantics plainFile id true where
  fstatSize _ := rfl
  pwrite fd data off h := ⟨_, _, dif_pos h, by simp⟩
  ftruncate fd size fd' h := by
    cases h
    rfl
  extend fd mode fd' hmode h := by
    rcases hmode with rfl | rfl | rfl
    · cases h
      exact congrArg (resize fd) (Nat.max_eq_right (Nat.le_succ _))
    · cases h
      exact overwrite_end fd
    · cases h
      exact overwrite_end fd
  punchEnd fd fd' h := by
    cases h
    apply ext_byteAt (length_zeroRange _ _ _)
    intro i hi
    rw [id, length_zeroRange] at hi
    exact (byteAt_zeroRange _ _ _ _).trans (if_neg (by rw [id]; omega))
  rangeEnd fd mode hmode := ⟨_, if_pos ⟨hmode, Nat.le_refl _⟩⟩
  cloneSelf fd fd' h := by cases h
  copyByte fd := by
    cases fd with
    | nil => exact ⟨⟨0, Nat.zero_le 1⟩, [], rfl, rfl⟩
    | cons b fd =>
      refine ⟨_, _, rfl, ((if_neg (List.cons_ne_nil b fd)).trans ?_).symm⟩
      rw [List.length_cons, Nat.sub_zero, Nat.min_eq_left (Nat.succ_pos _), List.drop_zero]
      rfl

/-- A file of the maximal length. -/
theorem full_file_equal : ∃ s, enter plainFile plainErrno { flen := 2, oplen := 8, lite := true } {}
    .linux [1, 2] 4096 (fun _ => 0) = some (.ok s) ∧ Equal id s := by
  have hrun : ∃ s, enter plainFile plainErrno { flen := 2, oplen := 8, lite := true } {} .linux [1, 2]
      4096 (fun _ => 0) = some (.ok s) := ⟨_, rfl⟩
  obtain ⟨s, hs⟩ := hrun
  have hopen : id [1, 2] = opened true (some [1, 2]) := rfl
  refine ⟨s, hs, (enter_equal_iff plainFile_starts hopen hs).mpr ?_⟩
  exact fun _ => ⟨by decide, fun h => absurd h.1 (by decide)⟩

/-- The file is filled up to the maximum, and the shadow is empty. -/
theorem fill_not_in_shadow : ∃ s, enter plainFile plainErrno { flen := 16, oplen := 8, lite := true } {}
    .linux (opened true none) 4096 (fun _ => 0) = some (.ok s) ∧
    s.fd.length = 16 ∧ s.fileSize = 0 ∧ ¬ Equal id s := by
  refine ⟨_, rfl, (prefill_zeros plainFile_starts [] 16).1, rfl, fun heq => ?_⟩
  exact absurd ((prefill_zeros plainFile_starts [] 16).1.symm.trans heq.length) (by decide)

end Fstest.Fsx
