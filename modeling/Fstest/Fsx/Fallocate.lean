import Fstest.Fsx.Bounds

/-!
# Insertion and preallocation

- `doInsertRange_iff`: an insertion moves the bytes of the shadow up to `fileSize - length` only. Its
  last bytes are right exactly if they have stood after the end of the shadow file before.
- `doPreallocate_iff`: a preallocation keeps the shadow equal to the file, unless it grows the shadow
  where the file does not grow: with `keepSize`, and where the operation is only simulated.
-/

namespace Fstest.Fsx

variable {σ : Type} {K : Kernel σ} {s s' : Fsx σ} {offset length : Nat}

/-! ## Insertion -/

/-- The shadow `s'` is `s` with `length` zeros inserted at `offset`. -/
structure Inserted (s s' : Fsx σ) (offset length : Nat) : Prop where
  fileSize : s'.fileSize = s.fileSize + length
  low : ∀ i < offset, byteAt s'.goodBuf i = byteAt s.goodBuf i
  zero : ∀ i, offset ≤ i → i < offset + length → byteAt s'.goodBuf i = 0
  moved : ∀ i, offset + length ≤ i → i < s'.fileSize →
    byteAt s'.goodBuf i = byteAt s.goodBuf (i - length)

/-- The bytes after the end of the shadow file are its last ones. -/
def Repeats (s : Fsx σ) (length : Nat) : Prop :=
  ∀ i < length, byteAt s.goodBuf (s.fileSize + i) = byteAt s.goodBuf (s.fileSize - length + i)

/-- An insertion that the kernel carries out. -/
structure Insertable (K : Kernel σ) (s : Fsx σ) (offset length : Nat) : Prop where
  sized : s.Sized
  inside : offset < s.fileSize
  pos : 0 < length
  fits : s.fileSize + length ≤ s.maxfilelen
  accepted : ¬ InsertRefused K s offset length

/-- **What an insertion does.** It needs the whole range inside the shadow file, and leaves the bytes
after its end as they are. -/
theorem doInsertRange_spec (h : Insertable K s offset length)
    (hr : s.doInsertRange K offset length = some s') :
    offset + length ≤ s.fileSize ∧ s'.fileSize = s.fileSize + length ∧
      ∀ i, byteAt s'.goodBuf i =
        if offset ≤ i ∧ i < offset + length then 0
        else if offset + length ≤ i ∧ i < s.fileSize then byteAt s.goodBuf (i - length)
        else byteAt s.goodBuf i := by
  obtain ⟨hs, ho, hz, hfit, href⟩ := h
  have hgood := hs.goodBuf
  simp only [doInsertRange] at hr
  rw [if_neg (by omega)] at hr
  have hsame : Same s (s.log4 .insertRange offset length false) := same_log5 ..
  unfold InsertRefused at href
  generalize s.log4 .insertRange offset length false = s₁ at hsame href hr
  rw [← hsame.maxfilelen] at href
  obtain ⟨fd₂, hpol, -⟩ := polluteEofpage_eq K (hsame.sized hs)
  simp only [hpol, Option.bind_eq_bind, Option.bind_some] at hr
  split at hr
  · rename_i e hcall
    exact absurd (fun s₂ h₂ => by rw [hpol] at h₂; cases h₂; exact ⟨e, hcall⟩) href
  simp only [Option.bind_eq_some_iff, addU64_eq_some, subU64_eq_some] at hr
  obtain ⟨e, ⟨-, rfl⟩, last, ⟨hle, rfl⟩, buf, hcopy, buf₂, hfill, n, ⟨-, rfl⟩, hs'⟩ := hr
  cases hs'
  rw [hsame.fileSize] at hcopy hle
  rw [hsame.goodBuf] at hcopy
  have hin : offset ≤ s.fileSize - length := by
    unfold copyWithin at hcopy
    split at hcopy
    · rename_i h
      exact h.1
    · cases hcopy
  refine ⟨by omega, congrArg (· + length) hsame.fileSize, fun i => ?_⟩
  have hmove : ((s.goodBuf.drop offset).take (s.fileSize - length - offset)).length =
      s.fileSize - length - offset := length_drop_take (by omega)
  rw [copyWithin_of hin (by omega) (by omega), Option.some.injEq] at hcopy
  subst hcopy
  have hlen : (patch s.goodBuf (offset + length)
      ((s.goodBuf.drop offset).take (s.fileSize - length - offset))).length = s.goodBuf.length :=
    length_patch (by omega)
  rw [fillRange_of (by omega) (by omega), Option.some.injEq] at hfill
  subst hfill
  simp only []
  rw [byteAt_zeroed _ (by omega) (by omega)]
  by_cases hzero : offset ≤ i ∧ i < offset + length
  · rw [if_pos hzero, if_pos hzero]
  · rw [if_neg hzero, if_neg hzero, byteAt_patch (by omega), hmove]
    by_cases hmoved : offset + length ≤ i ∧ i < s.fileSize
    · rw [if_pos hmoved, if_pos (by omega), byteAt_drop_take, if_pos (by omega)]
      congr 1
      omega
    · rw [if_neg hmoved, if_neg (by omega)]

theorem doInsertRange_returns (h : Insertable K s offset length)
    (hin : offset + length ≤ s.fileSize) : ∃ s', s.doInsertRange K offset length = some s' := by
  obtain ⟨s', hr, -⟩ := doInsertRange_stays K h.sized (.inr (.inr (.inr ⟨hin, h.fits⟩)))
  exact ⟨s', hr⟩

/-- An insertion that returns is right exactly if the shadow repeats its last bytes. -/
theorem inserted_iff (h : Insertable K s offset length)
    (hr : s.doInsertRange K offset length = some s') :
    Inserted s s' offset length ↔ Repeats s length := by
  obtain ⟨hin, hsize, hbytes⟩ := doInsertRange_spec h hr
  have hpos := h.pos
  constructor
  · intro hins i hi
    have hmoved := hins.moved (s.fileSize + i) (by omega) (by omega)
    rw [hbytes, if_neg (by omega), if_neg (by omega)] at hmoved
    rw [hmoved]
    congr 1
    omega
  · intro hrep
    refine ⟨hsize, fun i hi => ?_, fun i h1 h2 => ?_, fun i h1 h2 => ?_⟩
    · rw [hbytes, if_neg (by omega), if_neg (by omega)]
    · rw [hbytes, if_pos ⟨h1, h2⟩]
    · rw [hbytes, if_neg (by omega)]
      by_cases hold : i < s.fileSize
      · rw [if_pos ⟨h1, hold⟩]
      · rw [if_neg (by omega)]
        have := hrep (i - s.fileSize) (by omega)
        rw [show s.fileSize + (i - s.fileSize) = i by omega] at this
        rw [this]
        congr 1
        omega

/-- **When an insertion is right.** It returns where its range lies inside the shadow file. -/
theorem doInsertRange_iff (h : Insertable K s offset length) :
    ((∃ s', s.doInsertRange K offset length = some s' ∧ Inserted s s' offset length) ↔
      offset + length ≤ s.fileSize ∧ Repeats s length) ∧
    ((∀ s', s.doInsertRange K offset length = some s' → Inserted s s' offset length) ↔
      (offset + length ≤ s.fileSize → Repeats s length)) := by
  refine ⟨⟨?_, ?_⟩, ⟨?_, ?_⟩⟩
  · rintro ⟨s', hr, hins⟩
    exact ⟨(doInsertRange_spec h hr).1, (inserted_iff h hr).mp hins⟩
  · rintro ⟨hin, hrep⟩
    obtain ⟨s', hr⟩ := doInsertRange_returns h hin
    exact ⟨s', hr, (inserted_iff h hr).mpr hrep⟩
  · intro hall hin
    obtain ⟨s', hr⟩ := doInsertRange_returns h hin
    exact (inserted_iff h hr).mp (hall s' hr)
  · intro hrep s' hr
    exact (inserted_iff h hr).mpr (hrep (doInsertRange_spec h hr).1)

/-- A file of two blocks of bytes `b`, with room for two more. -/
def twoBlocks (b : UInt8) : Fsx Bytes :=
  { initial { flen := 16384, oplen := 4096 } (List.replicate 8192 b) 4096 (fun _ => 0) (fun _ => true)
      (List.replicate 8192 b ++ List.replicate 8201 0) with fileSize := 8192 }

theorem fileSize_twoBlocks (b : UInt8) : (twoBlocks b).fileSize = 8192 := rfl

theorem maxfilelen_twoBlocks (b : UInt8) : (twoBlocks b).maxfilelen = 16384 := rfl

theorem byteAt_twoBlocks (b : UInt8) (i : Nat) :
    byteAt (twoBlocks b).goodBuf i = if i < 8192 then b else 0 := by
  change byteAt (List.replicate 8192 b ++ List.replicate 8201 0) i = _
  rw [byteAt_append, byteAt_replicate_zero, List.length_replicate]
  by_cases hi : i < 8192
  · rw [if_pos hi, if_pos hi, byteAt_of_lt (by rw [List.length_replicate]; exact hi),
      List.getElem_replicate]
  · rw [if_neg hi, if_neg hi]

theorem insertable_twoBlocks (b : UInt8) : Insertable ramFile (twoBlocks b) 0 4096 where
  sized := by
    have hlen : (twoBlocks b).goodBuf.length = 16393 := by
      change (List.replicate 8192 b ++ List.replicate 8201 0).length = _
      rw [List.length_append, List.length_replicate, List.length_replicate]
    have horiginal : (twoBlocks b).originalBuf.length = 16384 := by
      rw [twoBlocks, initial, List.length_map, List.length_range]
    refine ⟨?_, horiginal, ?_, ?_⟩
    · rw [hlen, maxfilelen_twoBlocks]
      omega
    · rw [hlen, isizeMax]
      omega
    · rw [fileSize_twoBlocks, maxfilelen_twoBlocks]
      omega
  inside := by rw [fileSize_twoBlocks]; omega
  pos := by omega
  fits := by rw [fileSize_twoBlocks, maxfilelen_twoBlocks]; omega
  accepted href := by
    obtain ⟨e, he⟩ := href _ rfl
    cases he

/-- Where the file ends in zeros an insertion is right. -/
theorem inserted_zeros : ∃ s', (twoBlocks 0).doInsertRange ramFile 0 4096 = some s' ∧
    Inserted (twoBlocks 0) s' 0 4096 :=
  (doInsertRange_iff (insertable_twoBlocks 0)).1.mpr ⟨by rw [fileSize_twoBlocks]; omega, fun i _ => by
    rw [byteAt_twoBlocks, byteAt_twoBlocks, ite_self, ite_self]⟩

/-- The last block of ones is lost. -/
theorem last_block_lost : ∃ s', (twoBlocks 1).doInsertRange ramFile 0 4096 = some s' ∧
    s'.fileSize = 12288 ∧ byteAt s'.goodBuf 8192 = 0 ∧ byteAt (twoBlocks 1).goodBuf (8192 - 4096) = 1 ∧
    ¬ Inserted (twoBlocks 1) s' 0 4096 := by
  have h := insertable_twoBlocks 1
  obtain ⟨s', hr⟩ := doInsertRange_returns h (by rw [fileSize_twoBlocks]; omega)
  obtain ⟨-, hsize, hbytes⟩ := doInsertRange_spec h hr
  have hfs : (twoBlocks 1).fileSize = 8192 := rfl
  have hlast : byteAt s'.goodBuf 8192 = 0 := by
    rw [hbytes, if_neg (by omega), if_neg (by omega), byteAt_twoBlocks, if_neg (by omega)]
  have hold : byteAt (twoBlocks 1).goodBuf (8192 - 4096) = 1 := by
    rw [byteAt_twoBlocks, if_pos (by omega)]
  refine ⟨s', hr, hsize, hlast, hold, fun hins => ?_⟩
  have hmoved := hins.moved 8192 (by omega) (by omega)
  rw [hlast, hold] at hmoved
  cases hmoved

/-! ## Preallocation -/

/-- The mode of a preallocation. -/
def preallocMode (keepSize unshare : Bool) : Nat :=
  (if keepSize then fallocFlKeepSize else 0) ||| (if unshare then fallocFlUnshareRange else 0)

/-- A file system that preallocates as documented: the file grows with zeros to the end of the range,
or with `keepSize` not at all. -/
structure PreallocSemantics (K : Kernel σ) (contents : σ → Bytes) : Prop where
  grows : ∀ fd unshare off len, 0 < len →
    ∃ fd', K.fallocate fd (preallocMode false unshare) off len = .ok fd' ∧
      contents fd' = resize (contents fd) (max (contents fd).length (off + len))
  keeps : ∀ fd unshare off len, 0 < len →
    ∃ fd', K.fallocate fd (preallocMode true unshare) off len = .ok fd' ∧
      contents fd' = contents fd

/-- The shadow equals the file. -/
def Equal (contents : σ → Bytes) (s : Fsx σ) : Prop :=
  Mirrors (contents s.fd) s.goodBuf s.fileSize

/-- The offset and the size that a preallocation is clipped to. -/
def clip (s : Fsx σ) (offset size : Nat) : Nat × Nat :=
  (min offset s.maxfilelen, min size (s.maxfilelen - min offset s.maxfilelen))

/-- The shadow after a preallocation that ends at `e`. -/
structure Preallocated (s s' : Fsx σ) (e : Nat) : Prop where
  fileSize : s'.fileSize = max s.fileSize e
  bytes : ∀ i < s'.fileSize, byteAt s'.goodBuf i = if i < s.fileSize then byteAt s.goodBuf i else 0

/-- **What a preallocation does.** The shadow grows whatever the flags are, and a simulated one leaves
the file alone. -/
theorem doPreallocate_spec {contents : σ → Bytes} (hK : PreallocSemantics K contents) (hs : s.Sized)
    (offset size : Nat) (keepSize unshare : Bool) (hn : (s.clip offset size).2 ≠ 0) :
    ∃ s', s.doPreallocate K offset size keepSize unshare = some s' ∧
      Preallocated s s' ((s.clip offset size).1 + (s.clip offset size).2) ∧
      contents s'.fd = if s.testcalls ≤ s.a.simulatedopcount ∨ keepSize = true then contents s.fd
        else resize (contents s.fd)
          (max (contents s.fd).length ((s.clip offset size).1 + (s.clip offset size).2)) := by
  have hcap := hs.cap
  have hgood := hs.goodBuf
  have hfs := hs.fileSize
  simp only [clip] at hn ⊢
  simp only [doPreallocate]
  have ho : min offset s.maxfilelen ≤ s.maxfilelen := Nat.min_le_right ..
  generalize min offset s.maxfilelen = o at ho hn ⊢
  have hle : min size (s.maxfilelen - o) ≤ s.maxfilelen - o := Nat.min_le_right ..
  generalize min size (s.maxfilelen - o) = n at hle hn ⊢
  rw [if_neg hn, addU64_of (by unfold u64Size isizeMax at *; omega)]
  simp only [Option.bind_eq_bind, Option.bind_some]
  generalize (if keepSize = true then 0 else o + n) = fin
  have hsame : Same s ((s.raiseBiggest fin).log4 .fallocate o n false) :=
    (same_raiseBiggest s fin).trans (same_log5 ..)
  have hcalls : ((s.raiseBiggest fin).log4 .fallocate o n false).testcalls = s.testcalls := by
    unfold raiseBiggest
    split <;> rfl
  generalize (s.raiseBiggest fin).log4 .fallocate o n false = s₁ at hsame hcalls
  rw [← hsame.fd, ← hcalls, ← hsame.a]
  rw [← hsame.maxfilelen] at ho hle
  obtain ⟨buf, hgrow, -, hbytes⟩ :=
    growShadow_eq (hsame.sized hs) (show o + n ≤ s₁.maxfilelen by omega)
  have hp : ∀ {s' : Fsx σ}, s'.fileSize = max s₁.fileSize (o + n) → s'.goodBuf = buf →
      Preallocated s s' (o + n) := by
    intro s' hsize hbuf
    refine ⟨by rw [hsize, hsame.fileSize], fun i hi => ?_⟩
    rw [hbuf, hbytes i (hsize ▸ hi), hsame.fileSize, hsame.goodBuf]
  rw [hgrow]
  simp only [Option.bind_some]
  by_cases hsim : s₁.testcalls ≤ s₁.a.simulatedopcount
  · rw [if_pos hsim, if_pos (.inl hsim)]
    exact ⟨_, rfl, hp rfl rfl, rfl⟩
  · rw [if_neg hsim]
    cases keepSize with
    | true =>
      obtain ⟨fd', hcall, hcontents⟩ := hK.keeps s₁.fd unshare o n (by omega)
      rw [preallocMode] at hcall
      rw [hcall, if_pos (.inr rfl)]
      exact ⟨_, rfl, hp rfl rfl, hcontents⟩
    | false =>
      obtain ⟨fd', hcall, hcontents⟩ := hK.grows s₁.fd unshare o n (by omega)
      rw [preallocMode] at hcall
      rw [hcall, if_neg (by simp [hsim])]
      exact ⟨_, rfl, hp rfl rfl, hcontents⟩

/-- The preallocation ends in the shadow file, or makes it and the file grow. -/
def KeepsEqual (s : Fsx σ) (offset size : Nat) (keepSize : Bool) : Prop :=
  (s.clip offset size).2 = 0 ∨ (s.clip offset size).1 + (s.clip offset size).2 ≤ s.fileSize ∨
    (keepSize = false ∧ s.a.simulatedopcount < s.testcalls)

/-- **When a preallocation keeps the shadow equal to the file.** -/
theorem doPreallocate_iff {contents : σ → Bytes} (hK : PreallocSemantics K contents) (hs : s.Sized)
    (heq : Equal contents s) (offset size : Nat) (keepSize unshare : Bool) :
    (∃ s', s.doPreallocate K offset size keepSize unshare = some s' ∧ Equal contents s') ↔
      KeepsEqual s offset size keepSize := by
  by_cases hn : (s.clip offset size).2 = 0
  · -- Nothing is left of the range.
    have hskip : s.doPreallocate K offset size keepSize unshare =
        some (s.log4 .fallocate (min offset s.maxfilelen) 0 true) := by
      simp only [doPreallocate]
      exact if_pos hn
    exact ⟨fun _ => .inl hn, fun _ => ⟨_, hskip, heq⟩⟩
  obtain ⟨s', hr, hp, hfd⟩ := doPreallocate_spec hK hs offset size keepSize unshare hn
  rw [KeepsEqual, hr]
  generalize (s.clip offset size).1 + (s.clip offset size).2 = e at hp hfd ⊢
  simp only [Option.some.injEq, exists_eq_left', hn, false_or]
  have hlen := heq.length
  by_cases hgrows : s.testcalls ≤ s.a.simulatedopcount ∨ keepSize = true
  · rw [if_pos hgrows] at hfd
    constructor
    · intro h
      have hsize := h.length
      rw [hfd, hlen, hp.fileSize] at hsize
      exact .inl (by omega)
    · rintro (hle | ⟨hkeep, hcalls⟩)
      · refine ⟨by rw [hfd, hlen, hp.fileSize]; omega, fun i hi => ?_⟩
        rw [hp.bytes i hi, hfd]
        rw [hp.fileSize] at hi
        rw [if_pos (by omega)]
        exact heq.bytes i (by omega)
      · rcases hgrows with hsim | htrue
        · omega
        · rw [hkeep] at htrue
          cases htrue
  · rw [if_neg hgrows, hlen] at hfd
    obtain ⟨hsim, hkeep⟩ := not_or.mp hgrows
    refine ⟨fun _ => .inr ⟨by simpa using hkeep, by omega⟩, fun _ => ?_⟩
    rw [Equal, hfd, hp.fileSize]
    refine heq.resize (fun i hi => ?_) fun i h1 h2 => ?_
    · rw [hp.bytes i (by rw [hp.fileSize]; omega), if_pos hi]
    · rw [hp.bytes i (by rw [hp.fileSize]; omega), if_neg (by omega)]

theorem ramFile_preallocates : PreallocSemantics ramFile id where
  grows fd unshare off len _ := by
    cases unshare <;> exact ⟨_, rfl, rfl⟩
  keeps fd unshare off len _ := by
    cases unshare <;> exact ⟨_, rfl, rfl⟩

/-- The start of a run on an empty file. -/
def emptyFile : Fsx Bytes :=
  initial { flen := 16, oplen := 8 } [] 4096 (fun _ => 0) (fun _ => true) (List.replicate 25 0)

theorem sized_emptyFile : emptyFile.Sized := ⟨by decide, by decide, by decide, by decide⟩

theorem equal_emptyFile : Equal id emptyFile := ⟨rfl, fun _ hi => absurd hi (Nat.not_lt_zero _)⟩

/-- The first operation of a run makes both grow. -/
theorem preallocated_grows : ∃ s', { emptyFile with testcalls := 1 }.doPreallocate ramFile 4 4 false true =
    some s' ∧ Equal id s' :=
  (doPreallocate_iff (s := { emptyFile with testcalls := 1 }) ramFile_preallocates
    ⟨sized_emptyFile.goodBuf, sized_emptyFile.originalBuf, sized_emptyFile.cap, sized_emptyFile.fileSize⟩
    equal_emptyFile 4 4 false true).mpr (.inr (.inr ⟨rfl, by decide⟩))

/-- With `keepSize` only the shadow grows. -/
theorem keepSize_grows_shadow : ∃ s',
    { emptyFile with testcalls := 1 }.doPreallocate ramFile 4 4 true false = some s' ∧
    s'.fd.length = 0 ∧ s'.fileSize = 8 ∧ ¬ Equal id s' := by
  obtain ⟨s', hr, hp, hfd⟩ := doPreallocate_spec (s := { emptyFile with testcalls := 1 })
    ramFile_preallocates
    ⟨sized_emptyFile.goodBuf, sized_emptyFile.originalBuf, sized_emptyFile.cap, sized_emptyFile.fileSize⟩
    4 4 true false (by decide)
  rw [if_pos (.inr rfl)] at hfd
  have hlen : s'.fd.length = 0 := congrArg List.length hfd
  have hsize : s'.fileSize = 8 := hp.fileSize
  refine ⟨s', hr, hlen, hsize, fun heq => ?_⟩
  have := heq.length
  rw [hsize] at this
  exact absurd (hlen.symm.trans this) (by decide)

end Fstest.Fsx
