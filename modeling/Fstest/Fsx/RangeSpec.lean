import Fstest.Fsx.Spec

/-!
# What the range operations of fsx do

`Safe` for the mapped read, truncate and the operations on ranges (punch, zero, collapse, clone,
copy), and `Stays` for `doPreallocate` and `doInsertRange`. An insertion keeps the buffers only
where the range lies inside the shadow file and the grown file still fits (`doInsertRange_stays`).
-/

namespace Fstest.Fsx

variable {σ : Type} {K : Kernel σ} {s : Fsx σ}

/-- The scan past the end of the file starts below the bytes that were asked for, and those lie in
the file: it finds nothing. -/
theorem checkPastEof_same {base mapSize : Nat} (h : base + mapSize ≤ s.fileSize) :
    s.checkPastEof K base mapSize = s := by
  unfold checkPastEof
  have hnone : ((List.range mapSize).drop (s.fileSize &&& s.pageMask)).find? (fun i =>
      s.fileSize - base ≤ i && K.load s.fd (base + i) != 0) = none := by
    rw [List.find?_eq_none]
    intro i hi
    have := List.mem_range.mp (List.mem_of_mem_drop hi)
    simp only [Bool.and_eq_true, decide_eq_true_eq]
    omega
  rw [hnone]

theorem domapread_safe (K : Kernel σ) (hs : s.Sized) {offset size : Nat}
    (h : offset + size ≤ s.maxfilelen) : Safe K s (s.domapread K offset size) := by
  have hcap := hs.cap
  have hgood := hs.goodBuf
  have hoff := Nat.sub_le offset (offset % max s.a.readbdy 1)
  simp only [domapread]
  generalize offset - offset % max s.a.readbdy 1 = o at hoff ⊢
  by_cases hz : size = 0
  · rw [if_pos hz]; exact safe_log5 hs ..
  rw [if_neg hz, addU64_of (by unfold u64Size isizeMax at *; omega)]
  simp only [Option.bind_eq_bind, Option.bind_some]
  by_cases hend : s.fileSize < o + size
  · rw [if_pos hend]; exact safe_log5 hs ..
  rw [if_neg hend]
  have hsame : Same s (s.log4 .mapRead o size false) := same_log5 ..
  generalize s.log4 .mapRead o size false = s₁ at hsame
  rw [← hsame.fileSize] at hend
  refine Safe.of_same hs hsame ?_
  replace hs := hsame.sized hs
  have hk : Keeps s₁ s₁ := ⟨rfl, rfl, rfl, rfl, hs.fileSize⟩
  have hpg : o &&& s₁.pageMask ≤ o := Nat.and_le_left
  cases hmap : K.mmap s₁.fd ((o &&& s₁.pageMask) + size) (o - (o &&& s₁.pageMask)) with
  | error e =>
    refine safe_fail hk fun contents hK hl => ?_
    rw [hK.mmap _ _ _ (by omega)] at hmap
    cases hmap
  | ok u =>
    simp only []
    rw [checkPastEof_same (by omega), ite_self]
    refine checkBuffers_safe hs hk rfl (by simp) (by omega) fun contents hK hl =>
      ⟨hl.ok, hl.mirrors, ?_⟩
    rw [show o - (o &&& s₁.pageMask) + (o &&& s₁.pageMask) = o by omega]
    exact loaded_eq hK (by rw [hl.mirrors.length]; omega)

theorem dotruncate_safe (K : Kernel σ) (hs : s.Sized) {size : Nat}
    (h : size - size % max s.a.truncbdy 1 ≤ s.maxfilelen) : Safe K s (s.dotruncate K size) := by
  simp only [dotruncate]
  generalize size - size % max s.a.truncbdy 1 = n at h ⊢
  have hsame : Same s ((s.raiseBiggest n).log4 .truncate 0 n false) :=
    (same_raiseBiggest s n).trans (same_log5 ..)
  generalize (s.raiseBiggest n).log4 .truncate 0 n false = s₁ at hsame
  refine Safe.of_same hs hsame ?_
  rw [← hsame.maxfilelen] at h
  replace hs := hsame.sized hs
  obtain ⟨fd₂, hpol, hclean⟩ : ∃ fd, (if n < s₁.fileSize then s₁.polluteEofpage K s₁.maxfilelen
      else some s₁) = some { s₁ with fd } ∧ (s₁.a.polluteEof = false → fd = s₁.fd) := by
    split
    · exact polluteEofpage_eq K hs
    · exact ⟨s₁.fd, rfl, fun _ => rfl⟩
  simp only [Option.bind_eq_bind]
  rw [hpol]
  simp only [Option.bind_some]
  refine Safe.of_polluted hclean ?_
  have hs₂ : ({ s₁ with fd := fd₂ } : Fsx σ).Sized := ⟨hs.goodBuf, hs.originalBuf, hs.cap, hs.fileSize⟩
  have hn : n ≤ ({ s₁ with fd := fd₂ } : Fsx σ).maxfilelen := h
  generalize ({ s₁ with fd := fd₂ } : Fsx σ) = s₂ at hs₂ hn
  have hgood := hs₂.goodBuf
  rw [updateFileSize_eq (by omega) hs₂.cap]
  simp only [Option.bind_some, Nat.add_zero]
  have hlen : (s₂.gapBuf n).length = s₂.goodBuf.length := length_gapBuf (by omega)
  have hworks : Works K s₂ (K.ftruncate s₂.fd n) (resize · n) := fun _ hK _ => hK.ftruncate s₂.fd n
  cases htr : K.ftruncate s₂.fd n with
  | error e => exact hworks.refused htr ⟨rfl, rfl, rfl, hlen, hn⟩
  | ok fd =>
    refine hworks.followed htr ⟨rfl, rfl, rfl, hlen, hn⟩ rfl rfl fun B hm => ?_
    refine hm.resize (fun i hi => ?_) fun i h1 h2 => ?_
    · rw [byteAt_gapBuf (by omega), if_neg (by omega)]
    · rw [byteAt_gapBuf (by omega), if_pos ⟨h1, h2⟩]

/-! ## Punched and zeroed ranges -/

/-- A truncate past the maximum panics or leaves the shadow file there. -/
theorem dotruncate_unfit (hs : s.Sized) {size : Nat}
    (h : s.maxfilelen < size - size % max s.a.truncbdy 1) (hr : s.dotruncate K size = some s') :
    s'.maxfilelen < s'.fileSize := by
  have hfs := hs.fileSize
  simp only [dotruncate] at hr
  generalize size - size % max s.a.truncbdy 1 = n at h hr
  have hsame : Same s ((s.raiseBiggest n).log4 .truncate 0 n false) :=
    (same_raiseBiggest s n).trans (same_log5 ..)
  generalize (s.raiseBiggest n).log4 .truncate 0 n false = s₁ at hsame hr
  rw [← hsame.fileSize] at hfs
  rw [← hsame.maxfilelen] at h hfs
  simp only [updateFileSize, Option.bind_eq_bind] at hr
  rw [if_neg (by omega)] at hr
  simp only [Option.bind_some] at hr
  rw [if_pos (by omega)] at hr
  simp only [Option.bind_eq_some_iff, addU64_eq_some, Nat.add_zero] at hr
  obtain ⟨s₂, ⟨buf, -, n', ⟨-, rfl⟩, hs₂⟩, hr⟩ := hr
  cases hs₂
  split at hr
  · cases hr
    unfold fail
    split <;> exact h
  · cases hr
    exact h


theorem byteAt_zeroed (buf : Bytes) {o e : Nat} (ho : o ≤ e) (he : e ≤ buf.length) (i : Nat) :
    byteAt (patch buf o (List.replicate (e - o) 0)) i =
      if o ≤ i ∧ i < e then 0 else byteAt buf i := by
  rw [byteAt_patch (by simp; omega), byteAt_replicate_zero]
  congr 1
  simp only [List.length_replicate, eq_iff_iff]
  omega

theorem doPunchHole_safe (K : Kernel σ) (hs : s.Sized) (offset length : Nat) :
    Safe K s (s.doPunchHole K offset length) := by
  have hcap := hs.cap
  have hgood := hs.goodBuf
  have hfs := hs.fileSize
  simp only [doPunchHole]
  by_cases hz : length = 0 ∨ s.fileSize ≤ offset
  · rw [if_pos hz]; exact safe_log5 hs ..
  rw [if_neg hz]
  have hsame : Same s (s.log4 .punchHole offset length false) := same_log5 ..
  generalize s.log4 .punchHole offset length false = s₁ at hsame
  refine Safe.of_same hs hsame ?_
  rw [← hsame.fileSize] at hz hfs
  rw [← hsame.maxfilelen] at hfs hgood
  rw [← hsame.goodBuf] at hgood hcap
  replace hs := hsame.sized hs
  have hle : min length (s₁.fileSize - offset) ≤ s₁.fileSize - offset := Nat.min_le_right ..
  generalize hn : min length (s₁.fileSize - offset) = n at hle ⊢
  rw [if_neg (by omega), Nat.min_eq_left (show offset ≤ s₁.fileSize by omega)]
  have hworks : Works K s₁ (K.fallocate s₁.fd (fallocFlPunchHole ||| fallocFlKeepSize) offset n)
      (zeroRange · offset n) := fun _ hK _ => hK.punchHole s₁.fd offset n (by omega)
  cases hcall : K.fallocate s₁.fd (fallocFlPunchHole ||| fallocFlKeepSize) offset n with
  | error e => exact hworks.refused hcall ⟨rfl, rfl, rfl, rfl, hfs⟩
  | ok fd =>
    simp only []
    rw [addU64_of (by unfold u64Size isizeMax at *; omega)]
    simp only [Option.bind_eq_bind, Option.bind_some]
    rw [if_pos (by omega), fillRange_of (by omega) (by omega)]
    refine hworks.followed hcall ⟨rfl, rfl, rfl, length_patch (by simp; omega), hfs⟩ rfl rfl
      fun B hm => hm.zeroRange (fun i hi h1 h2 => ?_) fun i hi hout => ?_
    · rw [byteAt_zeroed _ (by omega) (by omega), if_pos ⟨h1, h2⟩]
    · rw [byteAt_zeroed _ (by omega) (by omega), if_neg (by omega)]

/-- The shadow of a zeroing operation that grows the file: zeros in the gap and in the range. -/
theorem mirrors_zeroed {F : Bytes} {o len : Nat} (hm : Mirrors F s.goodBuf s.fileSize)
    (h : o + len ≤ s.goodBuf.length) :
    Mirrors (overwrite F o (List.replicate len 0))
      (patch (s.gapBuf o) o (List.replicate (o + len - o) 0)) (max s.fileSize (o + len)) := by
  have hlen : (s.gapBuf o).length = s.goodBuf.length := length_gapBuf (by omega)
  have hbuf := fun i => byteAt_zeroed (s.gapBuf o) (Nat.le_add_right o len) (by omega) i
  have := hm.overwrite (patch (s.gapBuf o) o (List.replicate (o + len - o) 0))
    (List.replicate len 0) o
    (fun i hi => by
      simp only [List.length_replicate] at hi
      rw [hbuf, if_pos (by omega), byteAt_replicate_zero])
    (fun i hi hout => by
      simp only [List.length_replicate] at hout
      rw [hbuf, if_neg (by omega), byteAt_gapBuf (by omega), if_neg (by omega)])
    (fun i h1 h2 => by rw [hbuf, if_neg (by omega), byteAt_gapBuf (by omega), if_pos ⟨h1, h2⟩])
  rwa [List.length_replicate] at this

/-- The end of a call that writes zeros: the shadow grows to the range, and is filled if the call succeeds. -/
theorem zeroed_safe (K : Kernel σ) (hs : s.Sized) {offset length : Nat} (hpos : 0 < length)
    (h : offset + length ≤ s.maxfilelen) (call : σ → Except IoError σ) (msg : IoError → String)
    (hworks : Works K s (call s.fd) (overwrite · offset (List.replicate length 0))) :
    Safe K s ((s.growTo offset length (offset + length)).bind fun s =>
      match call s.fd with
      | .error e => some (s.fail (msg e))
      | .ok fd => (fillRange s.goodBuf offset (offset + length) 0).bind fun goodBuf =>
          some { s with fd, goodBuf }) := by
  have hcap := hs.cap
  have hgood := hs.goodBuf
  have hfs := hs.fileSize
  have hlen : (s.gapBuf offset).length = s.goodBuf.length := length_gapBuf (by omega)
  rw [growTo_eq (by omega) hcap]
  simp only [Option.bind_some]
  cases hcall : call s.fd with
  | error e =>
    exact hworks.refused hcall (keeps_grown hs (e := offset + length) h hlen rfl rfl rfl rfl rfl)
  | ok fd =>
    simp only []
    rw [fillRange_of (by omega) (by omega)]
    exact hworks.followed hcall (keeps_grown hs (e := offset + length) h
      ((length_patch (by simp; omega)).trans hlen) rfl rfl rfl rfl rfl) rfl rfl
      fun B hm => mirrors_zeroed hm (by omega)

theorem doZeroRange_safe (K : Kernel σ) (hs : s.Sized) {offset length : Nat} (keepSize : Bool)
    (h : offset + length ≤ s.maxfilelen) : Safe K s (s.doZeroRange K offset length keepSize) := by
  have hcap := hs.cap
  have hgood := hs.goodBuf
  simp only [doZeroRange]
  by_cases hz : length = 0
  · rw [if_pos hz]; exact safe_log5 hs ..
  rw [if_neg hz, addU64_of (by unfold u64Size isizeMax at *; omega)]
  simp only [Option.bind_eq_bind, Option.bind_some]
  generalize (if keepSize = true then 0 else offset + length) = fin
  have hsame : Same s ((s.raiseBiggest fin).log4 .zeroRange offset length false) :=
    (same_raiseBiggest s fin).trans (same_log5 ..)
  generalize (s.raiseBiggest fin).log4 .zeroRange offset length false = s₁ at hsame
  refine Safe.of_same hs hsame ?_
  rw [← hsame.maxfilelen] at h hgood
  rw [← hsame.goodBuf] at hgood hcap
  replace hs := hsame.sized hs
  have hfs := hs.fileSize
  cases keepSize with
  | true =>
    simp only [if_true, Option.bind_some]
    have hworks : Works K s₁
        (K.fallocate s₁.fd (fallocFlZeroRange ||| fallocFlKeepSize) offset length)
        (zeroRange · offset length) := fun _ hK _ => hK.zeroRangeKeep s₁.fd offset length (by omega)
    cases hcall : K.fallocate s₁.fd (fallocFlZeroRange ||| fallocFlKeepSize) offset length with
    | error e => exact hworks.refused hcall ⟨rfl, rfl, rfl, rfl, hfs⟩
    | ok fd =>
      simp only []
      rw [fillRange_of (by omega) (by omega)]
      refine hworks.followed hcall ⟨rfl, rfl, rfl, length_patch (by simp; omega), hfs⟩ rfl rfl
        fun B hm => hm.zeroRange (fun i hi h1 h2 => ?_) fun i hi hout => ?_
      · rw [byteAt_zeroed _ (by omega) (by omega), if_pos ⟨h1, h2⟩]
      · rw [byteAt_zeroed _ (by omega) (by omega), if_neg (by omega)]
  | false =>
    simp only [Bool.false_eq_true, if_false]
    refine zeroed_safe K hs (by omega) h (K.fallocate · fallocFlZeroRange offset length) _ ?_
    exact fun _ hK _ => hK.zeroRange s₁.fd offset length (by omega)

theorem doWriteZeroes_safe (K : Kernel σ) (hs : s.Sized) {offset length : Nat}
    (h : offset + length ≤ s.maxfilelen) : Safe K s (s.doWriteZeroes K offset length) := by
  have hcap := hs.cap
  have hgood := hs.goodBuf
  simp only [doWriteZeroes]
  by_cases hz : length = 0
  · rw [if_pos hz]; exact safe_log5 hs ..
  rw [if_neg hz, addU64_of (by unfold u64Size isizeMax at *; omega)]
  simp only [Option.bind_eq_bind, Option.bind_some]
  have hsame : Same s ((s.raiseBiggest (offset + length)).log4 .writeZeroes offset length false) :=
    (same_raiseBiggest s _).trans (same_log5 ..)
  generalize (s.raiseBiggest (offset + length)).log4 .writeZeroes offset length false = s₁ at hsame
  refine Safe.of_same hs hsame ?_
  rw [← hsame.maxfilelen] at h
  refine zeroed_safe K (hsame.sized hs) (by omega) h (K.fallocate · fallocFlWriteZeroes offset length) _ ?_
  exact fun _ hK _ => hK.writeZeroes s₁.fd offset length (by omega)

/-! ## Moved ranges -/

theorem doCollapseRange_safe (K : Kernel σ) (hs : s.Sized) {offset length : Nat}
    (h : offset + length ≤ s.maxfilelen) (ho : blockSize ∣ offset) (hl : blockSize ∣ length) :
    Safe K s (s.doCollapseRange K offset length) := by
  have hcap := hs.cap
  have hgood := hs.goodBuf
  simp only [doCollapseRange]
  by_cases hz : length = 0
  · rw [if_pos hz]; exact safe_log5 hs ..
  rw [if_neg hz, addU64_of (by unfold u64Size isizeMax at *; omega)]
  simp only [Option.bind_eq_bind, Option.bind_some]
  by_cases hend : s.fileSize ≤ offset + length
  · rw [if_pos hend]; exact safe_log5 hs ..
  rw [if_neg hend]
  have hsame : Same s (s.log4 .collapseRange offset length false) := same_log5 ..
  generalize s.log4 .collapseRange offset length false = s₁ at hsame
  refine Safe.of_same hs hsame ?_
  rw [← hsame.fileSize] at hend
  rw [← hsame.maxfilelen] at hgood
  rw [← hsame.goodBuf] at hgood hcap
  replace hs := hsame.sized hs
  obtain ⟨fd₂, hpol, hclean⟩ := polluteEofpage_eq K hs
  rw [hpol]
  refine Safe.of_polluted hclean ?_
  simp only [Option.bind_some]
  have hfs := hs.fileSize
  have hworks : Works K { s₁ with fd := fd₂ } (K.fallocate fd₂ fallocFlCollapseRange offset length)
      (removeRange · offset length) := fun _ hK hl' =>
    hK.collapseRange fd₂ offset length (by omega) ho hl
      (by have := hl'.mirrors.length; simp only at this; omega)
  cases hcall : K.fallocate fd₂ fallocFlCollapseRange offset length with
  | error e => exact hworks.refused hcall ⟨rfl, rfl, rfl, rfl, hfs⟩
  | ok fd =>
    simp only []
    have hmove : ((s₁.goodBuf.drop (offset + length)).take
        (s₁.fileSize - (offset + length))).length = s₁.fileSize - (offset + length) :=
      length_drop_take (by omega)
    rw [copyWithin_of (by omega) (by omega) (by omega)]
    simp only [Option.bind_some]
    rw [subU64_of (by omega)]
    refine hworks.followed hcall ⟨rfl, rfl, rfl, length_patch (by omega), by simp only []; omega⟩
      rfl rfl fun B hm => ?_
    refine hm.removeRange (by simp only []; omega) (fun i hi => ?_) fun i h1 h2 => ?_
    · rw [byteAt_patch (by omega), if_neg (by omega)]
    · simp only [] at h2
      rw [byteAt_patch (by omega), if_pos (by omega), byteAt_drop_take, if_pos (by omega)]
      congr 1; omega

/-- The shadow of a copied range: zeros in the gap, the source bytes at the destination. -/
theorem mirrors_copied {F : Bytes} {src len dest : Nat} (hm : Mirrors F s.goodBuf s.fileSize)
    (hsrc : src + len ≤ s.fileSize) (hfs : s.fileSize ≤ s.goodBuf.length)
    (hdest : dest + len ≤ s.goodBuf.length) :
    Mirrors (overwrite F dest ((F.drop src).take len))
      (patch (s.gapBuf dest) dest (((s.gapBuf dest).drop src).take (src + len - src)))
      (max s.fileSize (dest + len)) := by
  have hgl : (s.gapBuf dest).length = s.goodBuf.length := length_gapBuf (by omega)
  have hFl : F.length = s.fileSize := hm.length
  have hlen : (((s.gapBuf dest).drop src).take (src + len - src)).length = len := by
    simp; omega
  have hdl : ((F.drop src).take len).length = len := by simp; omega
  have := hm.overwrite
    (patch (s.gapBuf dest) dest (((s.gapBuf dest).drop src).take (src + len - src)))
    ((F.drop src).take len) dest
    (fun i hi => by
      rw [byteAt_patch (by omega), if_pos (by omega), byteAt_drop_take, if_pos (by omega),
        byteAt_drop_take, if_pos (by omega), byteAt_gapBuf (by omega), if_neg (by omega),
        hm.bytes _ (by omega)]
      congr 1; omega)
    (fun i hi hout => by
      rw [byteAt_patch (by omega), if_neg (by omega), byteAt_gapBuf (by omega), if_neg (by omega)])
    (fun i h1 h2 => by
      rw [byteAt_patch (by omega), if_neg (by omega), byteAt_gapBuf (by omega), if_pos ⟨h1, h2⟩])
  rwa [hdl] at this

/-- The end of a clone or a copy: the shadow grows to the destination, and follows if the call succeeds. -/
theorem copied_safe (K : Kernel σ) (hs : s.Sized) {src length dest : Nat} (hpos : 0 < length)
    (hsrc : src + length ≤ s.fileSize) (hdest : dest + length ≤ s.maxfilelen)
    (call : σ → Except IoError σ) (msg : IoError → String)
    (hworks : Works K s (call s.fd) (fun B => overwrite B dest ((B.drop src).take length))) :
    Safe K s ((s.growTo dest length (dest + length)).bind fun s =>
      match call s.fd with
      | .error e => some (s.fail (msg e))
      | .ok fd => (copyWithin s.goodBuf src (src + length) dest).bind fun goodBuf =>
          some { s with fd, goodBuf }) := by
  have hcap := hs.cap
  have hgood := hs.goodBuf
  have hfs := hs.fileSize
  have hlen : (s.gapBuf dest).length = s.goodBuf.length := length_gapBuf (by omega)
  rw [growTo_eq (by omega) hcap]
  simp only [Option.bind_some]
  cases hcall : call s.fd with
  | error e => exact hworks.refused hcall (keeps_grown hs hdest hlen rfl rfl rfl rfl rfl)
  | ok fd =>
    simp only []
    rw [copyWithin_of (by omega) (by omega) (by omega)]
    exact hworks.followed hcall (keeps_grown hs hdest ((length_patch (by simp; omega)).trans hlen)
      rfl rfl rfl rfl rfl) rfl rfl fun B hm => mirrors_copied hm hsrc (by omega) (by omega)

theorem doCloneRange_safe (K : Kernel σ) (hs : s.Sized) {src length dest : Nat}
    (hsrc : src + length ≤ s.fileSize) (hdest : dest + length ≤ s.maxfilelen)
    (hsa : blockSize ∣ src) (hla : blockSize ∣ length) (hda : blockSize ∣ dest)
    (hdisj : src + length ≤ dest ∨ dest + length ≤ src) :
    Safe K s (s.doCloneRange K src length dest) := by
  have hcap := hs.cap
  have hgood := hs.goodBuf
  simp only [doCloneRange]
  by_cases hz : length = 0 ∨ s.fileSize ≤ src
  · rw [if_pos hz]; exact safe_log5 hs ..
  rw [if_neg hz, addU64_of (by unfold u64Size isizeMax at *; omega)]
  simp only [Option.bind_eq_bind, Option.bind_some]
  have hsame : Same s ((s.raiseBiggest (dest + length)).log5 .cloneRange src length dest false) :=
    (same_raiseBiggest s _).trans (same_log5 ..)
  generalize (s.raiseBiggest (dest + length)).log5 .cloneRange src length dest false = s₁ at hsame
  refine Safe.of_same hs hsame ?_
  rw [← hsame.fileSize] at hsrc
  rw [← hsame.maxfilelen] at hdest
  refine copied_safe K (hsame.sized hs) (by omega) hsrc hdest (K.ficlonerange · src length dest) _ ?_
  exact fun _ hK hl =>
    hK.ficlonerange s₁.fd src length dest (by omega) hsa hla hda
      (by rw [hl.mirrors.length]; exact hsrc) hdisj

/-- However the kernel splits a copy between disjoint ranges, the source bytes end up at the
destination. -/
theorem copyAll_ok {contents : σ → Bytes} (hK : ByteSemantics K contents) (fd : σ)
    (src dest len : Nat) (hlen : 0 < len) (hsrc : src + len ≤ (contents fd).length)
    (hdisj : src + len ≤ dest ∨ dest + len ≤ src) :
    ∃ fd', copyAll K fd src dest len = .ok fd' ∧
      contents fd' = overwrite (contents fd) dest (((contents fd).drop src).take len) := by
  induction len using Nat.strongRecOn generalizing fd src dest with
  | ind len ih =>
    obtain ⟨n, fd₁, hcopy, hpos, hc⟩ := hK.copyFileRange fd src dest len hlen hsrc hdisj
    have hn := n.2
    rw [copyAll, if_neg (by omega), hcopy]
    simp only []
    rw [if_neg (by omega)]
    by_cases hall : n.1 = len
    · refine ⟨fd₁, ?_, by rw [hc, hall]⟩
      rw [copyAll, if_pos (by omega)]
    · have hnl : (((contents fd).drop src).take n.1).length = n.1 := by simp; omega
      have hdl : (((contents fd).drop src).take len).length = len := by simp; omega
      obtain ⟨fd₂, hcopy₂, hc₂⟩ := ih (len - n.1) (by omega) fd₁ (src + n.1)
        (dest + n.1) (by omega) (by rw [hc, length_overwrite]; omega) (by omega)
      refine ⟨fd₂, hcopy₂, ?_⟩
      -- The first part of the copy does not touch the rest of its source.
      rw [hc₂, hc, drop_take_overwrite (by omega) (by omega)]
      have hjoin := overwrite_take_drop (contents fd) dest
        (((contents fd).drop src).take len) (k := n.1) (by omega)
      rw [List.take_take, Nat.min_eq_left (by omega), List.drop_take, List.drop_drop] at hjoin
      exact hjoin

theorem doCopyRange_safe (K : Kernel σ) (hs : s.Sized) {src length dest : Nat}
    (hsrc : src + length ≤ s.fileSize) (hdest : dest + length ≤ s.maxfilelen)
    (hdisj : src + length ≤ dest ∨ dest + length ≤ src) :
    Safe K s (s.doCopyRange K src length dest) := by
  have hcap := hs.cap
  have hgood := hs.goodBuf
  simp only [doCopyRange]
  by_cases hz : length = 0 ∨ s.fileSize ≤ src
  · rw [if_pos hz]; exact safe_log5 hs ..
  rw [if_neg hz, addU64_of (by unfold u64Size isizeMax at *; omega)]
  simp only [Option.bind_eq_bind, Option.bind_some]
  have hsame : Same s ((s.raiseBiggest (dest + length)).log5 .copyRange src length dest false) :=
    (same_raiseBiggest s _).trans (same_log5 ..)
  generalize (s.raiseBiggest (dest + length)).log5 .copyRange src length dest false = s₁ at hsame
  refine Safe.of_same hs hsame ?_
  rw [← hsame.fileSize] at hsrc
  rw [← hsame.maxfilelen] at hdest
  refine copied_safe K (hsame.sized hs) (by omega) hsrc hdest (copyAll K · src dest length) _ ?_
  exact fun _ hK hl =>
    copyAll_ok hK s₁.fd src dest length (by omega) (by rw [hl.mirrors.length]; exact hsrc) hdisj

/-! ## The checks after an operation -/

theorem checkContents_safe (K : Kernel σ) (hs : s.Sized) : Safe K s (s.checkContents K) := by
  have hk : Keeps s s := ⟨rfl, rfl, rfl, rfl, hs.fileSize⟩
  unfold checkContents
  split
  · exact safe_same hs ⟨rfl, rfl, rfl, rfl, rfl, rfl, rfl⟩
  cases hread : preadAll K s.fd s.fileSize 0 with
  | error e =>
    refine safe_fail hk fun contents hK hl => ?_
    rw [preadAll_ok hK _ (by rw [hl.mirrors.length]; omega)] at hread
    cases hread
  | ok buf =>
    have hlen := length_preadAll K s.fd hread
    refine checkBuffers_safe hs hk rfl (Nat.le_refl _) (by omega) fun contents hK hl =>
      ⟨hl.ok, hl.mirrors, ?_⟩
    rw [preadAll_ok hK _ (by rw [hl.mirrors.length]; omega)] at hread
    cases hread
    rw [hlen]

theorem checkSize_safe (K : Kernel σ) (hs : s.Sized) : Safe K s (some (s.checkSize K)) := by
  have hk : Keeps s s := ⟨rfl, rfl, rfl, rfl, hs.fileSize⟩
  unfold checkSize
  cases hstat : K.fstatSize s.fd with
  | error e =>
    refine safe_fail hk fun contents hK hl => ?_
    rw [hK.fstatSize] at hstat
    cases hstat
  | ok n =>
    simp only []
    split
    · rename_i hne
      refine safe_fail hk fun contents hK hl => ?_
      rw [hK.fstatSize, hl.mirrors.length] at hstat
      cases hstat
      rw [hK.lseekEnd, hl.mirrors.length] at hne
      omega
    · exact safe_same hs ⟨rfl, rfl, rfl, rfl, rfl, rfl, rfl⟩

/-! ## Preallocation and insertion -/

/-- A preallocation that ends after the end of the shadow file grows it, with zeros. -/
theorem growShadow_eq (hs : s.Sized) {o n : Nat} (h : o + n ≤ s.maxfilelen) :
    ∃ buf, (if s.fileSize < o + n then
        (fillRange s.goodBuf s.fileSize (o + n) 0).bind fun goodBuf =>
          { s with goodBuf }.updateFileSize o n else some s) =
        some { s with goodBuf := buf, fileSize := max s.fileSize (o + n) } ∧
      buf.length = s.goodBuf.length ∧
      ∀ i < max s.fileSize (o + n),
        byteAt buf i = if i < s.fileSize then byteAt s.goodBuf i else 0 := by
  have hcap := hs.cap
  have hgood := hs.goodBuf
  have hfs := hs.fileSize
  by_cases hgrow : s.fileSize < o + n
  · let filled : Fsx σ :=
      { s with goodBuf := patch s.goodBuf s.fileSize (List.replicate (o + n - s.fileSize) 0) }
    have hlen : filled.goodBuf.length = s.goodBuf.length := length_patch (by simp; omega)
    rw [if_pos hgrow, fillRange_of (by omega) (by omega), Nat.max_eq_right (by omega)]
    refine ⟨filled.gapBuf o, updateFileSize_eq (s := filled) (by omega) (by omega),
      (length_gapBuf (by omega)).trans hlen, fun i hi => ?_⟩
    rw [byteAt_gapBuf (by omega), byteAt_zeroed _ (by omega) (by omega)]
    by_cases hold : i < s.fileSize
    · rw [if_neg (by simp only [filled]; omega), if_neg (by omega), if_pos hold]
    · rw [if_neg hold]
      split
      · rfl
      · rw [if_pos (by omega)]
  · rw [if_neg hgrow, Nat.max_eq_left (by omega)]
    refine ⟨s.goodBuf, rfl, rfl, fun i hi => ?_⟩
    rw [if_pos hi]

theorem doPreallocate_stays (K : Kernel σ) (hs : s.Sized) (offset size : Nat)
    (keepSize unshare : Bool) : Stays s (s.doPreallocate K offset size keepSize unshare) := by
  have hcap := hs.cap
  have hgood := hs.goodBuf
  have hfs := hs.fileSize
  simp only [doPreallocate]
  have ho : min offset s.maxfilelen ≤ s.maxfilelen := Nat.min_le_right ..
  generalize min offset s.maxfilelen = o at ho ⊢
  have hn : min size (s.maxfilelen - o) ≤ s.maxfilelen - o := Nat.min_le_right ..
  generalize min size (s.maxfilelen - o) = n at hn ⊢
  by_cases hz : n = 0
  · rw [if_pos hz]; exact (safe_log5 (K := K) hs ..).stays
  rw [if_neg hz, addU64_of (by unfold u64Size isizeMax at *; omega)]
  simp only [Option.bind_eq_bind, Option.bind_some]
  generalize (if keepSize = true then 0 else o + n) = fin
  have hsame : Same s ((s.raiseBiggest fin).log4 .fallocate o n false) :=
    (same_raiseBiggest s fin).trans (same_log5 ..)
  generalize (s.raiseBiggest fin).log4 .fallocate o n false = s₁ at hsame
  rw [← hsame.maxfilelen] at ho hn
  have hs₁ := hsame.sized hs
  obtain ⟨buf, hgrow, hbuf, -⟩ := growShadow_eq hs₁ (show o + n ≤ s₁.maxfilelen by omega)
  rw [hgrow]
  have hk₁ : Keeps s₁ { s₁ with goodBuf := buf, fileSize := max s₁.fileSize (o + n) } :=
    keeps_grown hs₁ (by omega) hbuf rfl rfl rfl rfl rfl
  have hk := (hsame.keeps hs).trans hk₁
  simp only [Option.bind_some]
  split
  · exact ⟨_, rfl, hk⟩
  split
  · exact ⟨_, rfl, keeps_fail hk _⟩
  · exact ⟨_, rfl, hk.a, hk.maxfilelen, hk.originalBuf, hk.goodBuf, hk.fileSize⟩

/-- The kernel turns the insertion down. -/
def InsertRefused (K : Kernel σ) (s : Fsx σ) (offset length : Nat) : Prop :=
  ∀ s', (s.log4 .insertRange offset length false).polluteEofpage K s.maxfilelen = some s' →
    ∃ e, K.fallocate s'.fd fallocFlInsertRange offset length = .error e

/-- An insertion keeps the buffers where it is skipped or refused, or where its range lies inside
the shadow file and the grown file fits. -/
theorem doInsertRange_stays (K : Kernel σ) (hs : s.Sized) {offset length : Nat}
    (h : length = 0 ∨ s.fileSize ≤ offset ∨ InsertRefused K s offset length ∨
      offset + length ≤ s.fileSize ∧ s.fileSize + length ≤ s.maxfilelen) :
    Stays s (s.doInsertRange K offset length) := by
  have hcap := hs.cap
  have hgood := hs.goodBuf
  have hfs := hs.fileSize
  simp only [doInsertRange]
  by_cases hz : length = 0 ∨ s.fileSize ≤ offset
  · rw [if_pos hz]; exact (safe_log5 (K := K) hs ..).stays
  rw [if_neg hz]
  replace h := (h.resolve_left fun h1 => hz (.inl h1)).resolve_left fun h1 => hz (.inr h1)
  unfold InsertRefused at h
  have hsame : Same s (s.log4 .insertRange offset length false) := same_log5 ..
  generalize s.log4 .insertRange offset length false = s₁ at hsame h ⊢
  have hk := hsame.keeps hs
  have hs₁ := hsame.sized hs
  rw [← hsame.fileSize, ← hsame.maxfilelen] at h
  rw [← hsame.fileSize, ← hsame.maxfilelen] at hfs
  rw [← hsame.maxfilelen, ← hsame.goodBuf] at hgood
  rw [← hsame.goodBuf] at hcap
  obtain ⟨fd₂, hpol, -⟩ := polluteEofpage_eq K hs₁
  simp only [Option.bind_eq_bind]
  rw [hpol]
  simp only [Option.bind_some]
  split
  · refine ⟨_, rfl, keeps_fail ?_ _⟩
    exact ⟨hk.a, hk.maxfilelen, hk.originalBuf, hk.goodBuf, hk.fileSize⟩
  rename_i fd hcall
  obtain ⟨hin, hfit⟩ := h.resolve_left fun hno => by
    obtain ⟨e, he⟩ := hno _ hpol
    rw [hcall] at he
    cases he
  rw [addU64_of (by unfold u64Size isizeMax at *; omega)]
  simp only [Option.bind_some]
  rw [subU64_of (by omega)]
  simp only [Option.bind_some]
  have hmove : ((s₁.goodBuf.drop offset).take (s₁.fileSize - length - offset)).length =
      s₁.fileSize - length - offset := length_drop_take (by omega)
  have hp : (patch s₁.goodBuf (offset + length)
      ((s₁.goodBuf.drop offset).take (s₁.fileSize - length - offset))).length =
      s₁.goodBuf.length := length_patch (by omega)
  rw [copyWithin_of (by omega) (by omega) (by omega)]
  simp only [Option.bind_some]
  rw [fillRange_of (by omega) (by omega)]
  simp only [Option.bind_some]
  rw [addU64_of (by unfold u64Size isizeMax at *; omega)]
  refine ⟨_, rfl, hk.a, hk.maxfilelen, hk.originalBuf, ?_, ?_⟩
  · exact ((length_patch (by simp; omega)).trans hp).trans hk.goodBuf
  · rw [← hk.maxfilelen]
    exact hfit

/-- Any other insertion panics or leaves the shadow file longer than the maximum. -/
theorem doInsertRange_unfit (hs : s.Sized) {offset length : Nat} (hz : length ≠ 0)
    (ho : offset < s.fileSize) (href : ¬ InsertRefused K s offset length)
    (hfit : ¬ (offset + length ≤ s.fileSize ∧ s.fileSize + length ≤ s.maxfilelen))
    (hr : s.doInsertRange K offset length = some s') : s'.maxfilelen < s'.fileSize := by
  simp only [doInsertRange] at hr
  rw [if_neg (by omega)] at hr
  have hsame : Same s (s.log4 .insertRange offset length false) := same_log5 ..
  unfold InsertRefused at href
  generalize s.log4 .insertRange offset length false = s₁ at hsame href hr
  rw [← hsame.fileSize] at hfit
  rw [← hsame.maxfilelen] at hfit href
  obtain ⟨fd₂, hpol, -⟩ := polluteEofpage_eq K (hsame.sized hs)
  simp only [hpol, Option.bind_eq_bind, Option.bind_some] at hr
  split at hr
  · rename_i e hcall
    exact absurd (fun s₂ h₂ => by rw [hpol] at h₂; cases h₂; exact ⟨e, hcall⟩) href
  simp only [Option.bind_eq_some_iff, addU64_eq_some, subU64_eq_some] at hr
  obtain ⟨e, ⟨-, rfl⟩, last, ⟨hle, rfl⟩, buf, hcopy, buf₂, -, n, ⟨-, rfl⟩, hs₂⟩ := hr
  -- The copy inside the shadow needs room for the whole range before the end of the file.
  have hin : offset ≤ s₁.fileSize - length := by
    unfold copyWithin at hcopy
    split at hcopy
    · rename_i h; exact h.1
    · cases hcopy
  cases hs₂
  simp only []
  omega

end Fstest.Fsx
