import Fstest.Fsx.Loop

/-!
# What one fsx operation does

Two properties of states carry the results about runs: `Sized` (the buffers have their sizes and
the shadow file fits in them) and `Lockstep` (the shadow equals the file, and no failure was
recorded). `Safe K s r` says of the result `r` of an operation on `s` that the operation does not
panic, keeps the buffers (`Keeps`), and keeps the lockstep on every kernel with the documented byte
semantics. There is one `_safe` lemma for each operation; `doPreallocate` and `doInsertRange` keep
the buffers only.
-/

namespace Fstest.Fsx

variable {σ : Type}

/-! ## The two properties -/

/-- The buffers have their sizes, and the shadow file fits in them. -/
structure Sized (s : Fsx σ) : Prop where
  goodBuf : s.maxfilelen ≤ s.goodBuf.length
  originalBuf : s.originalBuf.length = s.maxfilelen
  cap : s.goodBuf.length ≤ isizeMax
  fileSize : s.fileSize ≤ s.maxfilelen

/-- What every operation keeps. -/
structure Keeps (s s' : Fsx σ) : Prop where
  a : s'.a = s.a
  maxfilelen : s'.maxfilelen = s.maxfilelen
  originalBuf : s'.originalBuf = s.originalBuf
  goodBuf : s'.goodBuf.length = s.goodBuf.length
  fileSize : s'.fileSize ≤ s.maxfilelen

/-- The shadow equals the file and no failure was recorded, in a run that neither pollutes nor
injects. -/
structure Lockstep (contents : σ → Bytes) (s : Fsx σ) : Prop where
  mirrors : Mirrors (contents s.fd) s.goodBuf s.fileSize
  ok : s.failure = none
  clean : s.a.polluteEof = false
  honest : s.a.injectFailureAt = none

/-- The operation does not panic and keeps the buffers. -/
def Stays (s : Fsx σ) (r : Option (Fsx σ)) : Prop := ∃ s', r = some s' ∧ Keeps s s'

/-- The operation does not panic, keeps the buffers, and keeps the lockstep. -/
def Safe (K : Kernel σ) (s : Fsx σ) (r : Option (Fsx σ)) : Prop :=
  ∃ s', r = some s' ∧ Keeps s s' ∧ ∀ contents, ByteSemantics K contents → Lockstep contents s →
    Mirrors (contents s'.fd) s'.goodBuf s'.fileSize ∧ s'.failure = none

theorem Keeps.sized {s s' : Fsx σ} (hs : s.Sized) (h : Keeps s s') : s'.Sized where
  goodBuf := by rw [h.maxfilelen, h.goodBuf]; exact hs.goodBuf
  originalBuf := by rw [h.maxfilelen, h.originalBuf]; exact hs.originalBuf
  cap := by rw [h.goodBuf]; exact hs.cap
  fileSize := by rw [h.maxfilelen]; exact h.fileSize

theorem Keeps.trans {s s' s'' : Fsx σ} (h : Keeps s s') (h' : Keeps s' s'') : Keeps s s'' where
  a := h'.a.trans h.a
  maxfilelen := h'.maxfilelen.trans h.maxfilelen
  originalBuf := h'.originalBuf.trans h.originalBuf
  goodBuf := h'.goodBuf.trans h.goodBuf
  fileSize := by rw [← h.maxfilelen]; exact h'.fileSize

/-- A state that differs in its log, its counters or its random numbers only. -/
structure Same (s s' : Fsx σ) : Prop where
  a : s'.a = s.a
  fd : s'.fd = s.fd
  goodBuf : s'.goodBuf = s.goodBuf
  originalBuf : s'.originalBuf = s.originalBuf
  fileSize : s'.fileSize = s.fileSize
  maxfilelen : s'.maxfilelen = s.maxfilelen
  failure : s'.failure = s.failure

theorem Safe.stays {K : Kernel σ} {s : Fsx σ} {r : Option (Fsx σ)} (h : Safe K s r) : Stays s r :=
  let ⟨s', hr, hk, _⟩ := h
  ⟨s', hr, hk⟩

theorem Safe.lockstep {K : Kernel σ} {s : Fsx σ} {r : Option (Fsx σ)} (h : Safe K s r)
    {contents : σ → Bytes} (hK : ByteSemantics K contents) (hl : Lockstep contents s) :
    ∃ s', r = some s' ∧ Keeps s s' ∧ Lockstep contents s' := by
  obtain ⟨s', hr, hk, hl'⟩ := h
  obtain ⟨hm, hok⟩ := hl' contents hK hl
  exact ⟨s', hr, hk, hm, hok, by rw [hk.a]; exact hl.clean, by rw [hk.a]; exact hl.honest⟩

/-- Two safe operations, one after the other. -/
theorem Safe.bind {K : Kernel σ} {s : Fsx σ} {r : Option (Fsx σ)} {f : Fsx σ → Option (Fsx σ)}
    (h : Safe K s r) (hf : ∀ s', Keeps s s' → Safe K s' (f s')) : Safe K s (r.bind f) := by
  obtain ⟨s₁, rfl, hk₁, hl₁⟩ := h
  obtain ⟨s₂, hr₂, hk₂, hl₂⟩ := hf s₁ hk₁
  refine ⟨s₂, hr₂, hk₁.trans hk₂, fun contents hK hl => hl₂ contents hK ?_⟩
  obtain ⟨hm, hok⟩ := hl₁ contents hK hl
  exact ⟨hm, hok, by rw [hk₁.a]; exact hl.clean, by rw [hk₁.a]; exact hl.honest⟩

section

variable {K : Kernel σ} {s s' : Fsx σ}

theorem Same.keeps (h : Same s s') (hs : s.Sized) : Keeps s s' where
  a := h.a
  maxfilelen := h.maxfilelen
  originalBuf := h.originalBuf
  goodBuf := by rw [h.goodBuf]
  fileSize := by rw [h.fileSize]; exact hs.fileSize

theorem Same.sized (h : Same s s') (hs : s.Sized) : s'.Sized := (h.keeps hs).sized hs

theorem Same.trans {s'' : Fsx σ} (h : Same s s') (h' : Same s' s'') : Same s s'' where
  a := h'.a.trans h.a
  fd := h'.fd.trans h.fd
  goodBuf := h'.goodBuf.trans h.goodBuf
  originalBuf := h'.originalBuf.trans h.originalBuf
  fileSize := h'.fileSize.trans h.fileSize
  maxfilelen := h'.maxfilelen.trans h.maxfilelen
  failure := h'.failure.trans h.failure

theorem Same.lockstep (h : Same s s') {contents : σ → Bytes} (hl : Lockstep contents s) :
    Lockstep contents s' where
  mirrors := by rw [h.fd, h.goodBuf, h.fileSize]; exact hl.mirrors
  ok := h.failure.trans hl.ok
  clean := by rw [h.a]; exact hl.clean
  honest := by rw [h.a]; exact hl.honest

theorem same_log5 (s : Fsx σ) (op : Op) (a0 a1 a2 : Nat) (b : Bool) :
    Same s (s.log5 op a0 a1 a2 b) := ⟨rfl, rfl, rfl, rfl, rfl, rfl, rfl⟩

theorem same_raiseBiggest (s : Fsx σ) (fin : Nat) : Same s (s.raiseBiggest fin) := by
  unfold raiseBiggest
  split <;> exact ⟨rfl, rfl, rfl, rfl, rfl, rfl, rfl⟩

/-- An operation that goes on from a state with another log. -/
theorem Safe.of_same {r : Option (Fsx σ)} (hs : s.Sized) (h : Same s s') (hr : Safe K s' r) :
    Safe K s r := by
  obtain ⟨s'', hr, hk, hl⟩ := hr
  exact ⟨s'', hr, (h.keeps hs).trans hk, fun contents hK hl' => hl contents hK (h.lockstep hl')⟩

/-- An operation that goes on after polluting the file, which a run in lockstep does not do. -/
theorem Safe.of_polluted {fd : σ} {r : Option (Fsx σ)} (hfd : s.a.polluteEof = false → fd = s.fd)
    (h : Safe K { s with fd } r) : Safe K s r := by
  obtain ⟨s'', hr, hk, hl⟩ := h
  refine ⟨s'', hr, ⟨hk.a, hk.maxfilelen, hk.originalBuf, hk.goodBuf, hk.fileSize⟩,
    fun contents hK hl' => ?_⟩
  obtain rfl := hfd hl'.clean
  exact hl contents hK hl'

theorem safe_same (hs : s.Sized) (h : Same s s') : Safe K s (some s') :=
  ⟨s', rfl, h.keeps hs, fun _ _ hl => ⟨(h.lockstep hl).mirrors, (h.lockstep hl).ok⟩⟩

/-- An operation that only logs that it was skipped. -/
theorem safe_log5 (hs : s.Sized) (op : Op) (a0 a1 a2 : Nat) (b : Bool) :
    Safe K s (some (s.log5 op a0 a1 a2 b)) :=
  safe_same hs (same_log5 ..)

/-- A recorded failure changes neither the buffers nor the file. -/
theorem keeps_fail (h : Keeps s s') (msg : String) : Keeps s (s'.fail msg) := by
  unfold fail
  split
  · exact ⟨h.a, h.maxfilelen, h.originalBuf, h.goodBuf, h.fileSize⟩
  · exact h

/-- A recorded failure, in a case that the byte semantics rule out. -/
theorem safe_fail {msg : String} (hk : Keeps s s')
    (hno : ∀ contents, ByteSemantics K contents → Lockstep contents s → False) :
    Safe K s (some (s'.fail msg)) :=
  ⟨_, rfl, keeps_fail hk msg, fun contents hK hl => (hno contents hK hl).elim⟩

/-- In lockstep the call succeeds, and changes the contents of the file by `F`. -/
def Works (K : Kernel σ) (s : Fsx σ) (call : Except IoError σ) (F : Bytes → Bytes) : Prop :=
  ∀ contents, ByteSemantics K contents → Lockstep contents s →
    ∃ fd, call = .ok fd ∧ contents fd = F (contents s.fd)

section

variable {call : Except IoError σ} {F : Bytes → Bytes}

/-- The failure of a call that works in lockstep. -/
theorem Works.refused {msg : String} {e : IoError} (h : Works K s call F) (hcall : call = .error e)
    (hk : Keeps s s') : Safe K s (some (s'.fail msg)) := by
  refine safe_fail hk fun contents hK hl => ?_
  obtain ⟨fd, hfd, -⟩ := h contents hK hl
  rw [hcall] at hfd
  cases hfd

/-- The shadow follows a call. -/
theorem Works.followed {fd : σ} (h : Works K s call F) (hcall : call = .ok fd) (hk : Keeps s s')
    (hfd : s'.fd = fd) (hfailure : s'.failure = s.failure)
    (hm : ∀ B, Mirrors B s.goodBuf s.fileSize → Mirrors (F B) s'.goodBuf s'.fileSize) :
    Safe K s (some s') := by
  refine ⟨s', rfl, hk, fun contents hK hl => ⟨?_, hfailure.trans hl.ok⟩⟩
  obtain ⟨fd', hok, hc⟩ := h contents hK hl
  rw [hcall] at hok
  cases hok
  rw [hfd, hc]
  exact hm _ hl.mirrors

end

end

/-! ## Shadow updates -/

/-- The shadow after the gap between the end of the file and `offset` is zeroed. -/
def gapBuf (s : Fsx σ) (offset : Nat) : Bytes :=
  if s.fileSize < offset then
    patch s.goodBuf s.fileSize (List.replicate (offset - s.fileSize) 0)
  else s.goodBuf

theorem length_gapBuf {s : Fsx σ} {offset : Nat} (h : offset ≤ s.goodBuf.length) :
    (s.gapBuf offset).length = s.goodBuf.length := by
  unfold gapBuf
  split
  · exact length_patch (by simp; omega)
  · rfl

theorem byteAt_gapBuf {s : Fsx σ} {offset : Nat} (h : offset ≤ s.goodBuf.length) (i : Nat) :
    byteAt (s.gapBuf offset) i =
      if s.fileSize ≤ i ∧ i < offset then 0 else byteAt s.goodBuf i := by
  unfold gapBuf
  split
  · rw [byteAt_patch (by simp; omega), byteAt_replicate_zero]
    congr 1
    simp only [List.length_replicate, eq_iff_iff]
    omega
  · rw [if_neg (by omega)]

theorem updateFileSize_eq {s : Fsx σ} {offset size : Nat} (h : offset + size ≤ s.goodBuf.length)
    (hc : s.goodBuf.length ≤ isizeMax) :
    s.updateFileSize offset size =
      some { s with goodBuf := s.gapBuf offset, fileSize := offset + size } := by
  unfold updateFileSize gapBuf
  rw [addU64_of (by unfold u64Size isizeMax at *; omega)]
  split
  · rw [fillRange_of (by omega) (by omega)]; rfl
  · rfl

theorem growTo_eq {s : Fsx σ} {offset size : Nat} (h : offset + size ≤ s.goodBuf.length)
    (hc : s.goodBuf.length ≤ isizeMax) :
    s.growTo offset size (offset + size) =
      some { s with goodBuf := s.gapBuf offset, fileSize := max s.fileSize (offset + size) } := by
  unfold growTo
  split
  · rw [updateFileSize_eq h hc, Nat.max_eq_right (by omega)]
  · rw [Nat.max_eq_left (by omega), gapBuf, if_neg (by omega)]

/-- Elements that are all there can be collected. -/
theorem mapM_some {α β : Type} (l : List α) (f : α → Option β) (h : ∀ x ∈ l, (f x).isSome) :
    ∃ ys, ys.length = l.length ∧ l.mapM f = some ys := by
  induction l with
  | nil => exact ⟨[], rfl, rfl⟩
  | cons x xs ih =>
    obtain ⟨y, hy⟩ := Option.isSome_iff_exists.mp (h x (by simp))
    obtain ⟨ys, hl, hys⟩ := ih fun z hz => h z (by simp [hz])
    exact ⟨y :: ys, by simp [hl], by simp [List.mapM_cons, hy, hys]⟩

/-- The pattern of `size` bytes from `offset` on exists inside the original buffer. -/
theorem genBytes_some (original : Bytes) (offset size : Nat) (h : offset + size ≤ original.length)
    (tc : UInt8) : ∃ data, data.length = size ∧
      (List.range size).mapM (fun i => genByte tc original (offset + i)) = some data := by
  obtain ⟨data, hl, hd⟩ := mapM_some (List.range size)
    (fun i => genByte tc original (offset + i)) fun i hi => by
      have hi' : offset + i < original.length := by have := List.mem_range.mp hi; omega
      unfold genByte
      split
      · simp [hi']
      · rfl
  exact ⟨data, by rw [hl, List.length_range], hd⟩

theorem gendata_eq {s : Fsx σ} (hs : s.Sized) {offset size : Nat}
    (h : offset + size ≤ s.maxfilelen) : ∃ data, data.length = size ∧
      s.gendata offset size = some { s with goodBuf := patch s.goodBuf offset data } := by
  obtain ⟨data, hl, hd⟩ := genBytes_some s.originalBuf offset size
    (by rw [hs.originalBuf]; exact h) (UInt8.ofNat (s.testcalls % 256))
  refine ⟨data, hl, ?_⟩
  have := hs.goodBuf
  simp only [gendata]
  rw [hd]
  simp only [Option.bind_eq_bind, Option.bind_some]
  rw [copyIn_of (by omega)]
  rfl

/-- Polluting the last page needs no byte outside the buffers, and changes only the file. -/
theorem polluteEofpage_eq (K : Kernel σ) {s : Fsx σ} (hs : s.Sized) :
    ∃ fd, s.polluteEofpage K s.maxfilelen = some { s with fd } ∧
      (s.a.polluteEof = false → fd = s.fd) := by
  have hsame : (some s : Option (Fsx σ)) = some { s with fd := s.fd } := rfl
  unfold polluteEofpage
  by_cases hp : (!s.a.polluteEof || s.testcalls ≤ s.a.simulatedopcount) = true
  · exact ⟨s.fd, by rw [if_pos hp]; exact hsame, fun _ => rfl⟩
  have hpol : s.a.polluteEof ≠ false := fun h => hp (by simp [h])
  simp only [if_neg hp]
  split
  · exact ⟨s.fd, hsame, fun _ => rfl⟩
  split
  · exact ⟨s.fd, hsame, fun _ => rfl⟩
  split
  · exact ⟨s.fd, hsame, fun _ => rfl⟩
  · -- The page offset of the end of the file is at most its offset.
    have hle : s.fileSize &&& s.pageMask ≤ s.fileSize := Nat.and_le_left
    have hfs := hs.fileSize
    obtain ⟨data, -, hd⟩ := genBytes_some s.originalBuf
      (s.fileSize &&& s.pageMask)
      (min (s.pageSize - (s.fileSize &&& s.pageMask)) (s.maxfilelen - s.fileSize))
      (by rw [hs.originalBuf]; omega) (UInt8.ofNat (s.testcalls % 256))
    simp only [hd]
    exact ⟨_, rfl, fun h => absurd h hpol⟩

/-! ## Reads -/

theorem length_preadAll (K : Kernel σ) (fd : σ) {need off : Nat} {bs : Bytes}
    (h : preadAll K fd need off = .ok bs) : bs.length = need := by
  induction need using Nat.strongRecOn generalizing off bs with
  | ind need ih =>
    rw [preadAll] at h
    split at h
    · cases h; simp; omega
    split at h
    · cases h
    rename_i c _
    split at h
    · cases h
    split at h
    · cases h
    rename_i rest hrest
    cases h
    have hc := c.2
    rw [List.length_append, ih _ (by omega) hrest]
    omega

/-- Reading inside the file returns its bytes, however the kernel splits the read. -/
theorem preadAll_ok {K : Kernel σ} {contents : σ → Bytes} (hK : ByteSemantics K contents) (fd : σ)
    {need off : Nat} (h : off + need ≤ (contents fd).length) :
    preadAll K fd need off = .ok (((contents fd).drop off).take need) := by
  induction need using Nat.strongRecOn generalizing off with
  | ind need ih =>
    rw [preadAll]
    split
    · simp [*]
    obtain ⟨c, hc, hbytes, hpos⟩ := hK.pread fd need off
    have hle := c.2
    have hlen := hpos (by omega) (by omega)
    rw [hc]
    simp only [if_neg (show ¬ c.1.length = 0 by omega)]
    rw [ih (need - c.1.length) (by omega) (by omega)]
    show Except.ok (c.1 ++ _) = _
    congr 1
    exact (congrArg (· ++ _) hbytes).trans (drop_take_split hle _ _)

theorem checkBuffers_keeps {s : Fsx σ} (hs : s.Sized) {buf : Bytes} {offset size : Nat}
    (hb : size ≤ buf.length) (h : offset + size ≤ s.fileSize) :
    Stays s (s.checkBuffers buf offset size) := by
  have h1 := hs.fileSize
  have h2 := hs.goodBuf
  unfold checkBuffers
  rw [slice_of (by omega) hb, slice_of (by omega) (by omega)]
  simp only [Option.bind_eq_bind, Option.bind_some]
  split
  · exact ⟨s, rfl, rfl, rfl, rfl, rfl, hs.fileSize⟩
  · refine ⟨_, rfl, keeps_fail ?_ _⟩
    exact ⟨rfl, rfl, rfl, rfl, hs.fileSize⟩

theorem checkBuffers_same {s : Fsx σ} (hs : s.Sized) {buf : Bytes} {offset size : Nat}
    (h : offset + size ≤ s.fileSize) (hb : buf = (s.goodBuf.drop offset).take size) :
    s.checkBuffers buf offset size = some s := by
  have h1 := hs.fileSize
  have h2 := hs.goodBuf
  have hlen : buf.length = size := by rw [hb]; simp; omega
  unfold checkBuffers
  rw [slice_of (by omega) (by omega), slice_of (by omega) (by omega)]
  simp only [Option.bind_eq_bind, Option.bind_some, List.drop_zero, Nat.sub_zero,
    Nat.add_sub_cancel_left]
  rw [List.take_of_length_le (by omega), ← hb, if_pos rfl]
  rfl

/-- A read whose bytes the kernel's byte semantics determine ends in the comparison. -/
theorem checkBuffers_safe {K : Kernel σ} {s s' : Fsx σ} (hs : s.Sized) (hk : Keeps s s')
    (hfs : s'.fileSize = s.fileSize) {buf : Bytes} {offset size : Nat} (hb : size ≤ buf.length)
    (h : offset + size ≤ s.fileSize)
    (hl : ∀ contents, ByteSemantics K contents → Lockstep contents s →
      s'.failure = none ∧ Mirrors (contents s'.fd) s'.goodBuf s'.fileSize ∧
      buf = ((contents s'.fd).drop offset).take size) :
    Safe K s (s'.checkBuffers buf offset size) := by
  have hs' := hk.sized hs
  rw [← hfs] at h
  obtain ⟨s'', hr, hk'⟩ := checkBuffers_keeps hs' hb h
  refine ⟨s'', hr, hk.trans hk', fun contents hK hl' => ?_⟩
  obtain ⟨hok, hm, hbuf⟩ := hl contents hK hl'
  have hslice := hm.slice_eq offset h
    (Nat.le_trans hs'.fileSize hs'.goodBuf)
  simp only [Nat.add_sub_cancel_left] at hslice
  rw [checkBuffers_same hs' h (by rw [hbuf, hslice])] at hr
  cases hr
  exact ⟨hm, hok⟩

@[simp] theorem length_injected (s : Fsx σ) (tmp : Bytes) (size : Nat) :
    (s.injected tmp size).length = tmp.length := by
  unfold injected; split <;> simp

theorem injected_honest {s : Fsx σ} (h : s.a.injectFailureAt = none) (tmp : Bytes) (size : Nat) :
    s.injected tmp size = tmp := by
  simp [injected, h]

theorem doread_safe (K : Kernel σ) {s : Fsx σ} (hs : s.Sized) {offset size : Nat}
    (h : offset + size ≤ s.maxfilelen) : Safe K s (s.doread K offset size) := by
  have hcap := hs.cap
  have hgood := hs.goodBuf
  have hoff := Nat.sub_le offset (offset % max s.a.readbdy 1)
  simp only [doread]
  generalize offset - offset % max s.a.readbdy 1 = o at hoff ⊢
  by_cases hz : size = 0
  · rw [if_pos hz]; exact safe_log5 hs ..
  rw [if_neg hz, addU64_of (by unfold u64Size isizeMax at *; omega)]
  simp only [Option.bind_eq_bind, Option.bind_some]
  by_cases hend : s.fileSize < o + size
  · rw [if_pos hend]; exact safe_log5 hs ..
  rw [if_neg hend]
  have hsame : Same s (s.log4 .read o size false) := same_log5 ..
  generalize s.log4 .read o size false = s₁ at hsame
  rw [← hsame.fileSize] at hend
  refine Safe.of_same hs hsame ?_
  replace hs := hsame.sized hs
  have hk : Keeps s₁ s₁ := ⟨rfl, rfl, rfl, rfl, hs.fileSize⟩
  cases hread : preadAll K s₁.fd size o with
  | error e =>
    refine safe_fail hk fun contents hK hl => ?_
    rw [preadAll_ok hK _ (by rw [hl.mirrors.length]; omega)] at hread
    cases hread
  | ok tmp =>
    have hlen := length_preadAll K s₁.fd hread
    refine checkBuffers_safe hs hk rfl (by simp [hlen]) (by omega) fun contents hK hl => ?_
    rw [preadAll_ok hK _ (by rw [hl.mirrors.length]; omega)] at hread
    cases hread
    exact ⟨hl.ok, hl.mirrors, injected_honest hl.honest _ _⟩

/-! ## Writes -/

/-- However the kernel splits a write, the data ends up at its offset. -/
theorem pwriteAll_ok {K : Kernel σ} {contents : σ → Bytes} (hK : ByteSemantics K contents)
    {data : Bytes} (fd : σ) (off : Nat) (hd : 0 < data.length) :
    ∃ fd', pwriteAll K fd data off = .ok fd' ∧
      contents fd' = overwrite (contents fd) off data := by
  induction hn : data.length using Nat.strongRecOn generalizing data fd off with
  | ind len ih =>
    obtain ⟨n, fd₁, hw, hc⟩ := hK.pwrite fd data off hd
    have hn1 := n.2
    rw [pwriteAll, if_neg (by omega), hw]
    by_cases hall : n.1 = data.length
    · refine ⟨fd₁, ?_, by rw [hc, List.take_of_length_le (by omega)]⟩
      simp only []
      rw [pwriteAll, if_pos (by simp; omega)]
    · have hrest : (data.drop n.1).length = len - n.1 := by simp; omega
      obtain ⟨fd₂, hw₂, hc₂⟩ := ih (len - n.1) (by omega) fd₁ (off + n.1) (by omega) hrest
      exact ⟨fd₂, hw₂, by rw [hc₂, hc, overwrite_take_drop _ _ _ hn1.2]⟩

/-- The bytes that `domapread` copies out of the mapping. -/
theorem loaded_eq {K : Kernel σ} {contents : σ → Bytes} (hK : ByteSemantics K contents) {fd : σ}
    {off size : Nat} (h : off + size ≤ (contents fd).length) :
    ((List.range size).map fun i => K.load fd (off + i)) = ((contents fd).drop off).take size := by
  apply List.ext_getElem
  · simp; omega
  · intro i h1 h2
    have hi : i < size := by simpa using h1
    simp only [List.getElem_map, List.getElem_range, List.getElem_take, List.getElem_drop]
    rw [hK.load fd _ (by omega), byteAt_of_lt (by omega)]

/-- The shadow side of a write: the pattern at `o`, zeros in the gap before it. The written data is
then read out of the shadow. -/
theorem shadow_write {s : Fsx σ} (hs : s.Sized) (o size : Nat) (h : o + size ≤ s.maxfilelen) :
    ∃ buf : Bytes, buf.length = s.goodBuf.length ∧
      (∀ F, Mirrors F s.goodBuf s.fileSize →
        Mirrors (overwrite F o ((buf.drop o).take size)) buf (max s.fileSize (o + size))) ∧
      ∀ k : Fsx σ → Nat → Option (Fsx σ),
        ((s.gendata o size).bind fun s => (addU64 o size).bind fun e =>
          (s.growTo o size e).bind fun s => k s e) =
        k { s with goodBuf := buf, fileSize := max s.fileSize (o + size) } (o + size) := by
  have hgood := hs.goodBuf
  have hcap := hs.cap
  obtain ⟨data, hdata, hgen⟩ := gendata_eq hs h
  have hlen : (patch s.goodBuf o data).length = s.goodBuf.length := length_patch (by omega)
  let s₁ : Fsx σ := { s with goodBuf := patch s.goodBuf o data }
  have hl₁ : s₁.goodBuf.length = s.goodBuf.length := hlen
  have hbuf : ∀ i, byteAt (s₁.gapBuf o) i =
      if s.fileSize ≤ i ∧ i < o then 0 else byteAt s₁.goodBuf i := byteAt_gapBuf (by omega)
  refine ⟨s₁.gapBuf o, (length_gapBuf (by omega)).trans hl₁, fun F hm => ?_, fun k => ?_⟩
  · refine hm.overwrite_slice (by rw [length_gapBuf] <;> omega) (fun i hi hout => ?_)
      (fun i h1 h2 => by rw [hbuf, if_pos ⟨h1, h2⟩])
    rw [hbuf, if_neg (by omega)]
    exact (byteAt_patch (by omega) i).trans (if_neg (by omega))
  · rw [hgen, addU64_of (by unfold u64Size isizeMax at *; omega)]
    simp only [Option.bind_some]
    rw [growTo_eq (s := s₁) (by omega) (by omega)]
    rfl

/-- The state after the shadow side of an operation that ends at `e`. -/
theorem keeps_grown {s s' : Fsx σ} {buf : Bytes} {e : Nat} (hs : s.Sized) (he : e ≤ s.maxfilelen)
    (hbuf : buf.length = s.goodBuf.length) (ha : s'.a = s.a) (hm : s'.maxfilelen = s.maxfilelen)
    (ho : s'.originalBuf = s.originalBuf) (hg : s'.goodBuf = buf)
    (hf : s'.fileSize = max s.fileSize e) : Keeps s s' :=
  ⟨ha, hm, ho, by rw [hg, hbuf], by have := hs.fileSize; rw [hf]; omega⟩

theorem dowrite_safe (K : Kernel σ) {s : Fsx σ} (hs : s.Sized) {offset size : Nat}
    (h : offset + size ≤ s.maxfilelen) : Safe K s (s.dowrite K offset size) := by
  have hoff := Nat.sub_le offset (offset % max s.a.writebdy 1)
  simp only [dowrite]
  generalize offset - offset % max s.a.writebdy 1 = o at hoff ⊢
  by_cases hz : size = 0
  · rw [if_pos hz]; exact safe_log5 hs ..
  rw [if_neg hz]
  have hsame : Same s (s.log4 .write o size false) := same_log5 ..
  generalize s.log4 .write o size false = s₁ at hsame
  refine Safe.of_same hs hsame ?_
  rw [← hsame.maxfilelen] at h
  replace hs := hsame.sized hs
  have hgood := hs.goodBuf
  obtain ⟨buf, hbl, hmirror, hrun⟩ := shadow_write hs o size (by omega)
  simp only [Option.bind_eq_bind]
  rw [hrun, slice_of (by omega) (by simp only [hbl]; omega)]
  simp only [Option.bind_some, Nat.add_sub_cancel_left]
  have hpos : 0 < ((buf.drop o).take size).length := by simp; omega
  cases hw : pwriteAll K s₁.fd ((buf.drop o).take size) o with
  | error e =>
    refine safe_fail (keeps_grown hs (e := o + size) (by omega) hbl rfl rfl rfl rfl rfl)
      fun contents hK hl => ?_
    obtain ⟨fd', hw', -⟩ := pwriteAll_ok hK s₁.fd o hpos
    rw [hw] at hw'
    cases hw'
  | ok fd =>
    refine ⟨_, rfl, keeps_grown hs (e := o + size) (by omega) hbl rfl rfl rfl rfl rfl,
      fun contents hK hl => ⟨?_, hl.ok⟩⟩
    obtain ⟨fd', hw', hc⟩ := pwriteAll_ok hK s₁.fd o hpos
    rw [hw] at hw'
    cases hw'
    have hm := hmirror _ hl.mirrors
    simp only []
    split
    · rw [hK.fsync, hc]; exact hm
    · rw [hc]; exact hm

/-- Growing the file to the new shadow size is a resize, whether or not it needs a call. -/
theorem growFile_ok {K : Kernel σ} {contents : σ → Bytes} (hK : ByteSemantics K contents) (fd : σ)
    (n : Nat) : ∃ fd', growFile K fd (contents fd).length (max (contents fd).length n) = .ok fd' ∧
      contents fd' = resize (contents fd) (max (contents fd).length n) := by
  unfold growFile
  split
  · exact hK.ftruncate ..
  · refine ⟨_, rfl, ext_byteAt (by rw [length_resize]; omega) fun i hi => ?_⟩
    rw [byteAt_resize, if_pos (by omega)]

theorem domapwrite_safe (K : Kernel σ) {s : Fsx σ} (hs : s.Sized) {offset size : Nat}
    (h : offset + size ≤ s.maxfilelen) : Safe K s (s.domapwrite K offset size) := by
  have hoff := Nat.sub_le offset (offset % max s.a.writebdy 1)
  simp only [domapwrite]
  generalize offset - offset % max s.a.writebdy 1 = o at hoff ⊢
  by_cases hz : size = 0
  · rw [if_pos hz]; exact safe_log5 hs ..
  rw [if_neg hz]
  have hsame : Same s (s.log4 .mapWrite o size false) := same_log5 ..
  generalize s.log4 .mapWrite o size false = s₁ at hsame
  refine Safe.of_same hs hsame ?_
  rw [← hsame.fileSize]
  rw [← hsame.maxfilelen] at h
  replace hs := hsame.sized hs
  have hgood := hs.goodBuf
  obtain ⟨buf, hbl, hmirror, hrun⟩ := shadow_write hs o size (by omega)
  simp only [Option.bind_eq_bind]
  rw [hrun]
  simp only []
  cases hgrow : growFile K s₁.fd s₁.fileSize (max s₁.fileSize (o + size)) with
  | error e =>
    refine safe_fail (keeps_grown hs (e := o + size) (by omega) hbl rfl rfl rfl rfl rfl)
      fun contents hK hl => ?_
    obtain ⟨fd, hfd, -⟩ := growFile_ok hK s₁.fd (o + size)
    rw [hl.mirrors.length, hgrow] at hfd
    cases hfd
  | ok fd =>
    simp only []
    cases hmap : K.mmap fd ((o &&& s₁.pageMask) + size) (o - (o &&& s₁.pageMask)) with
    | error e =>
      refine safe_fail (keeps_grown hs (e := o + size) (by omega) hbl rfl rfl rfl rfl rfl)
        fun contents hK hl => ?_
      rw [hK.mmap _ _ _ (by omega)] at hmap
      cases hmap
    | ok u =>
      simp only []
      rw [slice_of (by omega) (by omega)]
      simp only [Option.bind_some, Nat.add_sub_cancel_left]
      cases hsync : K.msync (K.store fd o ((buf.drop o).take size)) with
      | error e =>
        refine safe_fail (keeps_grown hs (e := o + size) (by omega) hbl rfl rfl rfl rfl rfl)
          fun contents hK hl => ?_
        rw [hK.msync] at hsync
        cases hsync
      | ok u =>
        refine ⟨_, rfl, keeps_grown hs (e := o + size) (by omega) hbl rfl rfl rfl rfl rfl,
          fun contents hK hl => ⟨?_, hl.ok⟩⟩
        have hdl : ((buf.drop o).take size).length = size := by simp; omega
        have hlen := hl.mirrors.length
        obtain ⟨fd', hfd, hc⟩ := growFile_ok hK s₁.fd (o + size)
        rw [hlen, hgrow] at hfd
        cases hfd
        simp only []
        rw [hK.store _ _ _ (by rw [hc, length_resize]; omega), hc]
        have hres := overwrite_resize (contents s₁.fd) o ((buf.drop o).take size)
        rw [hdl] at hres
        rw [hres]
        exact hmirror _ hl.mirrors

end Fstest.Fsx
