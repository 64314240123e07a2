import Fstest.Fsx.RangeSpec

/-!
# One iteration of the fsx loop

The trims keep an operation inside the limit they are given (`trimOffLen_eq`, `genDestRange_eq`),
so an arm of the loop meets the conditions of its operation. `StepFits` is what the trims do not
give: a truncate draws a size and stays below the maximum, and an insertion finds room for its
bytes. An iteration whose choice meets `StepFits` keeps the buffers (`performOp_stays`), and one
that neither preallocates nor inserts keeps the lockstep (`performOp_safe`). A step that misses
`StepFits` panics or leaves the shadow file longer than the maximum (`performOp_unfit`).
-/

namespace Fstest.Fsx

variable {σ : Type} {K : Kernel σ} {s s' : Fsx σ} {a : Args}

/-! ## Trimming -/

theorem rounddown_le (v bdy : Nat) : rounddown v bdy ≤ v := by
  unfold rounddown
  split <;> omega

theorem dvd_rounddown {bdy : Nat} (h : bdy ≠ 0) (v : Nat) : bdy ∣ rounddown v bdy := by
  rw [rounddown, if_neg h]
  exact Nat.dvd_sub_mod v

theorem trimOff_lt {off size : Nat} (h : size ≠ 0) : trimOff off size < size := by
  rw [trimOff, if_neg h]
  exact Nat.mod_lt _ (by omega)

theorem trimOff_le (off size : Nat) : trimOff off size ≤ size := by
  by_cases h : size = 0
  · simp [trimOff, h]
  · exact Nat.le_of_lt (trimOff_lt h)

/-- Trimming never fails on sizes an allocation can have, and ends inside the limit. -/
theorem trimOffLen_eq {len size : Nat} (off : Nat) (hl : len ≤ isizeMax) (hs : size ≤ isizeMax) :
    ∃ n, trimOffLen off len size = some (trimOff off size, n) ∧ n ≤ len ∧
      trimOff off size + n ≤ size := by
  have hle := trimOff_le off size
  simp only [trimOffLen]
  generalize trimOff off size = o at hle ⊢
  rw [addU64_of (by unfold u64Size isizeMax at *; omega)]
  simp only [Option.bind_eq_bind, Option.bind_some]
  split
  · rw [subU64_of (by omega)]
    exact ⟨size - o, rfl, by omega, by omega⟩
  · exact ⟨len, rfl, Nat.le_refl _, by omega⟩

@[simp] theorem maxfilelen_rnd (s : Fsx σ) : s.rnd.2.maxfilelen = s.maxfilelen := rfl

theorem same_rnd (s : Fsx σ) : Same s s.rnd.2 := ⟨rfl, rfl, rfl, rfl, rfl, rfl, rfl⟩

/-- The tries keep the size only for a destination that fits and does not overlap the source. -/
theorem destTries_eq (maxEnd wbdy src size : Nat) (hw : wbdy ≠ 0) (hm : maxEnd ≤ isizeMax)
    (hz : size ≤ isizeMax) (dst tries : Nat) (s : Fsx σ) :
    ∃ n d s', destTries maxEnd wbdy src size dst tries s = some (n, d, s') ∧ Same s s' ∧
      (n = 0 ∨ n = size ∧ wbdy ∣ d ∧ d + n ≤ maxEnd ∧ (src + n ≤ d ∨ d + n ≤ src)) := by
  induction tries generalizing s with
  | zero => exact ⟨0, dst, s, rfl, ⟨rfl, rfl, rfl, rfl, rfl, rfl, rfl⟩, .inl rfl⟩
  | succ tries ih =>
    obtain ⟨n, d, s', hr, hsame, hd⟩ := ih s.rnd.2
    simp only [destTries]
    have hdvd := dvd_rounddown hw (if maxEnd = 0 then 0 else s.rnd.1 % maxEnd)
    have hle : rounddown (if maxEnd = 0 then 0 else s.rnd.1 % maxEnd) wbdy ≤ maxEnd := by
      refine Nat.le_trans (rounddown_le ..) ?_
      split
      · omega
      · exact Nat.le_of_lt (Nat.mod_lt _ (by omega))
    generalize rounddown (if maxEnd = 0 then 0 else s.rnd.1 % maxEnd) wbdy = d₀ at hdvd hle ⊢
    have hretry : ∃ n d s', destTries maxEnd wbdy src size dst tries s.rnd.2 = some (n, d, s') ∧
        Same s s' ∧ (n = 0 ∨ n = size ∧ wbdy ∣ d ∧ d + n ≤ maxEnd ∧
          (src + n ≤ d ∨ d + n ≤ src)) := ⟨n, d, s', hr, (same_rnd s).trans hsame, hd⟩
    by_cases hover : ((d₀ : Int) - src).natAbs < size
    · simpa [hover] using hretry
    simp only [hover, decide_false, Bool.false_eq_true, if_false]
    rw [addU64_of (by unfold u64Size isizeMax at *; omega)]
    by_cases hfit : d₀ + size ≤ maxEnd
    · exact ⟨size, d₀, s.rnd.2, by simp [hfit], same_rnd s, .inr ⟨rfl, hdvd, hfit, by omega⟩⟩
    · simpa [hfit] using hretry

/-- The ranges of a clone or a copy: aligned, disjoint, the source inside the file and the
destination below the maximum. -/
structure Ranges (s : Fsx σ) (c : Call) : Prop where
  src : c.offset + c.size ≤ s.fileSize
  dest : c.offset2 + c.size ≤ s.maxfilelen
  srcAligned : blockSize ∣ c.offset
  sizeAligned : blockSize ∣ c.size
  destAligned : blockSize ∣ c.offset2
  disjoint : c.offset + c.size ≤ c.offset2 ∨ c.offset2 + c.size ≤ c.offset

theorem Ranges.of_same {c : Call} (h : Ranges s c) (hsame : Same s s') : Ranges s' c where
  src := by rw [hsame.fileSize]; exact h.src
  dest := by rw [hsame.maxfilelen]; exact h.dest
  srcAligned := h.srcAligned
  sizeAligned := h.sizeAligned
  destAligned := h.destAligned
  disjoint := h.disjoint

theorem genDestRange_eq (hs : s.Sized) {size : Nat} (off : Nat) (op : Op) (hz : size ≤ isizeMax) :
    ∃ o n d s', genDestRange s false s.maxfilelen off size 0 = some (o, n, d, s') ∧ Same s s' ∧
      n ≤ isizeMax ∧ (n = 0 ∨ Ranges s { op, offset := o, size := n, offset2 := d }) := by
  have hcap := hs.cap
  have hgood := hs.goodBuf
  have hfs := hs.fileSize
  obtain ⟨n, htrim, hnl, hn⟩ := trimOffLen_eq off hz (by omega : s.fileSize ≤ _)
  have ho := rounddown_le (trimOff off s.fileSize) 4096
  have hr := rounddown_le n 4096
  obtain ⟨n', d, s', hd, hsame, hdest⟩ := destTries_eq s.maxfilelen 4096
    (rounddown (trimOff off s.fileSize) 4096) (rounddown n 4096) (by decide)
    (by omega) (by omega) 0 29 s
  refine ⟨rounddown (trimOff off s.fileSize) 4096, n', d, s', ?_, hsame, by omega, ?_⟩
  · simp only [genDestRange, htrim, Option.bind_eq_bind, Option.bind_some]
    simp only [Bool.false_eq_true, if_false, hd]
    rfl
  · refine hdest.imp_right fun ⟨hn', hdvd, hmax, hdisj⟩ => ?_
    subst hn'
    exact ⟨by simp only []; omega, hmax, dvd_rounddown (by decide) _,
      dvd_rounddown (by decide) _, hdvd, hdisj⟩

/-! ## The draws of an iteration -/

theorem drawSize_eq (h : a.oplen + 1 < u64Size) (s : Fsx σ) :
    ∃ n s', drawSize a s = some (n, s') ∧ Same s s' ∧ n ≤ a.oplen := by
  unfold drawSize
  split
  · exact ⟨_, s, rfl, ⟨rfl, rfl, rfl, rfl, rfl, rfl, rfl⟩, Nat.le_refl _⟩
  · rw [addU64_of h]
    simp only [modU64, Option.bind_eq_bind, Option.bind_some]
    rw [if_neg (by omega)]
    exact ⟨_, _, rfl, same_rnd s, Nat.le_of_lt_succ (Nat.mod_lt _ (by omega))⟩

theorem same_drawCloseopen (a : Args) (s : Fsx σ) : Same s (drawCloseopen a s) := by
  unfold drawCloseopen
  split <;> exact ⟨rfl, rfl, rfl, rfl, rfl, rfl, rfl⟩

theorem chooseOp_eq (h : a.oplen + 1 < u64Size) (s : Fsx σ) :
    ∃ c s', chooseOp a s = some (c, s') ∧ Same s s' ∧ c.size ≤ a.oplen := by
  simp only [chooseOp]
  have hcall : Same s { s with testcalls := s.testcalls + 1 } := ⟨rfl, rfl, rfl, rfl, rfl, rfl, rfl⟩
  have hsame := hcall.trans (same_drawCloseopen a _)
  generalize drawCloseopen a { s with testcalls := s.testcalls + 1 } = s₁ at hsame
  obtain ⟨n, s₂, hn, hsame₂, hle⟩ := drawSize_eq h s₁.rnd.2
  simp only [hn, Option.bind_eq_bind, Option.bind_some]
  exact ⟨_, _, rfl, ((hsame.trans (same_rnd s₁)).trans hsame₂).trans (same_rnd s₂), hle⟩

/-- The parts of a call that the trims of its arm rely on. -/
structure Trimmable (s : Fsx σ) (c : Call) : Prop where
  size : c.size ≤ isizeMax
  truncate : c.op = .truncate → c.size - c.size % max s.a.truncbdy 1 ≤ s.maxfilelen
  ranges : c.op = .cloneRange ∨ c.op = .copyRange → c.size = 0 ∨ Ranges s c

/-! ## When a step fits -/

/-- The operations that are part of the lockstep. -/
def mirrored : Op → Bool
  | .fallocate | .insertRange => false
  | _ => true

/-- The range of an insertion after its trims. -/
def insertArgs (s : Fsx σ) (offset size : Nat) : Nat × Nat :=
  let o := trimOff offset s.fileSize
  (rounddown o 4096, rounddown (min size (s.maxfilelen - o)) 4096)

/-- An insertion does nothing, or its range lies inside the shadow file and the grown file fits. -/
def InsertFits (K : Kernel σ) (s : Fsx σ) (offset size : Nat) : Prop :=
  let (o, n) := insertArgs s offset size
  n = 0 ∨ s.fileSize = 0 ∨ InsertRefused K s o n ∨
    o + n ≤ s.fileSize ∧ s.fileSize + n ≤ s.maxfilelen

/-- The target of a truncate is inside the buffers, and an insertion fits. -/
def StepFits (a : Args) (K : Kernel σ) (s : Fsx σ) (c : Choice) : Prop :=
  match c.op with
  | .truncate =>
    if a.style = 0 then 0 < s.maxfilelen else c.size - c.size % max s.a.truncbdy 1 ≤ s.maxfilelen
  | .insertRange => s.enabled .insertRange = true → InsertFits K s c.offset c.size
  | _ => True

theorem dispatch_safe (a : Args) (K : Kernel σ) (hs : s.Sized) {c : Call} (ht : Trimmable s c)
    (hop : mirrored c.op = true) : Safe K s (dispatch a K 0 s c) := by
  have hcap := hs.cap
  have hgood := hs.goodBuf
  have hfs := hs.fileSize
  have hmax : s.maxfilelen ≤ isizeMax := by omega
  -- Every arm but the last three trims its range to the file or to the maximum.
  obtain ⟨n, hn, hnl, hin⟩ := trimOffLen_eq c.offset ht.size (by omega : s.fileSize ≤ _)
  obtain ⟨m, hm, hml, him⟩ := trimOffLen_eq c.offset ht.size hmax
  cases h : c.op <;> simp only [dispatch, h, hn, hm, Option.bind_eq_bind, Option.bind_some]
  case read => exact doread_safe K hs (by omega)
  case write => exact dowrite_safe K hs him
  case mapRead =>
    split
    · exact doread_safe K hs (by omega)
    · exact domapread_safe K hs (by omega)
  case mapWrite =>
    split
    · exact dowrite_safe K hs him
    · exact domapwrite_safe K hs him
  case truncate => exact dotruncate_safe K hs (ht.truncate h)
  case fallocate => simp [h, mirrored] at hop
  case punchHole => exact doPunchHole_safe K hs _ _
  case zeroRange => exact doZeroRange_safe K hs _ him
  case writeZeroes => exact doWriteZeroes_safe K hs him
  case collapseRange =>
    obtain ⟨l, hl, -, hil⟩ := trimOffLen_eq c.offset ht.size (by omega : s.fileSize - 1 ≤ _)
    have ho := rounddown_le (trimOff c.offset (s.fileSize - 1)) 4096
    have hr := rounddown_le l 4096
    simp only [hl, Option.bind_some]
    split
    · exact safe_log5 hs ..
    · exact doCollapseRange_safe K hs (by omega) (dvd_rounddown (by decide) _)
        (dvd_rounddown (by decide) _)
  case insertRange => simp [h, mirrored] at hop
  case cloneRange =>
    split
    · exact safe_log5 hs ..
    obtain ⟨hsrc, hdest, hsa, hza, hda, hdisj⟩ := (ht.ranges (.inl h)).resolve_left ‹_›
    rw [addU64_of (by unfold u64Size isizeMax at *; omega)]
    simp only [Option.bind_some]
    rw [if_neg (by omega)]
    exact doCloneRange_safe K hs hsrc hdest hsa hza hda hdisj
  case copyRange =>
    split
    · exact safe_log5 hs ..
    obtain ⟨hsrc, hdest, -, -, -, hdisj⟩ := (ht.ranges (.inr h)).resolve_left ‹_›
    rw [addU64_of (by unfold u64Size isizeMax at *; omega)]
    simp only [Option.bind_some]
    rw [if_neg (by omega)]
    exact doCopyRange_safe K hs hsrc hdest hdisj
  case fsync => exact safe_same hs ⟨rfl, rfl, rfl, rfl, rfl, rfl, rfl⟩

theorem dispatch_insertRange (hs : s.Sized) {c : Call} (hz : c.size ≤ isizeMax)
    (h : c.op = .insertRange) {o n : Nat} (hon : insertArgs s c.offset c.size = (o, n)) :
    dispatch a K 0 s c =
      if n = 0 then some (s.log4 .insertRange o n true) else s.doInsertRange K o n := by
  obtain ⟨rfl, rfl⟩ := Prod.mk.inj hon
  have hcap := hs.cap
  have hgood := hs.goodBuf
  have hfs := hs.fileSize
  have hle := trimOff_le c.offset s.fileSize
  have htrim : ∀ o ≤ s.fileSize, (if s.maxfilelen < o + c.size then subU64 s.maxfilelen o
      else some c.size) = some (min c.size (s.maxfilelen - o)) := fun o ho => by
    split
    · rw [subU64_of (by omega), Nat.min_eq_right (by omega)]
    · rw [Nat.min_eq_left (by omega)]
  have hr := rounddown_le (min c.size (s.maxfilelen - trimOff c.offset s.fileSize)) 4096
  simp only [dispatch, h]
  rw [addU64_of (by unfold u64Size isizeMax at *; omega)]
  simp only [Option.bind_eq_bind, Option.bind_some, htrim _ hle]
  split
  · rfl
  -- The comparison with the size of the file at the start of the run never skips an insertion.
  · rw [addU64_of (by unfold u64Size isizeMax at *; omega)]
    simp only [Option.bind_some]
    rw [if_neg (by omega)]

theorem dispatch_stays (a : Args) (K : Kernel σ) (hs : s.Sized) {c : Call} (ht : Trimmable s c)
    (hins : c.op = .insertRange → InsertFits K s c.offset c.size) :
    Stays s (dispatch a K 0 s c) := by
  by_cases hop : mirrored c.op = true
  · exact (dispatch_safe a K hs ht hop).stays
  cases h : c.op <;> simp only [h, mirrored, not_true_eq_false] at hop
  case fallocate =>
    have hcap := hs.cap
    have hgood := hs.goodBuf
    obtain ⟨n, hn, -, -⟩ := trimOffLen_eq c.offset ht.size (by omega : s.maxfilelen ≤ _)
    simp only [dispatch, h, hn, Option.bind_eq_bind, Option.bind_some]
    exact doPreallocate_stays K hs _ _ _ _
  case insertRange =>
    obtain ⟨o, n, hon⟩ : ∃ o n, insertArgs s c.offset c.size = (o, n) := ⟨_, _, rfl⟩
    have hfit := hins h
    simp only [InsertFits, hon] at hfit
    rw [dispatch_insertRange hs ht.size h hon]
    split
    · exact (safe_log5 (K := K) hs ..).stays
    · exact doInsertRange_stays K hs (hfit.imp_right fun h1 => h1.imp_left fun h2 => by omega)

theorem dispatch_insertRange_unfit (hs : s.Sized) {c : Call} (hz : c.size ≤ isizeMax)
    (h : c.op = .insertRange) (hfit : ¬ InsertFits K s c.offset c.size)
    (hr : dispatch a K 0 s c = some s') : s'.maxfilelen < s'.fileSize := by
  obtain ⟨o, n, hon⟩ : ∃ o n, insertArgs s c.offset c.size = (o, n) := ⟨_, _, rfl⟩
  simp only [InsertFits, hon, not_or] at hfit
  obtain ⟨hn, hne, href, hroom⟩ := hfit
  have hlt : o < s.fileSize := by
    rw [← (Prod.mk.inj hon).1]
    exact Nat.lt_of_le_of_lt (rounddown_le ..) (trimOff_lt hne)
  rw [dispatch_insertRange hs hz h hon, if_neg hn] at hr
  exact doInsertRange_unfit hs hn hlt href hroom hr

/-! ## The checks -/

theorem checks_safe (a : Args) (K : Kernel σ) (hs : s.Sized) : Safe K s (checks a K s) := by
  have hrefl : Safe K s (some s) := safe_same hs ⟨rfl, rfl, rfl, rfl, rfl, rfl, rfl⟩
  unfold checks
  split
  · exact hrefl
  refine Safe.bind (f := fun s' =>
    some (if (!a.noSizeChecks && s'.failure.isNone) = true then s'.checkSize K else s')) ?_ ?_
  · split
    · exact checkContents_safe K hs
    · exact hrefl
  · intro s₁ hk
    split
    · exact checkSize_safe K (hk.sized hs)
    · exact safe_same (hk.sized hs) ⟨rfl, rfl, rfl, rfl, rfl, rfl, rfl⟩

theorem fileSize_fail (s : Fsx σ) (msg : String) :
    (s.fail msg).fileSize = s.fileSize ∧ (s.fail msg).maxfilelen = s.maxfilelen := by
  unfold fail
  split <;> exact ⟨rfl, rfl⟩

theorem checkBuffers_fileSize {buf : Bytes} {o n : Nat} (h : s.checkBuffers buf o n = some s') :
    s'.fileSize = s.fileSize ∧ s'.maxfilelen = s.maxfilelen := by
  simp only [checkBuffers, Option.bind_eq_bind, Option.bind_eq_some_iff] at h
  obtain ⟨got, -, good, -, h⟩ := h
  split at h <;> cases h
  · exact ⟨rfl, rfl⟩
  · exact fileSize_fail ..

theorem checks_fileSize (h : checks a K s = some s') :
    s'.fileSize = s.fileSize ∧ s'.maxfilelen = s.maxfilelen := by
  have hsize : ∀ s : Fsx σ, (s.checkSize K).fileSize = s.fileSize ∧
      (s.checkSize K).maxfilelen = s.maxfilelen := fun s => by
    unfold checkSize
    split
    · exact fileSize_fail ..
    · simp only []
      split
      · exact fileSize_fail ..
      · exact ⟨rfl, rfl⟩
  have hcont : ∀ s', s.checkContents K = some s' →
      s'.fileSize = s.fileSize ∧ s'.maxfilelen = s.maxfilelen := fun s' h => by
    unfold checkContents at h
    split at h
    · cases h; exact ⟨rfl, rfl⟩
    split at h
    · cases h; exact fileSize_fail ..
    · exact checkBuffers_fileSize h
  unfold checks at h
  split at h
  · cases h; exact ⟨rfl, rfl⟩
  simp only [Option.bind_eq_bind, Option.bind_eq_some_iff] at h
  obtain ⟨s₁, h₁, h₂⟩ := h
  have heq : s₁.fileSize = s.fileSize ∧ s₁.maxfilelen = s.maxfilelen := by
    split at h₁
    · exact hcont s₁ h₁
    · cases h₁; exact ⟨rfl, rfl⟩
  cases h₂
  split
  · exact ⟨(hsize s₁).1.trans heq.1, (hsize s₁).2.trans heq.2⟩
  · exact heq

/-! ## The whole step -/

/-- The draws of an operation change random numbers only, and give arguments that can be trimmed. -/
theorem refine_eq (hs : s.Sized) {c : Choice} (hz : c.size ≤ isizeMax) (hfit : StepFits a K s c) :
    ∃ call s', refine a s c = some (call, s') ∧ Same s s' ∧ call.op = c.op ∧ Trimmable s' call ∧
      (c.op = .insertRange → s' = s ∧ call.offset = c.offset ∧ call.size = c.size) := by
  have hcap := hs.cap
  have hgood := hs.goodBuf
  have hrefl : Same s s := ⟨rfl, rfl, rfl, rfl, rfl, rfl, rfl⟩
  have hsized : ∀ (s' : Fsx σ) (c' : Call), c'.size ≤ isizeMax → c'.op ≠ .truncate →
      c'.op ≠ .cloneRange → c'.op ≠ .copyRange → Trimmable s' c' := fun s' c' h1 h2 h3 h4 =>
    ⟨h1, fun h => absurd h h2, fun h => (h.elim h3 h4).elim⟩
  cases h : c.op <;> simp only [StepFits, h] at hfit <;> simp only [refine, h]
  case truncate =>
    split at hfit
    · have hlt : s.rnd.1 % s.maxfilelen < s.maxfilelen := Nat.mod_lt _ hfit
      rw [if_pos ‹_›, maxfilelen_rnd, modU64_of hfit]
      refine ⟨_, _, rfl, same_rnd s, rfl, ⟨?_, fun _ => ?_, fun h => by simp at h⟩, fun h => by cases h⟩
      · simp only []; omega
      · simp only [maxfilelen_rnd]; omega
    · rw [if_neg ‹_›]
      exact ⟨_, _, rfl, hrefl, rfl, ⟨hz, fun _ => hfit, fun h => by simp at h⟩, fun h => by cases h⟩
  case fallocate =>
    split
    · split <;> exact ⟨_, _, rfl, ⟨rfl, rfl, rfl, rfl, rfl, rfl, rfl⟩, rfl,
        hsized _ _ hz (by simp) (by simp) (by simp), fun h => by cases h⟩
    · exact ⟨_, _, rfl, hrefl, rfl, hsized _ _ hz (by simp) (by simp) (by simp),
        fun h => by cases h⟩
  case zeroRange =>
    split <;> exact ⟨_, _, rfl, ⟨rfl, rfl, rfl, rfl, rfl, rfl, rfl⟩, rfl,
      hsized _ _ hz (by simp) (by simp) (by simp), fun h => by cases h⟩
  case cloneRange =>
    obtain ⟨o, n, d, s', hg, hsame, hn, hr⟩ := genDestRange_eq hs c.offset .cloneRange hz
    rw [hg]
    exact ⟨_, s', rfl, hsame, rfl, ⟨hn, (fun h => by cases h), fun _ => hr.imp_right (·.of_same hsame)⟩,
      fun h => by cases h⟩
  case copyRange =>
    obtain ⟨o, n, d, s', hg, hsame, hn, hr⟩ := genDestRange_eq hs c.offset .copyRange hz
    rw [hg]
    exact ⟨_, s', rfl, hsame, rfl, ⟨hn, (fun h => by cases h), fun _ => hr.imp_right (·.of_same hsame)⟩,
      fun h => by cases h⟩
  all_goals
    exact ⟨_, _, rfl, hrefl, rfl, hsized _ _ hz (by simp) (by simp) (by simp),
      fun _ => ⟨rfl, rfl, rfl⟩⟩

/-- **A step that fits and neither preallocates nor inserts keeps the lockstep.** -/
theorem performOp_safe (hs : s.Sized) {c : Choice} (hz : c.size ≤ isizeMax)
    (hfit : StepFits a K s c) (hop : mirrored c.op = true) : Safe K s (performOp a K 0 s c) := by
  obtain ⟨call, s₁, hr, hsame, hcop, ht, -⟩ := refine_eq (K := K) hs hz hfit
  have hs₁ := hsame.sized hs
  simp only [performOp, hr, Option.bind_eq_bind, Option.bind_some]
  refine Safe.of_same hs hsame ?_
  split
  · exact safe_log5 hs₁ ..
  · exact Safe.bind (dispatch_safe a K hs₁ ht (by rw [hcop]; exact hop)) fun s₂ hk =>
      checks_safe a K (hk.sized hs₁)

/-- **A step that fits keeps the buffers.** -/
theorem performOp_stays (hs : s.Sized) {c : Choice} (hz : c.size ≤ isizeMax)
    (hfit : StepFits a K s c) : Stays s (performOp a K 0 s c) := by
  obtain ⟨call, s₁, hr, hsame, hcop, ht, hins⟩ := refine_eq (K := K) hs hz hfit
  have hs₁ := hsame.sized hs
  simp only [performOp, hr, Option.bind_eq_bind, Option.bind_some]
  split
  · exact ⟨_, rfl, (hsame.trans (same_log5 ..)).keeps hs⟩
  rename_i hon
  obtain ⟨s₂, hd, hk₂⟩ := dispatch_stays a K hs₁ ht fun h => by
    obtain ⟨rfl, ho, hn⟩ := hins (hcop ▸ h)
    rw [ho, hn]
    rw [hcop] at h
    simp only [StepFits, h] at hfit
    refine hfit ?_
    simpa [hcop, h, alwaysOn] using hon
  obtain ⟨s₃, hc, hk₃⟩ := (checks_safe a K (hk₂.sized hs₁)).stays
  exact ⟨s₃, by rw [hd]; exact hc, ((hsame.keeps hs).trans hk₂).trans hk₃⟩

/-- **A step that does not fit panics or leaves the shadow file longer than the maximum.** -/
theorem performOp_unfit (hs : s.Sized) {c : Choice} (hz : c.size ≤ isizeMax)
    (hfit : ¬ StepFits a K s c) (hr : performOp a K 0 s c = some s') :
    s'.maxfilelen < s'.fileSize := by
  simp only [performOp, Option.bind_eq_bind, Option.bind_eq_some_iff] at hr
  obtain ⟨⟨call, s₁⟩, hcall, hr⟩ := hr
  cases h : c.op <;> simp only [StepFits, h, not_true_eq_false] at hfit <;>
    simp only [refine, h] at hcall
  case truncate =>
    split at hfit
    · have h0 : s.maxfilelen = 0 := by omega
      rw [if_pos ‹_›, maxfilelen_rnd, h0] at hcall
      cases hcall
    · rw [if_neg ‹_›] at hcall
      cases hcall
      simp only [alwaysOn, Bool.not_true, Bool.and_false, Bool.false_eq_true, if_false,
        Option.bind_eq_some_iff] at hr
      obtain ⟨s₂, hd, hc⟩ := hr
      obtain ⟨h1, h2⟩ := checks_fileSize hc
      rw [h1, h2]
      exact dotruncate_unfit hs (Nat.lt_of_not_le hfit) hd
  case insertRange =>
    cases hcall
    simp only [Classical.not_imp] at hfit
    obtain ⟨hon, hfit⟩ := hfit
    simp only [hon, Bool.not_true, Bool.false_and, Bool.false_eq_true, if_false,
      Option.bind_eq_some_iff] at hr
    obtain ⟨s₂, hd, hc⟩ := hr
    obtain ⟨h1, h2⟩ := checks_fileSize hc
    rw [h1, h2]
    exact dispatch_insertRange_unfit hs (by exact hz) rfl hfit hd

end Fstest.Fsx
