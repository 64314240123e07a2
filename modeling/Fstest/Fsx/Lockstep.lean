import Fstest.Fsx.Run

/-!
# The shadow of fsx stays in lockstep with the file

- `ramFile` is a file in memory; `ramFile_semantics` shows that it acts as documented.
- `runOps_lockstep`: any sequence of operations other than fallocate and insert_range, with any
  offsets and sizes, keeps the shadow equal to the file and records no failure. Each operation is
  counted before it is performed, as in the loop, of which every run is such a sequence
  (`runOps_of_runFor`).
-/

namespace Fstest.Fsx

variable {σ : Type}

/-! ## A file in memory -/

/-- A file that is its contents. It reads and copies as much as it can in one call. -/
def ramFile : Kernel Bytes where
  pread fd len off := .ok ⟨(fd.drop off).take len, List.length_take_le ..⟩
  pwrite fd data off :=
    if h : 0 < data.length then .ok (⟨data.length, h, Nat.le_refl _⟩, overwrite fd off data)
    else .error "Invalid argument"
  ftruncate fd size := .ok (resize fd size)
  fallocate fd mode off len :=
    if mode = fallocFlPunchHole ||| fallocFlKeepSize ∨ mode = fallocFlZeroRange ||| fallocFlKeepSize
    then .ok (Fstest.zeroRange fd off len)
    else if mode = fallocFlZeroRange ∨ mode = fallocFlWriteZeroes then
      .ok (overwrite fd off (List.replicate len 0))
    else if mode = fallocFlCollapseRange then .ok (removeRange fd off len)
    else if mode = fallocFlInsertRange then
      .ok (fd.take off ++ List.replicate len 0 ++ fd.drop off)
    else if mode = 0 ∨ mode = fallocFlUnshareRange then
      .ok (resize fd (max fd.length (off + len)))
    else .ok fd
  ficlonerange fd src len dest := .ok (overwrite fd dest ((fd.drop src).take len))
  copyFileRange fd src dest len :=
    .ok (⟨min len (fd.length - src), Nat.min_le_left ..⟩,
      overwrite fd dest ((fd.drop src).take (min len (fd.length - src))))
  mmap _ _ _ := .ok ()
  load fd off := byteAt fd off
  store fd off data := (overwrite fd off data).take fd.length
  msync _ := .ok ()
  fsync fd := fd
  fstatSize fd := .ok fd.length
  lseekEnd fd := fd.length

theorem ramFile_semantics : ByteSemantics ramFile id where
  pread fd len off := by
    refine ⟨_, rfl, ?_, fun h1 h2 => ?_⟩
    · simp only [id, List.length_take, List.length_drop]
      rw [List.take_eq_take_iff]
      simp
    · simp only [id] at h2
      simp only [List.length_take, List.length_drop]
      omega
  pwrite fd data off h := ⟨_, _, dif_pos h, by simp⟩
  ftruncate fd size := ⟨_, rfl, rfl⟩
  punchHole fd off len _ := ⟨_, rfl, rfl⟩
  zeroRangeKeep fd off len _ := ⟨_, rfl, rfl⟩
  zeroRange fd off len _ := ⟨_, rfl, rfl⟩
  writeZeroes fd off len _ := ⟨_, rfl, rfl⟩
  collapseRange fd off len _ _ _ _ := ⟨_, rfl, rfl⟩
  ficlonerange fd src len dest _ _ _ _ _ _ := ⟨_, rfl, rfl⟩
  copyFileRange fd src dest len h1 h2 _ := ⟨_, _, rfl, by simp only [id] at h2 ⊢; omega, rfl⟩
  mmap _ _ _ _ := rfl
  load _ _ _ := rfl
  store fd off data h := by
    simp only [id] at h ⊢
    exact List.take_of_length_le (by simp; omega)
  msync _ := rfl
  fsync _ := rfl
  fstatSize _ := rfl
  lseekEnd _ := rfl

/-! ## The start -/

/-- The lengths of the buffers are allocations a process can ask for. -/
structure Allocates (a : Args) : Prop where
  goodBuf : a.flen + a.writebdy + 8 ≤ isizeMax
  tempBuf : a.oplen + a.readbdy + 8 ≤ isizeMax
  checkBuf : a.flen + 8 ≤ isizeMax

section

variable {a : Args} {fd : σ} {pageSize : Nat} {rng : Nat → UInt32} {enabled : Op → Bool}

theorem start_of (h : Allocates a) : start a fd pageSize rng enabled =
    some (initial a fd pageSize rng enabled (List.replicate (a.flen + a.writebdy + 8) 0)) := by
  obtain ⟨h1, h2, h3⟩ := h
  have hvec : ∀ n ≤ isizeMax, vecZero n = some (List.replicate n 0) := fun n hn => if_pos hn
  have hadd : ∀ x y, x + y ≤ isizeMax → addU64 x y = some (x + y) := fun x y hxy =>
    addU64_of (by unfold u64Size isizeMax at *; omega)
  simp only [start, hadd a.flen a.writebdy (by omega), hadd _ 8 h1, hvec _ h1,
    hadd a.oplen a.readbdy (by omega), hadd _ 8 h2, hvec _ h2, hadd _ 8 h3, hvec _ h3,
    Option.bind_eq_bind, Option.bind_some]
  rfl

theorem start_some {s : Fsx σ} (h : start a fd pageSize rng enabled = some s) : Allocates a := by
  have hvec : ∀ {n bs}, vecZero n = some bs → n ≤ isizeMax := fun {n bs} hn => by
    unfold vecZero at hn
    split at hn
    · assumption
    · cases hn
  simp only [start, Option.bind_eq_bind, Option.bind_eq_some_iff, addU64_eq_some] at h
  obtain ⟨_, ⟨-, rfl⟩, _, ⟨-, rfl⟩, g, hg, _, ⟨-, rfl⟩, _, ⟨-, rfl⟩, t, ht, _, ⟨-, rfl⟩, c, hc, -⟩ := h
  exact ⟨hvec hg, hvec ht, hvec hc⟩

theorem sized_initial (h : Allocates a) :
    (initial a fd pageSize rng enabled (List.replicate (a.flen + a.writebdy + 8) 0)).Sized where
  goodBuf := by simp only [initial, List.length_replicate]; omega
  originalBuf := by simp [initial]
  cap := by simp only [initial, List.length_replicate]; exact h.goodBuf
  fileSize := Nat.zero_le _

end

/-! ## Runs of operations -/

/-- What an iteration has drawn before its operation: the operation with its raw offset and size,
the close-open flag, and the draws that are left. -/
structure Drawn where
  choice : Choice
  closeopen : Bool
  rng : Nat → UInt32

/-- The operation is counted before it is drawn. -/
def draw (s : Fsx σ) (d : Drawn) : Fsx σ :=
  { s with testcalls := s.testcalls + 1, closeopen := d.closeopen, rng := d.rng }

/-- An iteration of the loop that has drawn `d`. -/
def operation (a : Args) (K : Kernel σ) (s : Fsx σ) (d : Drawn) : Option (Fsx σ) :=
  performOp a K 0 (s.draw d) d.choice

/-- A sequence of operations, with the draws and the trims of the loop around each. -/
def runOps (a : Args) (K : Kernel σ) (s : Fsx σ) (ds : List Drawn) : Option (Fsx σ) :=
  ds.foldlM (operation a K) s

/-- What `chooseOp` does to the state is to count and to draw. -/
theorem draw_of_chooseOp {a : Args} {s s' : Fsx σ} {c : Choice} (h : chooseOp a s = some (c, s')) :
    s' = s.draw ⟨c, s'.closeopen, s'.rng⟩ := by
  have hclose : ∀ s : Fsx σ, ∃ b rng, drawCloseopen a s = { s with closeopen := b, rng } := by
    intro s
    unfold drawCloseopen
    split <;> exact ⟨_, _, rfl⟩
  have hsize : ∀ (s : Fsx σ) {n : Nat} {s' : Fsx σ}, drawSize a s = some (n, s') →
      ∃ rng, s' = { s with rng } := by
    intro s n s' h
    unfold drawSize at h
    split at h
    · cases h
      exact ⟨_, rfl⟩
    · simp only [Option.bind_eq_bind, Option.bind_eq_some_iff] at h
      obtain ⟨m, -, size, -, h⟩ := h
      cases h
      exact ⟨_, rfl⟩
  obtain ⟨b, rng, hb⟩ := hclose { s with testcalls := s.testcalls + 1 }
  simp only [chooseOp, hb, Option.bind_eq_bind, Option.bind_eq_some_iff] at h
  obtain ⟨⟨n, s₂⟩, hn, h⟩ := h
  obtain ⟨rng₂, rfl⟩ := hsize _ hn
  cases h
  rfl

/-- **The loop performs operations**: each of its runs is a sequence of them. -/
theorem runOps_of_runFor {a : Args} {K : Kernel σ} {n : Nat} {s s' : Fsx σ}
    (h : runFor a K 0 n s = some s') : ∃ ds, ds.length ≤ n ∧ runOps a K s ds = some s' := by
  induction n generalizing s with
  | zero => exact ⟨[], Nat.le_refl 0, h⟩
  | succ n ih =>
    rw [runFor] at h
    split at h
    · exact ⟨[], Nat.zero_le _, h⟩
    · obtain ⟨s₁, hstep, h⟩ := Option.bind_eq_some_iff.mp h
      obtain ⟨⟨c, s₂⟩, hc, hstep⟩ := Option.bind_eq_some_iff.mp hstep
      obtain ⟨ds, hlen, hds⟩ := ih h
      rw [draw_of_chooseOp hc] at hstep
      refine ⟨⟨c, s₂.closeopen, s₂.rng⟩ :: ds, Nat.succ_le_succ hlen, ?_⟩
      have hop : operation a K s ⟨c, s₂.closeopen, s₂.rng⟩ = some s₁ := hstep
      rw [runOps, List.foldlM_cons, hop]
      exact hds

/-- A truncate draws its target below `flen`, or has been given one that is no larger. -/
def TruncateFits (a : Args) (c : Choice) : Prop :=
  c.op = .truncate →
    if a.style = 0 then 0 < a.flen else c.size - c.size % max a.truncbdy 1 ≤ a.flen

/-- The choices of the lockstep: no fallocate or insert_range, a size that the options allow, and
no truncate past the maximum. -/
structure InLockstep (a : Args) (c : Choice) : Prop where
  op : c.op ≠ .fallocate ∧ c.op ≠ .insertRange
  size : c.size ≤ a.oplen
  truncate : TruncateFits a c

/-- What a run in lockstep keeps, from the options it started with. -/
structure Running (a : Args) (contents : σ → Bytes) (s : Fsx σ) : Prop where
  sized : s.Sized
  lockstep : Lockstep contents s
  maxfilelen : s.maxfilelen = a.flen
  truncbdy : s.a.truncbdy = a.truncbdy

theorem Running.draw {a : Args} {contents : σ → Bytes} {s : Fsx σ} (h : Running a contents s)
    (d : Drawn) : Running a contents (s.draw d) where
  sized := ⟨h.sized.goodBuf, h.sized.originalBuf, h.sized.cap, h.sized.fileSize⟩
  lockstep := ⟨h.lockstep.mirrors, h.lockstep.ok, h.lockstep.clean, h.lockstep.honest⟩
  maxfilelen := h.maxfilelen
  truncbdy := h.truncbdy

theorem performOp_running {a : Args} {K : Kernel σ} {contents : σ → Bytes}
    (hK : ByteSemantics K contents) (ha : Allocates a) {s : Fsx σ} (h : Running a contents s)
    {c : Choice} (hc : InLockstep a c) :
    ∃ s', performOp a K 0 s c = some s' ∧ Running a contents s' := by
  have hop : mirrored c.op = true := by
    cases hop : c.op <;> first | rfl | exact absurd hop hc.op.1 | exact absurd hop hc.op.2
  have hfit : StepFits a K s c := by
    unfold StepFits
    split
    · rename_i hop
      rw [h.maxfilelen, h.truncbdy]
      exact hc.truncate hop
    · rename_i hop
      exact absurd hop hc.op.2
    · trivial
  have hz : c.size ≤ isizeMax := by have := hc.size; have := ha.tempBuf; omega
  obtain ⟨s', hr, hk, hl⟩ := (performOp_safe (K := K) h.sized hz hfit hop).lockstep hK h.lockstep
  exact ⟨s', hr, hk.sized h.sized, hl, hk.maxfilelen.trans h.maxfilelen,
    by rw [hk.a]; exact h.truncbdy⟩

theorem runOps_running {a : Args} {K : Kernel σ} {contents : σ → Bytes}
    (hK : ByteSemantics K contents) (ha : Allocates a) {s : Fsx σ} (h : Running a contents s)
    (ds : List Drawn) (hds : ∀ d ∈ ds, InLockstep a d.choice) :
    ∃ s', runOps a K s ds = some s' ∧ Running a contents s' := by
  induction ds generalizing s with
  | nil => exact ⟨s, rfl, h⟩
  | cons d ds ih =>
    obtain ⟨hd, hrest⟩ := List.forall_mem_cons.mp hds
    obtain ⟨s₁, hr₁, h₁⟩ := performOp_running hK ha (h.draw d) hd
    obtain ⟨s₂, hr₂, h₂⟩ := ih h₁ hrest
    have hop : operation a K s d = some s₁ := hr₁
    refine ⟨s₂, ?_, h₂⟩
    rw [runOps, List.foldlM_cons, hop]
    exact hr₂

/-- **The shadow never diverges from the file.** After every sequence of operations on an empty
file the file is as long as `fileSize` says, its bytes are the first `fileSize` bytes of `goodBuf`,
and no failure is recorded. -/
theorem runOps_lockstep {K : Kernel σ} {contents : σ → Bytes} (hK : ByteSemantics K contents)
    (a : Args) (fd : σ) (pageSize : Nat) (rng : Nat → UInt32) (enabled : Op → Bool) (s : Fsx σ)
    (hempty : contents fd = []) (hclean : a.polluteEof = false) (hhonest : a.injectFailureAt = none)
    (hstart : start a fd pageSize rng enabled = some s) (ds : List Drawn)
    (hds : ∀ d ∈ ds, InLockstep a d.choice) :
    ∃ s', runOps a K s ds = some s' ∧ (contents s'.fd).length = s'.fileSize ∧
      contents s'.fd = s'.goodBuf.take s'.fileSize ∧ s'.failure = none := by
  have ha := start_some hstart
  rw [start_of ha, Option.some.injEq] at hstart
  subst hstart
  have hl : Lockstep contents
      (initial a fd pageSize rng enabled (List.replicate (a.flen + a.writebdy + 8) 0)) :=
    ⟨⟨by simp [initial, hempty], fun i hi => absurd hi (Nat.not_lt_zero i)⟩, rfl, hclean, hhonest⟩
  obtain ⟨s', hr, h⟩ := runOps_running hK ha ⟨sized_initial ha, hl, rfl, rfl⟩ ds hds
  have hfs := h.sized.fileSize
  have hgood := h.sized.goodBuf
  exact ⟨s', hr, h.lockstep.mirrors.length, h.lockstep.mirrors.eq_take (by omega), h.lockstep.ok⟩

/-- Draws of the loop that all have one generator left. -/
def drawn (c : Choice) : Drawn := ⟨c, false, fun n => UInt32.ofNat (7 * n + 3)⟩

/-- Two writes, a collapse that finds nothing to cut, a truncate and a clone on a file in memory. -/
theorem runOps_lockstep_ramFile : ∃ s',
    runOps { flen := 16, oplen := 8 } ramFile
      (initial { flen := 16, oplen := 8 } [] 4096 (fun n => UInt32.ofNat (7 * n + 3)) (fun _ => true)
        (List.replicate 25 0))
      (List.map drawn [⟨.write, 3, 8⟩, ⟨.write, 1, 4⟩, ⟨.collapseRange, 1, 8⟩, ⟨.truncate, 0, 0⟩,
        ⟨.cloneRange, 9, 4⟩]) = some s' ∧
    s'.fd.length = s'.fileSize ∧ s'.fd = s'.goodBuf.take s'.fileSize ∧ s'.failure = none :=
  runOps_lockstep ramFile_semantics { flen := 16, oplen := 8 } [] 4096
    (fun n => UInt32.ofNat (7 * n + 3)) (fun _ => true) _ rfl rfl rfl
    (start_of ⟨by decide, by decide, by decide⟩) _ fun d hd => by
      obtain ⟨c, hc, rfl⟩ := List.mem_map.mp hd
      simp only [List.mem_cons, List.not_mem_nil, or_false] at hc
      rcases hc with rfl | rfl | rfl | rfl | rfl <;>
        exact ⟨by decide, by decide, by unfold TruncateFits; decide⟩

end Fstest.Fsx
