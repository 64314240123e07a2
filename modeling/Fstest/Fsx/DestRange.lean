import Fstest.Fsx.Run

/-!
# The ranges of a clone or a copy, in machine words

`gen_dest_range` trims the source range to the file and tries destinations until one lies below the maximum
and apart from the source. Here it is computed in `u64` and `i64` words that wrap around, as in a release
build. The difference of two offsets is taken as `i64`, and its amount is never more than their distance
(`toNat_distance_le`), so the test for an overlap is right for all words. The trim adds the offset and the
size, and is right if the sum is a `u64` (`genDestRange_legal`). For the sizes that a run has, the result is
that of the model without words (`genDestRange_toNat`).
-/

namespace Fstest.Fsx.Word

/-- What `gen_dest_range` reads of the state. -/
structure State where
  fileSize : UInt64
  readbdy : UInt64
  writebdy : UInt64
  /-- The stream of the random numbers. -/
  rng : ℕ → UInt32

def rounddown (v bdy : UInt64) : UInt64 := if bdy = 0 then v else v - v % bdy

def trimOff (off size : UInt64) : UInt64 := if size = 0 then 0 else off % size

def trimOffLen (off len size : UInt64) : UInt64 × UInt64 :=
  let off := trimOff off size
  if size < off + len then (off, size - off) else (off, len)

/-- `i64::unsigned_abs`. -/
def unsignedAbs (x : Int64) : UInt64 := .ofNat x.toInt.natAbs

/-- `(d as i64 - src_offset as i64).unsigned_abs()`. -/
def distance (d src : UInt64) : UInt64 := unsignedAbs (d.toInt64 - src.toInt64)

/-- The destination that a try draws. -/
def drawn (maxRangeEnd wbdy : UInt64) (r : UInt32) : UInt64 :=
  let d := r.toUInt64
  let d := if maxRangeEnd = 0 then 0 else d % maxRangeEnd
  rounddown d wbdy

/-- What the tries come to. -/
structure Tried where
  size : UInt64
  dst : UInt64
  tries : ℕ
  rng : ℕ → UInt32

/-- The tries; the first argument is the number of those that draw a number. The one behind them gives up. -/
def destTries (maxRangeEnd wbdy src size dst : UInt64) : ℕ → (ℕ → UInt32) → Tried
  | 0, rng => { size := 0, dst, tries := 1, rng }
  | left + 1, rng =>
    let d := drawn maxRangeEnd wbdy (rng 0)
    let rng := fun n => rng (n + 1)
    if ¬ distance d src < size ∧ d + size ≤ maxRangeEnd then { size, dst := d, tries := 1, rng }
    else
      let r := destTries maxRangeEnd wbdy src size dst left rng
      { r with tries := r.tries + 1 }

/-- The ranges, and the tries that it has taken. -/
structure Dest extends Tried where
  src : UInt64

namespace State

def srcBdy (s : State) (bdyAlign : Bool) : UInt64 := if bdyAlign then max s.readbdy 1 else 4096

def dstBdy (s : State) (bdyAlign : Bool) : UInt64 := if bdyAlign then max s.writebdy 1 else 4096

def genDestRange (s : State) (bdyAlign : Bool) (maxRangeEnd src size dst : UInt64) : Dest :=
  let (src, size) := trimOffLen src size s.fileSize
  let bdy := s.srcBdy bdyAlign
  let src := rounddown src bdy
  let size := rounddown size bdy
  { destTries maxRangeEnd (s.dstBdy bdyAlign) src size dst 29 s.rng with src }

end State

/-! ## Words and numbers -/

variable {off len size d src dst bdy wbdy maxEnd : UInt64}

theorem toNat_rounddown (v bdy : UInt64) :
    (rounddown v bdy).toNat = Fsx.rounddown v.toNat bdy.toNat := by
  rw [rounddown, Fsx.rounddown]
  by_cases h : bdy = 0
  · rw [if_pos h, if_pos (by rw [h]; rfl)]
  · have hne : bdy.toNat ≠ 0 := fun hzero => h (UInt64.toNat_inj.mp hzero)
    have hle : v % bdy ≤ v := UInt64.le_iff_toNat_le.mpr (by rw [UInt64.toNat_mod]; exact Nat.mod_le ..)
    rw [if_neg h, if_neg hne, UInt64.toNat_sub_of_le _ _ hle, UInt64.toNat_mod]

theorem toNat_trimOff (off size : UInt64) : (trimOff off size).toNat = Fsx.trimOff off.toNat size.toNat := by
  rw [trimOff, Fsx.trimOff]
  by_cases h : size = 0
  · rw [if_pos h, if_pos (by rw [h]; rfl)]
    rfl
  · have hne : size.toNat ≠ 0 := fun hzero => h (UInt64.toNat_inj.mp hzero)
    rw [if_neg h, if_neg hne, UInt64.toNat_mod]

/-- A trim whose sum is a word. -/
theorem toNat_trimOffLen (h : (trimOff off size).toNat + len.toNat < 2 ^ 64) :
    (trimOffLen off len size).1 = trimOff off size ∧
      (trimOffLen off len size).2.toNat = min len.toNat (size.toNat - (trimOff off size).toNat) := by
  have hle : (trimOff off size).toNat ≤ size.toNat := by
    rw [toNat_trimOff]
    exact trimOff_le ..
  have hadd : (trimOff off size + len).toNat = (trimOff off size).toNat + len.toNat := by
    rw [UInt64.toNat_add, Nat.mod_eq_of_lt h]
  simp only [trimOffLen]
  by_cases hlt : size < trimOff off size + len
  · rw [if_pos hlt]
    have hlt' := UInt64.lt_iff_toNat_lt.mp hlt
    refine ⟨rfl, ?_⟩
    dsimp only
    rw [UInt64.toNat_sub_of_le _ _ (UInt64.le_iff_toNat_le.mpr hle)]
    omega
  · rw [if_neg hlt]
    have hge := UInt64.le_iff_toNat_le.mp (UInt64.not_lt.mp hlt)
    refine ⟨rfl, ?_⟩
    dsimp only
    omega

/-- The difference of the words is that of the numbers, wrapped around. -/
theorem toNat_distance (d src : UInt64) :
    (distance d src).toNat = (((d.toNat : ℤ) - src.toNat).bmod (2 ^ 64)).natAbs := by
  have hd : d.toInt64.toInt = (d.toNat : ℤ).bmod (2 ^ 64) := BitVec.toInt_eq_toNat_bmod _
  have hsrc : src.toInt64.toInt = (src.toNat : ℤ).bmod (2 ^ 64) := BitVec.toInt_eq_toNat_bmod _
  have hlt : (((d.toNat : ℤ) - src.toNat).bmod (2 ^ 64)).natAbs < 2 ^ 64 := by
    rw [Int.bmod_def]
    split <;> omega
  rw [distance, unsignedAbs, Int64.toInt_sub, hd, hsrc, Int.bmod_sub_bmod, Int.sub_bmod_bmod]
  exact Nat.mod_eq_of_lt hlt

theorem toNat_distance_le (d src : UInt64) :
    (distance d src).toNat ≤ 2 ^ 63 ∧ (distance d src).toNat ≤ ((d.toNat : ℤ) - src.toNat).natAbs := by
  have hd := d.toNat_lt
  have hsrc := src.toNat_lt
  rw [toNat_distance, Int.bmod_def]
  split <;> omega

/-- Below `2 ^ 63` the distance is exact. -/
theorem toNat_distance_of_lt (hd : d.toNat < 2 ^ 63) (hsrc : src.toNat < 2 ^ 63) :
    (distance d src).toNat = ((d.toNat : ℤ) - src.toNat).natAbs := by
  rw [toNat_distance, Int.bmod_def]
  split <;> omega

/-! ## The tries -/

theorem toNat_drawn (maxEnd wbdy : UInt64) (r : UInt32) :
    (drawn maxEnd wbdy r).toNat =
      Fsx.rounddown (if maxEnd.toNat = 0 then 0 else r.toNat % maxEnd.toNat) wbdy.toNat := by
  rw [drawn, toNat_rounddown]
  by_cases h : maxEnd = 0
  · rw [if_pos h, if_pos (by rw [h]; rfl)]
    rfl
  · have hne : maxEnd.toNat ≠ 0 := fun hzero => h (UInt64.toNat_inj.mp hzero)
    rw [if_neg h, if_neg hne, UInt64.toNat_mod, UInt32.toNat_toUInt64]

theorem toNat_drawn_lt (maxEnd wbdy : UInt64) (r : UInt32) : (drawn maxEnd wbdy r).toNat < 2 ^ 32 := by
  have hr := r.toNat_lt
  rw [toNat_drawn]
  refine Nat.lt_of_le_of_lt (rounddown_le ..) ?_
  split
  · exact Nat.two_pow_pos 32
  · exact Nat.lt_of_le_of_lt (Nat.mod_le ..) hr

/-- A destination that passes the tests. -/
theorem fits_iff {r : UInt32} (hapart : ¬ distance (drawn maxEnd wbdy r) src < size) :
    drawn maxEnd wbdy r + size ≤ maxEnd ↔ (drawn maxEnd wbdy r).toNat + size.toNat ≤ maxEnd.toNat := by
  have hd := toNat_drawn_lt maxEnd wbdy r
  have hsize := UInt64.le_iff_toNat_le.mp (UInt64.not_lt.mp hapart)
  have hmax := (toNat_distance_le (drawn maxEnd wbdy r) src).1
  rw [UInt64.le_iff_toNat_le, UInt64.toNat_add, Nat.mod_eq_of_lt (by omega)]

/-- What holds of a destination that is taken. -/
structure Apart (maxEnd wbdy src size dst : UInt64) : Prop where
  aligned : wbdy.toNat ∣ dst.toNat
  fits : dst.toNat + size.toNat ≤ maxEnd.toNat
  disjoint : src.toNat + size.toNat ≤ dst.toNat ∨ dst.toNat + size.toNat ≤ src.toNat

/-- **The tries end**, and keep the size only with a destination that is apart from the source. -/
theorem destTries_spec (maxEnd src size dst : UInt64) (hw : wbdy.toNat ≠ 0) (left : ℕ) (rng : ℕ → UInt32) :
    (destTries maxEnd wbdy src size dst left rng).tries ≤ left + 1 ∧
      ((destTries maxEnd wbdy src size dst left rng).size = 0 ∨
        (destTries maxEnd wbdy src size dst left rng).size = size ∧
          Apart maxEnd wbdy src size (destTries maxEnd wbdy src size dst left rng).dst) := by
  induction left generalizing rng with
  | zero => exact ⟨Nat.le_refl 1, .inl rfl⟩
  | succ left ih =>
    simp only [destTries]
    split
    · rename_i h
      obtain ⟨hapart, hfits⟩ := h
      refine ⟨Nat.le_add_left .., .inr ⟨rfl, ?_, (fits_iff hapart).mp hfits, ?_⟩⟩
      · rw [toNat_drawn]
        exact dvd_rounddown hw _
      · have hsize := UInt64.le_iff_toNat_le.mp (UInt64.not_lt.mp hapart)
        have hdist := (toNat_distance_le (drawn maxEnd wbdy (rng 0)) src).2
        dsimp only
        omega
    · exact ⟨Nat.succ_le_succ (ih fun n => rng (n + 1)).1, (ih fun n => rng (n + 1)).2⟩

/-! ## The ranges -/

theorem toNat_max_one_ne_zero (v : UInt64) : (max v 1).toNat ≠ 0 := by
  rw [show max v 1 = if v ≤ 1 then 1 else v from rfl]
  split
  · decide
  · rename_i h
    have hlt := UInt64.lt_iff_toNat_lt.mp (UInt64.not_le.mp h)
    exact Nat.ne_of_gt (Nat.lt_of_le_of_lt (Nat.zero_le _) hlt)

theorem State.srcBdy_ne_zero (s : State) (bdyAlign : Bool) : (s.srcBdy bdyAlign).toNat ≠ 0 := by
  rw [srcBdy]
  split
  · exact toNat_max_one_ne_zero _
  · decide

theorem State.dstBdy_ne_zero (s : State) (bdyAlign : Bool) : (s.dstBdy bdyAlign).toNat ≠ 0 := by
  rw [dstBdy]
  split
  · exact toNat_max_one_ne_zero _
  · decide

/-- The ranges that a clone or a copy needs. -/
structure Legal (s : State) (bdyAlign : Bool) (maxEnd : UInt64) (r : Dest) : Prop where
  srcAligned : (s.srcBdy bdyAlign).toNat ∣ r.src.toNat
  sizeAligned : (s.srcBdy bdyAlign).toNat ∣ r.size.toNat
  dstAligned : (s.dstBdy bdyAlign).toNat ∣ r.dst.toNat
  src_le : r.src.toNat + r.size.toNat ≤ s.fileSize.toNat
  dst_le : r.dst.toNat + r.size.toNat ≤ maxEnd.toNat
  disjoint : r.src.toNat + r.size.toNat ≤ r.dst.toNat ∨ r.dst.toNat + r.size.toNat ≤ r.src.toNat

/-- What the tries start from. -/
theorem State.genDestRange_eq (s : State) (bdyAlign : Bool) (maxEnd src size dst : UInt64)
    (h : (trimOff src s.fileSize).toNat + size.toNat < 2 ^ 64) :
    ∃ n : UInt64, n.toNat = Fsx.rounddown
        (min size.toNat (s.fileSize.toNat - (trimOff src s.fileSize).toNat)) (s.srcBdy bdyAlign).toNat ∧
      s.genDestRange bdyAlign maxEnd src size dst =
        { destTries maxEnd (s.dstBdy bdyAlign) (rounddown (trimOff src s.fileSize) (s.srcBdy bdyAlign)) n dst 29
            s.rng with src := rounddown (trimOff src s.fileSize) (s.srcBdy bdyAlign) } := by
  obtain ⟨hoff, hlen⟩ := toNat_trimOffLen h
  refine ⟨rounddown (trimOffLen src size s.fileSize).2 (s.srcBdy bdyAlign), ?_, ?_⟩
  · rw [toNat_rounddown, hlen]
  · rw [← hoff]
    rfl

/-- **The ranges are legal** for every file, boundaries, maximum and random stream if the trimmed offset and
the size have a sum that is a word. There are no more than 30 tries. -/
theorem genDestRange_legal (s : State) (bdyAlign : Bool) (maxEnd src size dst : UInt64)
    (h : (trimOff src s.fileSize).toNat + size.toNat < 2 ^ 64) :
    (s.genDestRange bdyAlign maxEnd src size dst).tries ≤ 30 ∧
      ((s.genDestRange bdyAlign maxEnd src size dst).size = 0 ∨
        Legal s bdyAlign maxEnd (s.genDestRange bdyAlign maxEnd src size dst)) := by
  obtain ⟨n, hn, heq⟩ := s.genDestRange_eq bdyAlign maxEnd src size dst h
  rw [heq]
  obtain ⟨htries, hsize⟩ := destTries_spec maxEnd
    (rounddown (trimOff src s.fileSize) (s.srcBdy bdyAlign)) n dst (s.dstBdy_ne_zero bdyAlign) 29 s.rng
  refine ⟨htries, hsize.imp_right fun ⟨hkept, hapart⟩ => ?_⟩
  have hdvd : (s.srcBdy bdyAlign).toNat ∣ n.toNat := by
    rw [hn]
    exact dvd_rounddown (s.srcBdy_ne_zero bdyAlign) _
  have hsrc : (rounddown (trimOff src s.fileSize) (s.srcBdy bdyAlign)).toNat ≤
      (trimOff src s.fileSize).toNat := by
    rw [toNat_rounddown]
    exact rounddown_le ..
  have hoff : (trimOff src s.fileSize).toNat ≤ s.fileSize.toNat := by
    rw [toNat_trimOff]
    exact trimOff_le ..
  have hle : n.toNat ≤ s.fileSize.toNat - (trimOff src s.fileSize).toNat := by
    rw [hn]
    exact Nat.le_trans (rounddown_le ..) (Nat.min_le_right ..)
  constructor
  · rw [toNat_rounddown]
    exact dvd_rounddown (s.srcBdy_ne_zero bdyAlign) _
  · rw [hkept]
    exact hdvd
  · exact hapart.aligned
  · rw [hkept]
    calc _ ≤ (trimOff src s.fileSize).toNat + (s.fileSize.toNat - (trimOff src s.fileSize).toNat) :=
          Nat.add_le_add hsrc hle
      _ = s.fileSize.toNat := Nat.add_sub_of_le hoff
  · rw [hkept]
    exact hapart.fits
  · rw [hkept]
    exact hapart.disjoint

def sampleState : State where
  fileSize := 8192
  readbdy := 1
  writebdy := 1
  rng := fun _ => 4096

theorem genDestRange_sample :
    (sampleState.genDestRange false 65536 0 4096 0).tries ≤ 30 ∧
      ((sampleState.genDestRange false 65536 0 4096 0).size = 0 ∨
        Legal sampleState false 65536 (sampleState.genDestRange false 65536 0 4096 0)) :=
  genDestRange_legal sampleState false 65536 0 4096 0 (by decide)

/-- A file of `2 ^ 63 + 1` bytes: the sum of offset and size is 0, and the size stays. -/
theorem genDestRange_wraps :
    let s : State := { fileSize := 0x8000000000000001, readbdy := 1, writebdy := 1, rng := fun _ => 0 }
    let r := s.genDestRange true 0xFFFFFFFFFFFFFFFF 0x8000000000000000 0x8000000000000000 0
    r.size = 0x8000000000000000 ∧ r.src = 0x8000000000000000 ∧ r.dst = 0 ∧
      ¬ (r.size = 0 ∨ Legal s true 0xFFFFFFFFFFFFFFFF r) := by
  refine ⟨by decide +kernel, by decide +kernel, by decide +kernel, ?_⟩
  rintro (hzero | hlegal)
  · exact absurd hzero (by decide +kernel)
  · exact absurd hlegal.src_le (by decide +kernel)

/-! ## Without words -/

section Numbers

variable {σ : Type} {f : Fsx σ}

/-- The size, the destination and the state of the model without words. -/
def Tried.numbers (r : Tried) (f : Fsx σ) : ℕ × ℕ × Fsx σ := (r.size.toNat, r.dst.toNat, { f with rng := r.rng })

/-- The tries on the numbers that the words stand for. -/
theorem destTries_toNat (maxEnd wbdy src size dst : UInt64) (hsrc : src.toNat < 2 ^ 63)
    (hsize : size.toNat < 2 ^ 63) (left : ℕ) (f : Fsx σ) :
    Fsx.destTries maxEnd.toNat wbdy.toNat src.toNat size.toNat dst.toNat left f =
      some ((destTries maxEnd wbdy src size dst left f.rng).numbers f) := by
  induction left generalizing f with
  | zero => rfl
  | succ left ih =>
    have hd := toNat_drawn_lt maxEnd wbdy (f.rng 0)
    have hdrawn : Fsx.rounddown (if maxEnd.toNat = 0 then 0 else f.rnd.1 % maxEnd.toNat) wbdy.toNat =
        (drawn maxEnd wbdy (f.rng 0)).toNat := (toNat_drawn ..).symm
    have hdist := toNat_distance_of_lt (d := drawn maxEnd wbdy (f.rng 0)) (by omega) hsrc
    have hretry (h : ¬ (¬ distance (drawn maxEnd wbdy (f.rng 0)) src < size ∧
        drawn maxEnd wbdy (f.rng 0) + size ≤ maxEnd)) :
        (destTries maxEnd wbdy src size dst (left + 1) f.rng).numbers f =
          (destTries maxEnd wbdy src size dst left f.rnd.2.rng).numbers f.rnd.2 := by
      rw [destTries]
      dsimp only
      rw [if_neg h]
      rfl
    simp only [Fsx.destTries, hdrawn, ← hdist]
    by_cases hover : distance (drawn maxEnd wbdy (f.rng 0)) src < size
    · rw [hretry fun h => h.1 hover, ← ih, if_pos (decide_eq_true (UInt64.lt_iff_toNat_lt.mp hover))]
      rfl
    · have hover' : ¬ (distance (drawn maxEnd wbdy (f.rng 0)) src).toNat < size.toNat :=
        fun h => hover (UInt64.lt_iff_toNat_lt.mpr h)
      rw [if_neg (by rwa [decide_eq_true_iff]), addU64_of (by unfold u64Size; omega)]
      by_cases hfits : (drawn maxEnd wbdy (f.rng 0)).toNat + size.toNat ≤ maxEnd.toNat
      · have htake : ¬ distance (drawn maxEnd wbdy (f.rng 0)) src < size ∧
            drawn maxEnd wbdy (f.rng 0) + size ≤ maxEnd := ⟨hover, (fits_iff hover).mpr hfits⟩
        simp only [destTries, if_pos htake, Option.map_some, decide_eq_true hfits, Option.bind_eq_bind,
          Option.bind_some, if_true]
        rfl
      · rw [hretry fun h => hfits ((fits_iff hover).mp h.2), ← ih]
        simp only [Option.map_some, decide_eq_false hfits, Option.bind_eq_bind, Option.bind_some,
          Bool.false_eq_true, if_false]

/-- The words of a state of a run. -/
structure Represents (s : State) (f : Fsx σ) : Prop where
  fileSize : s.fileSize.toNat = f.fileSize
  readbdy : s.readbdy.toNat = f.a.readbdy
  writebdy : s.writebdy.toNat = f.a.writebdy
  rng : s.rng = f.rng

theorem toNat_max_one (v : UInt64) : (max v 1).toNat = max v.toNat 1 := by
  rw [show max v 1 = if v ≤ 1 then 1 else v from rfl]
  split
  · rename_i h
    exact (Nat.max_eq_right (UInt64.le_iff_toNat_le.mp h)).symm
  · rename_i h
    exact (Nat.max_eq_left (Nat.le_of_lt (UInt64.lt_iff_toNat_lt.mp (UInt64.not_le.mp h)))).symm

/-- **The words compute the numbers** for every file and size below `2 ^ 63`. -/
theorem genDestRange_toNat {s : State} (hs : Represents s f) (bdyAlign : Bool)
    (hfile : f.fileSize < 2 ^ 63) (hsize : size.toNat < 2 ^ 63) :
    Fsx.genDestRange f bdyAlign maxEnd.toNat src.toNat size.toNat dst.toNat =
      some ((s.genDestRange bdyAlign maxEnd src size dst).src.toNat,
        (s.genDestRange bdyAlign maxEnd src size dst).size.toNat,
        (s.genDestRange bdyAlign maxEnd src size dst).dst.toNat,
        { f with rng := (s.genDestRange bdyAlign maxEnd src size dst).rng }) := by
  obtain ⟨hrfile, hrread, hrwrite, hrng⟩ := hs
  have hbdy : (if bdyAlign then max f.a.readbdy 1 else 4096) = (s.srcBdy bdyAlign).toNat := by
    rw [State.srcBdy, ← hrread]
    split
    · exact (toNat_max_one _).symm
    · rfl
  have hwbdy : (if bdyAlign then max f.a.writebdy 1 else 4096) = (s.dstBdy bdyAlign).toNat := by
    rw [State.dstBdy, ← hrwrite]
    split
    · exact (toNat_max_one _).symm
    · rfl
  have hoff : (trimOff src s.fileSize).toNat = Fsx.trimOff src.toNat f.fileSize := by
    rw [toNat_trimOff, hrfile]
  have hle := trimOff_le src.toNat f.fileSize
  have hsum : (trimOff src s.fileSize).toNat + size.toNat < 2 ^ 64 := by omega
  obtain ⟨n, hn, heq⟩ := s.genDestRange_eq bdyAlign maxEnd src size dst hsum
  have htrim : Fsx.trimOffLen src.toNat size.toNat f.fileSize = some (Fsx.trimOff src.toNat f.fileSize,
      min size.toNat (f.fileSize - Fsx.trimOff src.toNat f.fileSize)) := by
    simp only [Fsx.trimOffLen]
    rw [addU64_of (by rw [← hoff]; exact hsum)]
    simp only [Option.bind_eq_bind, Option.bind_some]
    split
    · rw [subU64_of hle, Option.bind_some, Nat.min_eq_right (by omega)]
      rfl
    · rw [Nat.min_eq_left (by omega)]
      rfl
  have hsrc : Fsx.rounddown (Fsx.trimOff src.toNat f.fileSize) (s.srcBdy bdyAlign).toNat =
      (rounddown (trimOff src s.fileSize) (s.srcBdy bdyAlign)).toNat := by
    rw [toNat_rounddown, hoff]
  rw [hrfile, hoff] at hn
  have hround := rounddown_le (Fsx.trimOff src.toNat f.fileSize) (s.srcBdy bdyAlign).toNat
  have hnlt : n.toNat < 2 ^ 63 := by
    rw [hn]
    exact Nat.lt_of_le_of_lt (rounddown_le ..) (by omega)
  have htries := destTries_toNat maxEnd (s.dstBdy bdyAlign)
    (rounddown (trimOff src s.fileSize) (s.srcBdy bdyAlign)) n dst (by omega) hnlt 29 f
  simp only [Fsx.genDestRange, htrim, Option.bind_eq_bind, Option.bind_some, hbdy, hwbdy, hsrc, ← hn, htries,
    heq, hrng]
  rfl

end Numbers

end Fstest.Fsx.Word
