import Fstest.Lib.Lagged
import Mathlib.Data.BitVec
import Mathlib.Logic.Function.Iterate

/-!
# The random numbers of fsx

`GlibcRandom` is the generator of the source, `GlibcRandom.output` the numbers that it returns.
`glibc` is the sequence behind `random()` of type 3, which the source replicates.

The ring of the source has 34 slots, and the slot that a new value overwrites is the one it adds to. So
the longer lag is 34 (`ring_lagged`), where it is 31 for `random()`. The first 31 values are the same,
and all of them are among the 310 that are dropped. Later on there is no seed for which the two agree
(`output_never_glibc`).
-/

namespace Fstest.Fsx

/-! ## The generator -/

/-- One step of the initialization. The values are `i32`, the products `i64`. -/
def schrage (word : BitVec 32) : BitVec 32 :=
  let hi := word.toInt.tdiv 127773
  let lo := word.toInt.tmod 127773
  let word := 16807 * lo - 2836 * hi
  BitVec.ofInt 32 (if word ≤ 0 then word + 2147483647 else word)

structure GlibcRandom where
  st : Vector (BitVec 32) 34
  fp : Fin 34
  rp : Fin 34

namespace GlibcRandom

/-- The ring before the first step: the last three slots repeat the first three. -/
def seeded (seed : BitVec 32) : Vector (BitVec 32) 34 :=
  Vector.ofFn fun i => schrage^[if i < 31 then i else i - 31] seed

def advance (i : Fin 34) : Fin 34 := if h : i.1 + 1 = 34 then 0 else ⟨i.1 + 1, by omega⟩

/-- `GlibcRandom::next`, with the generator after it. -/
def next (g : GlibcRandom) : BitVec 32 × GlibcRandom :=
  let v := g.st[g.fp] + g.st[g.rp]
  (v >>> 1, ⟨g.st.set g.fp v, advance g.fp, advance g.rp⟩)

/-- The generator after it has returned `n` values. -/
def skip (n : ℕ) (g : GlibcRandom) : GlibcRandom := (fun g => g.next.2)^[n] g

/-- `GlibcRandom::new` -/
def new (seed : BitVec 32) : GlibcRandom := skip 310 ⟨seeded seed, 3, 0⟩

/-- The values that a new generator returns. -/
def output (seed : BitVec 32) (n : ℕ) : BitVec 32 := ((new seed).skip n).next.1

end GlibcRandom

/-! ## What it replicates -/

/-- The sequence behind `random()` of type 3 for a seed that is not zero. -/
def glibc (seed : BitVec 32) : ℕ → BitVec 32
  | 0 => seed
  | i + 1 =>
    if i + 1 ≤ 30 then BitVec.ofInt 32 (16807 * (glibc seed i).toInt % 2147483647)
    else if i + 1 ≤ 33 then glibc seed (i + 1 - 31)
    else glibc seed (i + 1 - 3) + glibc seed (i + 1 - 31)
decreasing_by all_goals omega

/-- The values of the source's ring in the order in which they are overwritten: the initial ones, from
slot 3 on, and then the new ones. -/
def ring (seed : BitVec 32) (n : ℕ) : BitVec 32 :=
  if n < 34 then (GlibcRandom.seeded seed)[(n + 3) % 34] else ring seed (n - 34) + ring seed (n - 3)

/-! ## The ring -/

def slot (n : ℕ) : Fin 34 := Fin.ofNat 34 n

theorem slot_eq_iff {m n : ℕ} : slot m = slot n ↔ m % 34 = n % 34 := Fin.ext_iff

theorem advance_slot (n : ℕ) : GlibcRandom.advance (slot n) = slot (n + 1) := by
  have hval : (slot n).1 = n % 34 := rfl
  unfold GlibcRandom.advance
  split
  · exact Fin.ext (show 0 = (n + 1) % 34 by omega)
  · exact Fin.ext (show (slot n).1 + 1 = (n + 1) % 34 by omega)

theorem ring_add (seed : BitVec 32) (n : ℕ) : ring seed (n + 34) = ring seed n + ring seed (n + 31) := by
  rw [ring, if_neg (by omega), Nat.add_sub_cancel]
  rfl

theorem get_set {α : Type*} {n : ℕ} (v : Vector α n) (i j : Fin n) (x : α) :
    (v.set i x).get j = if i = j then x else v.get j := by
  change (v.set i x)[j.1] = if i = j then x else v[j.1]
  rw [Vector.getElem_set]
  simp only [Fin.ext_iff]

/-- The generator after `k` steps. -/
structure Tracks (seed : BitVec 32) (k : ℕ) (g : GlibcRandom) : Prop where
  st : ∀ i < 34, g.st.get (slot (k + i + 3)) = ring seed (k + i)
  fp : g.fp = slot (k + 3)
  rp : g.rp = slot k

variable {seed : BitVec 32} {k n : ℕ} {g : GlibcRandom}

theorem tracks_seeded (seed : BitVec 32) : Tracks seed 0 ⟨GlibcRandom.seeded seed, 3, 0⟩ where
  st i hi := by
    rw [ring, if_pos (by omega), Nat.zero_add]
    rfl
  fp := rfl
  rp := rfl

/-- A step returns the next value of the ring and puts it in place of the oldest one. -/
theorem Tracks.next (h : Tracks seed k g) :
    g.next.1 = ring seed (k + 34) >>> 1 ∧ Tracks seed (k + 1) g.next.2 := by
  have hv : g.st.get g.fp + g.st.get g.rp = ring seed (k + 34) := by
    have hr := h.st 31 (by omega)
    rw [show slot (k + 31 + 3) = slot k from slot_eq_iff.mpr (by omega)] at hr
    rw [h.fp, h.rp, ring_add, hr]
    exact congrArg (· + _) (h.st 0 (by omega))
  refine ⟨?_, fun i hi => ?_, ?_, ?_⟩
  · change (g.st.get g.fp + g.st.get g.rp) >>> 1 = _
    rw [hv]
  · change (g.st.set g.fp (g.st.get g.fp + g.st.get g.rp)).get (slot (k + 1 + i + 3)) = _
    rw [get_set, hv, h.fp]
    split
    · rename_i hslot
      have := slot_eq_iff.mp hslot
      congr 1
      omega
    · rename_i hslot
      have hi33 : i ≠ 33 := fun heq => hslot (slot_eq_iff.mpr (by omega))
      have hold := h.st (i + 1) (by omega)
      rw [show k + (i + 1) = k + 1 + i by omega] at hold
      exact hold
  · exact (congrArg GlibcRandom.advance h.fp).trans (advance_slot _)
  · exact (congrArg GlibcRandom.advance h.rp).trans (advance_slot _)

theorem Tracks.skip (h : Tracks seed k g) (n : ℕ) : Tracks seed (k + n) (g.skip n) := by
  induction n with
  | zero => exact h
  | succ n ih =>
    rw [GlibcRandom.skip, Function.iterate_succ_apply']
    exact ih.next.2

/-- **What a new generator returns.** -/
theorem output_eq (seed : BitVec 32) (n : ℕ) :
    GlibcRandom.output seed n = ring seed (n + 344) >>> 1 := by
  have h := ((tracks_seeded seed).skip 310).skip n
  rw [GlibcRandom.output, GlibcRandom.new, h.next.1]
  congr 2
  omega

/-! ## The two sequences -/

theorem ring_lagged (seed : BitVec 32) : Lagged 3 31 0 (ring seed) := fun n _ => by
  rw [show n + 3 + 31 = n + 34 from rfl, ring_add, add_comm]

theorem glibc_succ (seed : BitVec 32) (n : ℕ) : glibc seed (n + 1) =
    if n + 1 ≤ 30 then BitVec.ofInt 32 (16807 * (glibc seed n).toInt % 2147483647)
    else if n + 1 ≤ 33 then glibc seed (n + 1 - 31)
    else glibc seed (n + 1 - 3) + glibc seed (n + 1 - 31) := by
  rw [glibc]

theorem glibc_lagged (seed : BitVec 32) : Lagged 3 28 3 (glibc seed) := fun n hn => by
  rw [show n + 3 + 28 = n + 30 + 1 from rfl, glibc_succ, if_neg (by omega), if_neg (by omega)]
  congr 1

/-- The first three values are repeated. -/
theorem glibc_repeat (seed : BitVec 32) (hn : n < 3) : glibc seed (n + 31) = glibc seed n := by
  rw [show n + 31 = n + 30 + 1 from rfl, glibc_succ, if_neg (by omega), if_pos (by omega)]
  congr 1

/-- Words that differ in their last bit only. -/
theorem within_of_shiftRight {v w : BitVec 32} (h : v >>> 1 = w >>> 1) : Within 1 (v - w) := by
  have hdiv : v.toNat / 2 = w.toNat / 2 := by
    have hnat := congrArg BitVec.toNat h
    simpa only [BitVec.toNat_ushiftRight, Nat.shiftRight_succ, Nat.shiftRight_zero] using hnat
  refine ⟨(v.toNat : ℤ) - w.toNat, by omega, ?_⟩
  rw [Int.cast_sub, Int.cast_natCast, Int.cast_natCast, BitVec.natCast_eq_ofNat,
    BitVec.natCast_eq_ofNat, BitVec.ofNat_toNat, BitVec.ofNat_toNat, BitVec.setWidth_eq,
    BitVec.setWidth_eq]

/-- Words that are small integers are so as signed ones. -/
theorem natAbs_toInt_le {B : ℕ} {v : BitVec 32} (h : Within B v) (hB : B < 2 ^ 31) :
    v.toInt.natAbs ≤ B := by
  obtain ⟨z, hz, rfl⟩ := h
  rw [BitVec.toInt_intCast, Int.bmod_eq_of_le (by omega) (by omega)]
  exact hz

/-- If the generator agreed with `random()`, all values of `random()` would be small. -/
theorem within_of_output_eq (h : ∀ n, GlibcRandom.output seed n = glibc seed (n + 344) >>> 1) (n : ℕ) :
    Within 12288 (glibc seed n) := by
  have hclose : ∀ n, 344 ≤ n → Within 1 (glibc seed n - ring seed n) := fun n hn => by
    have heq := h (n - 344)
    rw [output_eq, Nat.sub_add_cancel hn] at heq
    exact within_of_shiftRight heq.symm
  have hlate : ∀ n, 3 ≤ n → 316 ≤ n → Within 3 (glibc seed n) := fun n hn hN =>
    (glibc_lagged seed).within_of_close ((ring_lagged seed).mono (Nat.zero_le 3)) hclose hn (by omega)
  have hback : ∀ n, 3 ≤ n → Within 12288 (glibc seed n) := fun n hn =>
    (glibc_lagged seed).within_back hlate 12 hn (by omega)
  by_cases hn : n < 3
  · rw [← glibc_repeat seed hn]
    exact hback _ (by omega)
  · exact hback n (by omega)

/-- A generator that agrees with `random()` would have to start with small values, and no seed does:
the step that follows it is too large. -/
theorem exists_output_ne (h : seed ≠ 0) :
    ∃ n, GlibcRandom.output seed n ≠ glibc seed (n + 344) >>> 1 := by
  by_contra hall
  simp only [not_exists, ne_eq, not_not] at hall
  have hseed := natAbs_toInt_le (within_of_output_eq hall 0) (by decide)
  have hnext := natAbs_toInt_le (within_of_output_eq hall 1) (by decide)
  rw [glibc] at hseed
  rw [glibc_succ, if_pos (by omega), glibc, BitVec.toInt_ofInt, Int.bmod_eq_of_le (by omega) (by omega)]
    at hnext
  have hne : seed.toInt ≠ 0 := fun hzero => h (BitVec.eq_of_toInt_eq hzero)
  rcases lt_trichotomy (16807 * seed.toInt / 2147483647) 0 with hneg | hzero | hpos <;> omega

/-- **For no seed does the generator return what `random()` does.** -/
theorem output_never_glibc (seed : BitVec 32) (h : seed ≠ 0) :
    ¬ ∀ n, GlibcRandom.output seed n = glibc seed (n + 344) >>> 1 := fun hall =>
  let ⟨n, hn⟩ := exists_output_ne h
  hn (hall n)

theorem output_one_never_glibc :
    (1 : BitVec 32) ≠ 0 ∧ ¬ ∀ n, GlibcRandom.output 1 n = glibc 1 (n + 344) >>> 1 :=
  ⟨by decide, output_never_glibc 1 (by decide)⟩

/-- One step of the initialization of `random()`. -/
def lehmer (v : BitVec 32) : BitVec 32 := BitVec.ofInt 32 (16807 * v.toInt % 2147483647)

theorem glibc_eq_lehmer (hn : n ≤ 30) : glibc seed n = lehmer^[n] seed := by
  induction n with
  | zero => rw [glibc, Function.iterate_zero, id]
  | succ n ih => rw [glibc_succ, if_pos hn, ih (by omega), Function.iterate_succ_apply', lehmer]

/-- The terms from 3 on of which all later ones are made. -/
theorem window_glibc (seed : BitVec 32) : window 3 31 (glibc seed) =
    (List.range 31).map fun i => lehmer^[if i < 28 then 3 + i else i - 28] seed := by
  refine List.map_congr_left fun i hi => ?_
  have hi := List.mem_range.mp hi
  split
  · exact glibc_eq_lehmer (by omega)
  · obtain ⟨j, rfl⟩ : ∃ j, i = j + 28 := ⟨i - 28, by omega⟩
    rw [show 3 + (j + 28) = j + 31 by omega, glibc_repeat seed (by omega), glibc_eq_lehmer (by omega),
      Nat.add_sub_cancel]

/-- The first value for seed 1 is 327067126, and that of `random()` is 1804289383. -/
theorem output_one_differs : ¬ (∀ n, GlibcRandom.output 1 n = glibc 1 (n + 344) >>> 1) ∧
    GlibcRandom.output 1 0 = 327067126 ∧ glibc 1 (0 + 344) >>> 1 = 1804289383 := by
  have houtput : GlibcRandom.output 1 0 = 327067126 := by decide +kernel
  have hglibc : glibc 1 (0 + 344) >>> 1 = 1804289383 := by
    have hlast : glibc 1 344 = ((lagStep 28)^[311] (window 3 (2 + 1 + 28) (glibc 1))).getD 30 0 := by
      rw [(glibc_lagged 1).window (Nat.le_refl 3) 311, window_getD _ (by decide)]
    have hfirst : window 3 (2 + 1 + 28) (glibc 1) = _ := window_glibc 1
    rw [Nat.zero_add, hlast, hfirst]
    decide +kernel
  refine ⟨fun hall => ?_, houtput, hglibc⟩
  have heq := (houtput.symm.trans (hall 0)).trans hglibc
  exact absurd heq (by decide)

end Fstest.Fsx
