import Fstest.Lib.Rotation
import Fstest.Mdworkbench.Ranks

/-!
# The ranks that a rank reads from and writes to

In each data set `read_rank` and `write_rank` are rotations of the ranks. The cast to `i64` and the
sum on `u64` wrap around for large offsets, and where they do so for some of the ranks only, two
ranks can meet at one object.
-/

namespace Fstest.Mdworkbench.Params

variable (p : Params)

theorem shift_lt (d : ℕ) : p.shift d < 2 ^ 64 := Nat.mod_lt _ (by decide)

theorem writeRank_lt (rank d : ℕ) : p.writeRank rank d < p.threads := Nat.mod_lt _ p.threads_pos

/-- The difference wraps around once for the ranks that are small against the shift. -/
theorem readRank_eq {rank : ℕ} (hr : rank < p.threads) (d : ℕ) :
    p.readRank rank d =
      splitRotation p.threads (p.shift d - (2 ^ 63 + p.threads)) (-p.shift d) (2 ^ 64) rank := by
  have hx := p.shift_lt d
  have hT := p.threads_lt
  have hdiff : asI64 ((rank : ℤ) + p.threads - asI64 (p.shift d)) =
      (rank : ℤ) + p.threads - p.shift d +
        if rank < p.shift d - (2 ^ 63 + p.threads) then 2 ^ 64 else 0 := by
    rw [asI64, asI64, Int.sub_bmod_bmod]
    split
    · rw [← Int.add_bmod_right]
      exact Int.bmod_eq_of_le (by omega) (by omega)
    · rw [Int.add_zero]
      exact Int.bmod_eq_of_le (by omega) (by omega)
  rw [readRank, hdiff, splitRotation, rotation]
  refine congrArg Int.toNat ?_
  refine Int.emod_eq_emod_iff_emod_sub_eq_zero.mpr (Int.emod_eq_zero_of_dvd ⟨1, ?_⟩)
  split <;> omega

theorem writeRank_eq {rank : ℕ} (hr : rank < p.threads) (d : ℕ) :
    p.writeRank rank d =
      splitRotation p.threads (2 ^ 64 - p.shift d) (p.shift d - 2 ^ 64) (2 ^ 64) rank := by
  have hx := p.shift_lt d
  have hT := p.threads_lt
  have hsum : (((rank + p.shift d) % 2 ^ 64 : ℕ) : ℤ) =
      rank + if rank < 2 ^ 64 - p.shift d then ((p.shift d : ℤ) - 2 ^ 64) + 2 ^ 64
        else (p.shift d : ℤ) - 2 ^ 64 := by
    split <;> omega
  rw [← Int.natCast_inj, splitRotation, natCast_rotation p.threads_pos, ← hsum, writeRank,
    Int.natCast_emod]

theorem readRank_mapsTo (d : ℕ) :
    Set.MapsTo (p.readRank · d) (Set.Iio p.threads) (Set.Iio p.threads) := by
  intro rank hr
  show p.readRank rank d < p.threads
  rw [p.readRank_eq hr]
  exact rotation_lt p.threads_pos _ _

theorem writeRank_mapsTo (d : ℕ) :
    Set.MapsTo (p.writeRank · d) (Set.Iio p.threads) (Set.Iio p.threads) :=
  fun rank _ => p.writeRank_lt rank d

/-- The ranks read different objects of data set `d`. -/
theorem readRank_injOn_iff (d : ℕ) : Set.InjOn (p.readRank · d) (Set.Iio p.threads) ↔
    p.shift d ≤ 2 ^ 63 + p.threads ∨ 2 ^ 63 + 2 * p.threads ≤ p.shift d ∨ p.threads ∣ 2 ^ 64 := by
  have heq : Set.EqOn (p.readRank · d) _ (Set.Iio p.threads) := fun rank hr => p.readRank_eq hr d
  rw [heq.injOn_iff, splitRotation_injOn_iff p.threads_pos]
  have hdvd : (p.threads : ℤ) ∣ 2 ^ 64 ↔ p.threads ∣ 2 ^ 64 := by
    exact_mod_cast Int.natCast_dvd_natCast
  rw [hdvd]
  omega

/-- The ranks write different objects of data set `d`. -/
theorem writeRank_injOn_iff (d : ℕ) : Set.InjOn (p.writeRank · d) (Set.Iio p.threads) ↔
    p.shift d + p.threads ≤ 2 ^ 64 ∨ p.threads ∣ 2 ^ 64 := by
  have hx := p.shift_lt d
  have heq : Set.EqOn (p.writeRank · d) _ (Set.Iio p.threads) := fun rank hr => p.writeRank_eq hr d
  rw [heq.injOn_iff, splitRotation_injOn_iff p.threads_pos]
  have hdvd : (p.threads : ℤ) ∣ 2 ^ 64 ↔ p.threads ∣ 2 ^ 64 := by
    exact_mod_cast Int.natCast_dvd_natCast
  rw [hdvd]
  omega

/-- No data set has a shift at which the ranks wrap around only in part. -/
def ShiftsFit : Prop :=
  p.threads ∣ 2 ^ 64 ∨ ∀ d < p.dsetCount, p.shift d + p.threads ≤ 2 ^ 64 ∧
    (p.shift d ≤ 2 ^ 63 + p.threads ∨ 2 ^ 63 + 2 * p.threads ≤ p.shift d)

/-- `ShiftsFit` says that in every data set the ranks read and write different objects. -/
theorem shiftsFit_iff : p.ShiftsFit ↔ ∀ d < p.dsetCount,
    Set.InjOn (p.readRank · d) (Set.Iio p.threads) ∧
      Set.InjOn (p.writeRank · d) (Set.Iio p.threads) := by
  simp only [readRank_injOn_iff, writeRank_injOn_iff, ShiftsFit]
  by_cases h : p.threads ∣ 2 ^ 64
  · simp only [h, or_true, true_or, and_self, implies_true]
  · simp only [h, false_or, or_false]
    exact forall_congr' fun d => forall_congr' fun _ => and_comm

end Fstest.Mdworkbench.Params
