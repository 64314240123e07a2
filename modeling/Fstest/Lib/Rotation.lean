import Mathlib.Data.Int.ModEq
import Mathlib.Order.Interval.Finset.Nat
import Mathlib.Data.Set.Finite.Basic
import Mathlib.Tactic.Linarith

/-!
# Rotations modulo `n`

`r ↦ (r + a) % n` is a bijection of the numbers below `n`. Where machine arithmetic wraps around in
the middle, the numbers below some `m` are rotated by another amount, `a + M`.
`splitRotation_injOn_iff`: then nothing collides exactly if `n` divides `M`.
-/

namespace Fstest

variable {n : ℕ}

/-- The rotation by `a`. -/
def rotation (n : ℕ) (a : ℤ) (r : ℕ) : ℕ := (((r : ℤ) + a) % n).toNat

/-- The rotation by `a + M` below `m`, by `a` from `m` on. -/
def splitRotation (n m : ℕ) (a M : ℤ) (r : ℕ) : ℕ := rotation n (if r < m then a + M else a) r

theorem natCast_rotation (hn : 0 < n) (a : ℤ) (r : ℕ) : (rotation n a r : ℤ) = (r + a) % n :=
  Int.toNat_of_nonneg (Int.emod_nonneg _ (by omega))

theorem rotation_lt (hn : 0 < n) (a : ℤ) (r : ℕ) : rotation n a r < n := by
  have hlt := Int.emod_lt_of_pos ((r : ℤ) + a) (show (0 : ℤ) < n by omega)
  have := natCast_rotation hn a r
  omega

theorem rotation_eq_iff (hn : 0 < n) {a b : ℤ} {r s : ℕ} :
    rotation n a r = rotation n b s ↔ (n : ℤ) ∣ (r + a) - (s + b) := by
  rw [← Int.natCast_inj, natCast_rotation hn, natCast_rotation hn, Int.emod_eq_emod_iff_emod_sub_eq_zero, ← Int.dvd_iff_emod_eq_zero]

theorem rotation_injOn (a : ℤ) : Set.InjOn (rotation n a) (Set.Iio n) := by
  intro r hr s hs h
  rw [Set.mem_Iio] at hr hs
  rw [rotation_eq_iff (by omega)] at h
  obtain ⟨k, hk⟩ := h
  have hk0 : k = 0 := by
    by_contra hne
    rcases Int.lt_or_gt_of_ne hne with hneg | hpos
    · nlinarith
    · nlinarith
  subst hk0
  omega

/-- Rotations by amounts with the same residue agree. -/
theorem rotation_congr (hn : 0 < n) {a b : ℤ} (h : (n : ℤ) ∣ a - b) : rotation n a = rotation n b := by
  funext r
  rw [rotation_eq_iff hn]
  obtain ⟨k, hk⟩ := h
  exact ⟨k, by omega⟩

/-- Two numbers collide when the amount changes in the middle. -/
theorem exists_collision {m : ℕ} {M : ℤ} (hm : 0 < m) (hmn : m < n) (hM : ¬ (n : ℤ) ∣ M) (a : ℤ) :
    ∃ r s, r < m ∧ m ≤ s ∧ s < n ∧ rotation n (a + M) r = rotation n a s := by
  have hn : 0 < n := by omega
  -- The residue `e` of `M` takes some number below `m` to one from `m` on.
  have hdiv := Int.mul_ediv_add_emod M n
  obtain ⟨e, he⟩ : ∃ e : ℕ, M % n = e := ⟨_, (Int.toNat_of_nonneg (Int.emod_nonneg _ (by omega))).symm⟩
  have hlt : M % n < n := Int.emod_lt_of_pos _ (by omega)
  have he0 : e ≠ 0 := by
    rintro rfl
    exact hM (Int.dvd_of_emod_eq_zero he)
  have hcollide : ∀ r : ℕ, rotation n (a + M) r = rotation n a (r + e) := by
    intro r
    rw [rotation_eq_iff hn]
    exact ⟨M / n, by push_cast; omega⟩
  by_cases hfit : m - 1 + e < n
  · exact ⟨m - 1, m - 1 + e, by omega, by omega, hfit, hcollide _⟩
  · refine ⟨n - 1 - e, n - 1, by omega, by omega, by omega, ?_⟩
    rw [hcollide, Nat.sub_add_cancel (by omega)]

/-- **A rotation that changes its amount is injective exactly if it does not change it below `n`, or
the two amounts have one residue.** -/
theorem splitRotation_injOn_iff (hn : 0 < n) (m : ℕ) (a M : ℤ) :
    Set.InjOn (splitRotation n m a M) (Set.Iio n) ↔ m = 0 ∨ n ≤ m ∨ (n : ℤ) ∣ M := by
  constructor
  · intro h
    by_contra hno
    simp only [not_or] at hno
    obtain ⟨hm, hmn, hM⟩ := hno
    obtain ⟨r, s, hr, hms, hs, heq⟩ := exists_collision (Nat.pos_of_ne_zero hm) (Nat.lt_of_not_le hmn) hM a
    have hrs : r = s := h (Set.mem_Iio.mpr (by omega)) (Set.mem_Iio.mpr hs) (by
      rw [splitRotation, splitRotation, if_pos hr, if_neg (by omega), heq])
    omega
  · rintro (rfl | hm | hM)
    · exact rotation_injOn a
    · refine (rotation_injOn (a + M)).congr fun r hr => ?_
      rw [Set.mem_Iio] at hr
      rw [splitRotation, if_pos (by omega)]
    · refine (rotation_injOn a).congr fun r _ => ?_
      rw [splitRotation]
      split
      · exact (congrFun (rotation_congr hn (by simpa using hM)) r).symm
      · rfl

/-- A map of the numbers below `n` that is not onto has a collision, and the other way round. -/
theorem injOn_Iio_iff_surjOn {f : ℕ → ℕ} (hf : Set.MapsTo f (Set.Iio n) (Set.Iio n)) :
    Set.InjOn f (Set.Iio n) ↔ Set.SurjOn f (Set.Iio n) (Set.Iio n) := by
  rw [← hf.restrict_inj, ← hf.restrict_surjective_iff]
  exact Finite.injective_iff_surjective

end Fstest
