import Fstest.Lib.SplitMix
import Fstest.Mdtest.ReadPhase
import Mathlib.Data.Int.ModEq

/-!
# What the verification of mdtest can tell apart

The pattern is what the generator makes of a state, and the first eight bytes give the state away. The state
has the writer in its upper half and a multiple of the item, so two patterns under one seed are those of one
writer and one item (`contentPattern_inj`). A rank that counts no error has thus found each file in its
place, however the files may have been mixed up (`misplaced_found`).
-/

namespace Fstest.Mdtest

/-! ## Words -/

theorem contentWord_eq_mix : contentWord = SplitMix.mix := rfl

theorem toNat_byte (z : UInt64) {i : ℕ} (h : i < 8) :
    ((z >>> UInt64.ofNat (8 * i)).toUInt8).toNat = z.toNat / 2 ^ (8 * i) % 256 := by
  have hmod : 8 * i % 2 ^ 64 % 64 = 8 * i := by omega
  rw [UInt64.toNat_toUInt8, UInt64.toNat_shiftRight, UInt64.toNat_ofNat', Nat.shiftRight_eq_div_pow, hmod]

/-- The bytes of a word are its digits. -/
theorem leBytes_injective : Function.Injective leBytes := by
  intro x y h
  have hbyte : ∀ i < 8, x.toNat / 2 ^ (8 * i) % 256 = y.toNat / 2 ^ (8 * i) % 256 := by
    intro i hi
    have hget := congrArg (fun l => l[i]?.map UInt8.toNat) h
    simp only [leBytes, List.getElem?_map, List.getElem?_range hi, Option.map_some, Option.some.injEq,
      toNat_byte _ hi] at hget
    exact hget
  have hdiv : ∀ k ≤ 8, x.toNat / 2 ^ (8 * (8 - k)) = y.toNat / 2 ^ (8 * (8 - k)) := by
    intro k hk
    induction k with
    | zero => rw [Nat.div_eq_of_lt (UInt64.toNat_lt x), Nat.div_eq_of_lt (UInt64.toNat_lt y)]
    | succ k ih =>
      have hpow : 2 ^ (8 * (8 - k)) = 2 ^ (8 * (8 - (k + 1))) * 256 := by
        rw [show 8 * (8 - k) = 8 * (8 - (k + 1)) + 8 by omega, Nat.pow_add]
      have hhigh := ih (by omega)
      rw [hpow, ← Nat.div_div_eq_div_mul, ← Nat.div_div_eq_div_mul] at hhigh
      rw [← Nat.div_add_mod (x.toNat / 2 ^ (8 * (8 - (k + 1)))) 256, hhigh, hbyte _ (by omega),
        Nat.div_add_mod]
  have hall := hdiv 8 le_rfl
  rw [Nat.sub_self, Nat.mul_zero, Nat.pow_zero, Nat.div_one, Nat.div_one] at hall
  exact UInt64.toNat_inj.mp hall

/-! ## Patterns -/

variable {seed w w' n n' len : ℕ}

theorem take_eight (hlen : 8 ≤ len) :
    (contentPattern seed w n len).take 8 =
      leBytes (contentWord (patternState seed w n + SplitMix.gamma)) := by
  obtain ⟨k, hk⟩ : ∃ k, (len + 7) / 8 = k + 1 := ⟨(len + 7) / 8 - 1, by omega⟩
  have hpattern :
      contentPattern seed w n len = (contentWords ((len + 7) / 8) (patternState seed w n)).take len := by
    simp only [contentPattern, patternState]
  rw [hpattern, hk, contentWords, List.take_take, Nat.min_eq_left hlen]
  exact List.take_left' (by rw [leBytes, List.length_map, List.length_range])

theorem patternState_eq (h : contentPattern seed w n len = contentPattern seed w' n' len) (hlen : 8 ≤ len) :
    patternState seed w n = patternState seed w' n' := by
  have hword := congrArg (List.take 8) h
  rw [take_eight hlen, take_eight hlen, contentWord_eq_mix] at hword
  have hnext := SplitMix.mix_injective (leBytes_injective hword)
  exact (UInt64.add_left_inj _).mp hnext

/-- The multiplier of the item. -/
def itemFactor : ℕ := 0xBF58476D1CE4E5B9

/-- The state without what comes from the seed. -/
theorem origin_modEq (h : patternState seed w n = patternState seed w' n') :
    w * 2 ^ 32 + n * itemFactor ≡ w' * 2 ^ 32 + n' * itemFactor [MOD 2 ^ 64] := by
  have hpart : ∀ w n : ℕ, ((UInt64.ofNat w <<< (32 : UInt64)) + UInt64.ofNat n * 0xBF58476D1CE4E5B9).toNat ≡
      w * 2 ^ 32 + n * itemFactor [MOD 2 ^ 64] := by
    intro w n
    have hfactor : (0xBF58476D1CE4E5B9 : UInt64).toNat = itemFactor := rfl
    have hshift : (32 : UInt64).toNat % 64 = 32 := rfl
    rw [UInt64.toNat_add, UInt64.toNat_mul, UInt64.toNat_shiftLeft, hfactor, hshift, Nat.shiftLeft_eq,
      UInt64.toNat_ofNat', UInt64.toNat_ofNat']
    refine (Nat.mod_modEq _ _).trans (Nat.ModEq.add ?_ ?_)
    · exact (Nat.mod_modEq _ _).trans ((Nat.mod_modEq w _).mul_right _)
    · exact (Nat.mod_modEq _ _).trans ((Nat.mod_modEq n _).mul_right _)
  rw [patternState, patternState, UInt64.add_assoc, UInt64.add_assoc, UInt64.add_right_inj] at h
  have hboth := hpart w n
  rw [h] at hboth
  exact hboth.symm.trans (hpart w' n')

/-- The upper half of the state has the writer, and the multiplier of the item is odd. -/
theorem origin_eq (hw : w < 2 ^ 32) (hw' : w' < 2 ^ 32) (hn : n < 2 ^ 32) (hn' : n' < 2 ^ 32)
    (h : patternState seed w n = patternState seed w' n') : w = w' ∧ n = n' := by
  have hstate := origin_modEq h
  have hitem : n = n' := by
    have hlow : n * itemFactor ≡ n' * itemFactor [MOD 2 ^ 32] := by
      have hhalf : ∀ w n : ℕ, w * 2 ^ 32 + n * itemFactor ≡ n * itemFactor [MOD 2 ^ 32] := fun w n =>
        (Nat.ModEq.add_right _ (Nat.modEq_zero_iff_dvd.mpr (Nat.dvd_mul_left _ w))).trans
          (by rw [Nat.zero_add])
      exact (hhalf w n).symm.trans ((hstate.of_dvd (by decide)).trans (hhalf w' n'))
    have hcancel := Nat.ModEq.cancel_right_of_coprime (show Nat.gcd (2 ^ 32) itemFactor = 1 by decide) hlow
    rwa [Nat.ModEq, Nat.mod_eq_of_lt hn, Nat.mod_eq_of_lt hn'] at hcancel
  subst hitem
  have hupper := Nat.ModEq.add_right_cancel' _ hstate
  rw [show (2 : ℕ) ^ 64 = 2 ^ 32 * 2 ^ 32 by decide] at hupper
  have hwriter := Nat.ModEq.mul_right_cancel' (by decide) hupper
  rw [Nat.ModEq, Nat.mod_eq_of_lt hw, Nat.mod_eq_of_lt hw'] at hwriter
  exact ⟨hwriter, rfl⟩

/-- **A pattern tells its writer and its item.** -/
theorem contentPattern_inj (hw : w < 2 ^ 32) (hw' : w' < 2 ^ 32) (hn : n < 2 ^ 32) (hn' : n' < 2 ^ 32)
    (hlen : 8 ≤ len) : contentPattern seed w n len = contentPattern seed w' n' len ↔ w = w' ∧ n = n' := by
  constructor
  · exact fun h => origin_eq hw hw' hn hn' (patternState_eq h hlen)
  · rintro ⟨rfl, rfl⟩
    rfl

/-! ## Files in the wrong place -/

section Visits

variable {p : Params} {found : Found}

/-- The file that a rank finds has what writer `w` has put into item `n`. -/
structure FromWriter (p : Params) (file : Option Bytes) (w n : ℕ) : Prop where
  writer : w < 2 ^ 32
  item : n < 2 ^ 32
  content : ∃ bytes, file = some bytes ∧ bytes.take p.readBytes = contentPattern p.randomSeed w n p.readBytes

theorem readError_iff {v : Params.Visit p} {w n : ℕ} (hverify : p.verifyRead = true)
    (hbytes : 8 ≤ p.readBytes) (hthreads : p.threads ≤ 2 ^ 32)
    (hitems : p.stopItems + p.leafOffset ≤ 2 ^ 32)
    (h : FromWriter p (v.file found) w n) :
    p.readError v.rank v.item (v.file found) = false ↔
      (w, n) = (p.shifted v.rank 2, v.item + p.leafOffset) := by
  obtain ⟨hw, hn, bytes, hfile, hcontent⟩ := h
  have hlong : p.readBytes ≤ bytes.length := by
    have hlen := congrArg List.length hcontent
    rw [length_contentPattern, List.length_take] at hlen
    omega
  have hrank : p.shifted v.rank 2 < 2 ^ 32 := by
    have hpos : 0 < p.threads := Nat.zero_lt_of_lt v.rank_lt
    exact Nat.lt_of_lt_of_le (Nat.mod_lt _ hpos) hthreads
  have hitem : v.item + p.leafOffset < 2 ^ 32 := by
    have hlt := v.item_lt
    omega
  rw [hfile, Params.readError, decide_eq_true (by omega : 0 < p.readBytes), decide_eq_true hlong, hverify,
    Bool.true_and, Bool.true_and, Bool.true_and, decide_eq_false_iff_not, not_not, hcontent, Params.expected,
    contentPattern_inj hw hrank hn hitem hbytes, Prod.mk.injEq]

/-- **A rank that counts no error has found each file in its place**, wherever the files may have come to,
if each is one that some writer has made. -/
theorem misplaced_found (hverify : p.verifyRead = true) (hbytes : 8 ≤ p.readBytes)
    (hthreads : p.threads ≤ 2 ^ 32) (hitems : p.stopItems + p.leafOffset ≤ 2 ^ 32)
    (origin : Params.Visit p → ℕ × ℕ)
    (horigin : ∀ v, FromWriter p (v.file found) (origin v).1 (origin v).2) {rank : ℕ}
    (hr : rank < p.threads) :
    p.rankErrors found rank = 0 ↔
      ∀ v : Params.Visit p, v.rank = rank → origin v = (p.shifted v.rank 2, v.item + p.leafOffset) := by
  rw [Params.rankErrors_eq_zero_iff hr]
  exact forall_congr' fun v => imp_congr_right fun _ => readError_iff hverify hbytes hthreads hitems
    (horigin v)

/-- Both of two files have what belongs into the first one. -/
theorem misplaced_found_twice : ∃ p,
    configure { items := 2, readBytes := 8, readOnly := true, verifyRead := true } ["mnt"] 0 = .ok p ∧
    p.rankErrors (fun _ _ _ => some (contentPattern 0 0 0 8)) 0 ≠ 0 := by
  refine ⟨_, rfl, fun hzero => ?_⟩
  have hplace := (misplaced_found rfl le_rfl (by decide) (by decide) (fun _ => (0, 0))
    (fun v => ⟨by decide, by decide, _, rfl, List.take_of_length_le (length_contentPattern ..).le⟩)
    (by decide)).mp hzero ⟨0, 0, 0, 1, ⟨rfl, rfl⟩, by decide, by decide, by decide, by decide⟩ rfl
  exact absurd hplace (by decide)

end Visits

end Fstest.Mdtest
