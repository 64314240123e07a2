import Fstest.Lib.Bytes
import Mathlib.Algebra.GroupWithZero.Nat

/-!
# The contents of a file

`contentPattern` is `content_pattern`, the bytes that a writer puts into an item and that a reader
expects there.
-/

namespace Fstest.Mdtest

/-- The word that the generator makes of a state. -/
def contentWord (state : UInt64) : UInt64 :=
  let z := (state ^^^ (state >>> 30)) * 0xBF58476D1CE4E5B9
  let z := (z ^^^ (z >>> 27)) * 0x94D049BB133111EB
  z ^^^ (z >>> 31)

/-- `to_le_bytes`. -/
def leBytes (z : UInt64) : Bytes := (List.range 8).map fun i => (z >>> UInt64.ofNat (8 * i)).toUInt8

/-- The bytes of the next `n` words. -/
def contentWords : ℕ → UInt64 → Bytes
  | 0, _ => []
  | n + 1, state =>
    let state := state + 0x9E3779B97F4A7C15
    leBytes (contentWord state) ++ contentWords n state

def contentPattern (seed writer item len : ℕ) : Bytes :=
  let seeded : UInt64 := UInt64.ofNat seed * (0x9E3779B97F4A7C15 : UInt64)
  let written : UInt64 := seeded + (UInt64.ofNat writer <<< (32 : UInt64))
  let state : UInt64 := written + UInt64.ofNat item * (0xBF58476D1CE4E5B9 : UInt64)
  (contentWords ((len + 7) / 8) state).take len

theorem length_contentWords (n : ℕ) (state : UInt64) : (contentWords n state).length = 8 * n := by
  induction n generalizing state with
  | zero => rfl
  | succ n ih =>
    rw [contentWords, List.length_append, ih]
    simp only [leBytes, List.length_map, List.length_range]
    omega

theorem length_contentPattern (seed writer item len : ℕ) :
    (contentPattern seed writer item len).length = len := by
  simp only [contentPattern, List.length_take, length_contentWords]
  omega

/-- More words go on where fewer end. -/
theorem contentWords_prefix {m n : ℕ} (h : m ≤ n) (state : UInt64) :
    contentWords m state <+: contentWords n state := by
  induction m generalizing n state with
  | zero => exact List.nil_prefix
  | succ m ih =>
    obtain ⟨n, rfl⟩ : ∃ k, n = k + 1 := ⟨n - 1, by omega⟩
    rw [contentWords, contentWords]
    exact (List.prefix_append_right_inj _).mpr (ih (by omega) _)

/-- **A shorter pattern is the start of a longer one**, whether or not it ends within a word. -/
theorem take_contentPattern (seed writer item : ℕ) {r w : ℕ} (h : r ≤ w) :
    (contentPattern seed writer item w).take r = contentPattern seed writer item r := by
  simp only [contentPattern]
  generalize (_ : UInt64) + _ = state
  obtain ⟨rest, hrest⟩ := contentWords_prefix (show (r + 7) / 8 ≤ (w + 7) / 8 by omega) state
  have hlen : r ≤ (contentWords ((r + 7) / 8) state).length := by
    rw [length_contentWords]
    omega
  rw [List.take_take, Nat.min_eq_left h, ← hrest, List.take_append_of_le_length hlen]

/-- The state that a pattern starts from. -/
def patternState (seed writer item : ℕ) : UInt64 :=
  UInt64.ofNat seed * 0x9E3779B97F4A7C15 + (UInt64.ofNat writer <<< (32 : UInt64)) +
    UInt64.ofNat item * 0xBF58476D1CE4E5B9

/-- The multiplier of the seed is odd, so every state is that of some seed. -/
theorem exists_patternState (writer item : ℕ) (state : UInt64) :
    ∃ seed < 2 ^ 64, patternState seed writer item = state := by
  generalize hrest : (UInt64.ofNat writer <<< (32 : UInt64)) +
    UInt64.ofNat item * 0xBF58476D1CE4E5B9 = rest
  refine ⟨((state - rest) * 17428512612931826493).toNat, UInt64.toNat_lt _, ?_⟩
  rw [patternState, UInt64.ofNat_toNat, UInt64.add_assoc, hrest, UInt64.mul_assoc,
    show (17428512612931826493 * 0x9E3779B97F4A7C15 : UInt64) = 1 by decide, UInt64.mul_one,
    UInt64.sub_add_cancel]

theorem head?_contentPattern (seed writer item : ℕ) {len : ℕ} (h : 0 < len) :
    (contentPattern seed writer item len).head? =
      some (contentWord (patternState seed writer item + 0x9E3779B97F4A7C15)).toUInt8 := by
  obtain ⟨n, hn⟩ : ∃ n, (len + 7) / 8 = n + 1 := ⟨(len + 7) / 8 - 1, by omega⟩
  obtain ⟨k, rfl⟩ : ∃ k, len = k + 1 := ⟨len - 1, by omega⟩
  change ((contentWords ((k + 1 + 7) / 8) (patternState seed writer item)).take (k + 1)).head? = _
  rw [hn, contentWords]
  generalize contentWord _ = z
  simp [leBytes, List.range_succ_eq_map]

/-- **No bytes are the pattern under every seed.** -/
theorem exists_contentPattern_ne (bytes : Bytes) (writer item : ℕ) {len : ℕ} (h : 0 < len) :
    ∃ seed < 2 ^ 64, contentPattern seed writer item len ≠ bytes := by
  obtain ⟨s, hs, hzero⟩ := exists_patternState writer item (0 - 0x9E3779B97F4A7C15)
  obtain ⟨s', hs', hone⟩ := exists_patternState writer item (1 - 0x9E3779B97F4A7C15)
  by_cases heq : contentPattern s writer item len = bytes
  · refine ⟨s', hs', fun heq' => ?_⟩
    have hhead := congrArg List.head? (heq.trans heq'.symm)
    rw [head?_contentPattern s writer item h, head?_contentPattern s' writer item h, hzero, hone] at hhead
    revert hhead
    decide
  · exact ⟨s, hs, heq⟩

end Fstest.Mdtest
