import Mathlib.Algebra.Order.Ring.Nat
import Mathlib.Tactic.Ring

/-!
# Digits from the highest place down

A number is taken apart by a list of place values, from the highest down: at each place the quotient
is the digit, and the rest goes on to the next place. Where the places are the powers of a base, the
digits determine the number (`value_digitsDown`), and all of them are below the base if the number is
below the next power (`digitsDown_lt`).
-/

namespace Fstest.Radix

variable {b m n acc : ℕ}

/-- The digits of `n` at the places of the list, and the rest. -/
def digitsDown : List ℕ → ℕ → List ℕ
  | [], n => [n]
  | place :: places, n => n / place :: digitsDown places (n - n / place * place)

/-- The powers of the base from `b ^ m` down to `b`. -/
def placesDown (b : ℕ) : ℕ → List ℕ
  | 0 => []
  | m + 1 => b ^ (m + 1) :: placesDown b m

/-- The number that digits stand for, behind what has been read already. -/
def value (b acc : ℕ) (digits : List ℕ) : ℕ := digits.foldl (fun acc d => acc * b + d) acc

theorem reverse_powers (b m : ℕ) :
    ((List.range m).map fun i => b ^ (i + 1)).reverse = placesDown b m := by
  induction m with
  | zero => rfl
  | succ m ih =>
    rw [List.range_succ, List.map_append, List.reverse_append, ih]
    rfl

theorem digitsDown_ne_nil (places : List ℕ) (n : ℕ) : digitsDown places n ≠ [] := by
  cases places <;> exact List.cons_ne_nil _ _

/-- **The digits determine the number.** -/
theorem value_digitsDown (b m n acc : ℕ) :
    value b acc (digitsDown (placesDown b m) n) = acc * b ^ (m + 1) + n := by
  induction m generalizing n acc with
  | zero => rw [zero_add, pow_one]; rfl
  | succ m ih =>
    have hle : n / b ^ (m + 1) * b ^ (m + 1) ≤ n := Nat.div_mul_le_self n _
    have hrest : value b acc (digitsDown (placesDown b (m + 1)) n) =
        value b (acc * b + n / b ^ (m + 1))
          (digitsDown (placesDown b m) (n - n / b ^ (m + 1) * b ^ (m + 1))) := rfl
    calc value b acc (digitsDown (placesDown b (m + 1)) n)
        = (acc * b + n / b ^ (m + 1)) * b ^ (m + 1) + (n - n / b ^ (m + 1) * b ^ (m + 1)) := by
          rw [hrest, ih]
      _ = acc * b * b ^ (m + 1) + n := by
          rw [Nat.add_mul, Nat.add_assoc, Nat.add_sub_cancel' hle]
      _ = acc * b ^ (m + 2) + n := by ring

theorem digitsDown_lt (hn : n < b ^ (m + 1)) : ∀ d ∈ digitsDown (placesDown b m) n, d < b := by
  induction m generalizing n with
  | zero =>
    intro d hd
    rw [zero_add, pow_one] at hn
    exact List.mem_singleton.mp hd ▸ hn
  | succ m ih =>
    have hpos : 0 < b ^ (m + 1) := by
      rw [pow_succ] at hn
      exact Nat.pos_of_ne_zero fun hzero => by rw [hzero, Nat.zero_mul] at hn; omega
    intro d hd
    rcases List.mem_cons.mp hd with rfl | hd
    · rw [Nat.div_lt_iff_lt_mul hpos, Nat.mul_comm, ← pow_succ]
      exact hn
    · refine ih ?_ d hd
      rw [Nat.mul_comm, ← Nat.mod_eq_sub_mul_div]
      exact Nat.mod_lt n hpos

/-- Numbers with the same digits are equal, at however many places. -/
theorem eq_of_digitsDown_eq {m' n' : ℕ}
    (h : digitsDown (placesDown b m) n = digitsDown (placesDown b m') n') : n = n' := by
  have hvalue := congrArg (value b 0) h
  rwa [value_digitsDown, value_digitsDown, Nat.zero_mul, Nat.zero_mul, Nat.zero_add, Nat.zero_add] at hvalue

end Fstest.Radix
