import Mathlib.Data.Nat.Count
import Mathlib.Data.Nat.ModEq

/-!
# Taking turns

`n` places take turns, the first one is `c`, and a turn is for `k` items. In a round of `n * k` items each
place has `k` of them (`share_round`), and after any number of items the places have had the same number of
turns but for the round that is going on (`share_between`).
-/

namespace Fstest.Turns

variable {c k n d m : ℕ}

/-- The place of item `i`. -/
def place (c k n i : ℕ) : ℕ := (c + i / k) % n

/-- How many of the first `m` items have the place `d`. -/
def share (c k n d m : ℕ) : ℕ := Nat.count (fun i => place c k n i = d) m

theorem place_add_round (hk : 0 < k) (c n i : ℕ) : place c k n (n * k + i) = place c k n i := by
  have hdiv : (n * k + i) / k = n + i / k := by rw [Nat.mul_comm, Nat.mul_add_div hk]
  rw [place, place, hdiv, Nat.add_left_comm, Nat.add_mod_left]

/-- The turn of a place within the first round. -/
theorem exists_turn (hk : 0 < k) (hd : d < n) (c : ℕ) :
    ∃ b < n, ∀ i < n * k, place c k n i = d ↔ b * k ≤ i ∧ i < (b + 1) * k := by
  have hmod : c % n < n := Nat.mod_lt _ (by omega)
  refine ⟨if c % n ≤ d then d - c % n else d + n - c % n, by split <;> omega, fun i hi => ?_⟩
  have hblock : i / k < n := Nat.div_lt_of_lt_mul (by rwa [Nat.mul_comm] at hi)
  rw [place, ← Nat.mod_add_mod, ← Nat.le_div_iff_mul_le hk, ← Nat.div_lt_iff_lt_mul hk]
  generalize i / k = q at hblock
  generalize c % n = r at hmod
  by_cases hwrap : r + q < n
  · rw [Nat.mod_eq_of_lt hwrap]
    split <;> omega
  · rw [Nat.mod_eq_sub_mod (by omega), Nat.mod_eq_of_lt (by omega)]
    split <;> omega

/-- The items of one turn among the first `m`. -/
theorem count_interval {a b : ℕ} (hab : a ≤ b) (m : ℕ) :
    Nat.count (fun i => a ≤ i ∧ i < b) m = if m ≤ a then 0 else if m ≤ b then m - a else b - a := by
  induction m with
  | zero => simp
  | succ m ih =>
    rw [Nat.count_succ, ih]
    split_ifs <;> omega

theorem share_first (hk : 0 < k) (hd : d < n) (c : ℕ) (hm : m ≤ n * k) :
    share c k n d m ≤ k ∧ (m = n * k → share c k n d m = k) := by
  obtain ⟨b, hb, hturn⟩ := exists_turn hk hd c
  have hcount : share c k n d m = Nat.count (fun i => b * k ≤ i ∧ i < (b + 1) * k) m :=
    Nat.le_antisymm (Nat.count_mono_left fun i hi h => (hturn i (by omega)).mp h)
      (Nat.count_mono_left fun i hi h => (hturn i (by omega)).mpr h)
  have hnext : (b + 1) * k = b * k + k := Nat.succ_mul b k
  have hround : (b + 1) * k ≤ n * k := Nat.mul_le_mul_right k hb
  rw [hcount, count_interval (by omega)]
  constructor
  · split_ifs <;> omega
  · rintro rfl
    split_ifs <;> omega

/-- A round gives each place one turn more. -/
theorem share_round (hk : 0 < k) (hd : d < n) (c m : ℕ) :
    share c k n d (n * k + m) = share c k n d m + k := by
  have hfirst : share c k n d (n * k) = k := (share_first hk hd c le_rfl).2 rfl
  rw [share, Nat.count_add]
  simp only [place_add_round hk]
  rw [Nat.add_comm]
  exact congrArg (share c k n d m + ·) hfirst

/-- **The places share alike**: each has its turn in every full round, and one more at most. -/
theorem share_between (hk : 0 < k) (hd : d < n) (c m : ℕ) :
    k * (m / (n * k)) ≤ share c k n d m ∧ share c k n d m ≤ k * (m / (n * k)) + k := by
  have hpos : 0 < n * k := Nat.mul_pos (by omega) hk
  have hrounds : ∀ r, share c k n d (n * k * r + m % (n * k)) = share c k n d (m % (n * k)) + k * r := by
    intro r
    induction r with
    | zero => simp
    | succ r ih =>
      rw [Nat.mul_succ, Nat.add_comm (n * k * r), Nat.add_assoc, share_round hk hd, ih, Nat.mul_succ,
        Nat.add_assoc]
  have hlast := (share_first hk hd c (Nat.mod_lt m hpos).le).1
  have hall := hrounds (m / (n * k))
  rw [Nat.div_add_mod] at hall
  omega

end Fstest.Turns
