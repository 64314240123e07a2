import Mathlib.Algebra.Ring.Int.Defs
import Mathlib.Data.Int.Cast.Basic
import Mathlib.Logic.Function.Iterate
import Mathlib.Tactic.Abel

/-!
# Lagged sums

A sequence over a ring in which every term is the sum of two earlier ones, `p` and `p + d` before it
(`Lagged p d m`, for the terms that reach back to `m` or later).

- `Lagged.within_of_close`: two such sequences, one with a longer lag than the other by `p`, that stay
  close to each other stay close to zero.
- `Lagged.within_back`: terms close to zero have terms close to zero before them.
- `Lagged.window`: as many terms in a row as the longer lag give all later ones.
-/

namespace Fstest

variable {R : Type*} [CommRing R] {B C p d m N : ℕ} {v u : R} {x w : ℕ → R}

/-! ## Small elements of a ring -/

/-- The element is an integer between `-B` and `B`. -/
def Within (B : ℕ) (v : R) : Prop := ∃ z : ℤ, z.natAbs ≤ B ∧ (z : R) = v

theorem Within.mono (h : Within B v) (hBC : B ≤ C) : Within C v := by
  obtain ⟨z, hz, rfl⟩ := h
  exact ⟨z, Nat.le_trans hz hBC, rfl⟩

theorem Within.sub (h : Within B v) (h' : Within C u) : Within (B + C) (v - u) := by
  obtain ⟨y, hy, rfl⟩ := h
  obtain ⟨z, hz, rfl⟩ := h'
  exact ⟨y - z, by omega, Int.cast_sub y z⟩

/-! ## Sequences -/

/-- Every term from `m + p + d` on is the sum of those `p` and `p + d` before it. -/
def Lagged (p d m : ℕ) (x : ℕ → R) : Prop := ∀ n, m ≤ n → x (n + p + d) = x (n + d) + x n

theorem Lagged.mono (h : Lagged p d m x) (hmN : m ≤ N) : Lagged p d N x := fun n hn =>
  h n (Nat.le_trans hmN hn)

theorem Lagged.eq_sub (h : Lagged p d m x) {n : ℕ} (hn : m ≤ n) : x n = x (n + p + d) - x (n + d) := by
  rw [h n hn, add_sub_cancel_left]

/-! ## Computing a sequence -/

/-- The next window of terms, of which the new one is the sum of the first and the one `d` after it. -/
def lagStep (d : ℕ) (l : List R) : List R := l.tail ++ [l.getD d 0 + l.getD 0 0]

def window (n len : ℕ) (x : ℕ → R) : List R := (List.range len).map fun i => x (n + i)

theorem window_getD (n : ℕ) {len i : ℕ} (hi : i < len) (x : ℕ → R) :
    (window n len x).getD i 0 = x (n + i) := by
  rw [window, List.getD_eq_getElem?_getD, List.getElem?_map, List.getElem?_range hi]
  rfl

theorem Lagged.lagStep_window (h : Lagged (p + 1) d m x) {n : ℕ} (hn : m ≤ n) :
    lagStep d (window n (p + 1 + d) x) = window (n + 1) (p + 1 + d) x := by
  have hfirst : (window n (p + 1 + d) x).getD 0 0 = x n := window_getD n (by omega) x
  have hlen : p + 1 + d = p + d + 1 := by omega
  rw [lagStep, window_getD n (by omega) x, hfirst, ← h n hn, window, hlen, List.range_succ_eq_map,
    List.map_cons, List.tail_cons, window, List.range_succ, List.map_append, List.map_map]
  refine congrArg₂ _ (List.map_congr_left fun i _ => ?_) ?_
  · exact congrArg x (by simp only [Nat.succ_eq_add_one]; omega)
  · rw [List.map_singleton]
    exact congrArg (fun i => [x i]) (by omega)

/-- **Later terms from a window of terms.** -/
theorem Lagged.window (h : Lagged (p + 1) d m x) {n : ℕ} (hn : m ≤ n) (k : ℕ) :
    (lagStep d)^[k] (window n (p + 1 + d) x) = Fstest.window (n + k) (p + 1 + d) x := by
  induction k with
  | zero => rfl
  | succ k ih => rw [Function.iterate_succ_apply', ih, h.lagStep_window (by omega), Nat.add_assoc]

/-- **Two sequences that stay close stay small**, if the longer lag of one is longer by the shorter
lag. -/
theorem Lagged.within_of_close (hx : Lagged p d m x) (hw : Lagged p (d + p) m w)
    (hclose : ∀ n, N ≤ n → Within B (x n - w n)) {n : ℕ} (hn : m ≤ n) (hN : N ≤ n + d) :
    Within (3 * B) (x n) := by
  -- The term is a difference of two terms, and those are terms of the other sequence, nearly.
  have hshift : x (n + d + p) - w (n + d) =
      (x (n + d + p + p + d) - w (n + d + p + p + d)) - (x (n + d + p + d) - w (n + d + p + d)) := by
    have hx' := hx.eq_sub (n := n + d + p) (by omega)
    have hw' := hw.eq_sub (n := n + d) (by omega)
    rw [show n + d + p + (d + p) = n + d + p + p + d by omega,
      show n + d + (d + p) = n + d + p + d by omega] at hw'
    rw [hx', hw']
    abel
  have hterm : x n = x (n + d + p) - w (n + d) - (x (n + d) - w (n + d)) := by
    rw [hx.eq_sub hn, show n + p + d = n + d + p by omega]
    abel
  rw [hterm, hshift]
  refine Within.mono (((hclose _ ?_).sub (hclose _ ?_)).sub (hclose _ hN)) ?_ <;> omega

/-- **What comes before small terms is small**: `d` terms further back the bound doubles. -/
theorem Lagged.within_back (hx : Lagged p d m x) (h : ∀ n, m ≤ n → N ≤ n → Within B (x n)) (t : ℕ) {n : ℕ}
    (hn : m ≤ n) (hN : N ≤ n + t * d) : Within (B * 2 ^ t) (x n) := by
  induction t generalizing n with
  | zero =>
    rw [pow_zero, mul_one]
    exact h n hn (by omega)
  | succ t ih =>
    rw [Nat.succ_mul] at hN
    rw [hx.eq_sub hn]
    refine Within.mono ((ih (n := n + p + d) ?_ ?_).sub (ih (n := n + d) ?_ ?_)) ?_
    · omega
    · omega
    · omega
    · omega
    · rw [pow_succ, ← mul_assoc, mul_two]

end Fstest
