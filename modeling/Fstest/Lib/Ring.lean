import Mathlib.Data.List.Basic

/-!
# A ring that keeps the last elements

A vector of `n` slots is filled around: the next element goes to slot `pos`, which then moves on by
one, and back to 0 behind the last slot. `Keeps v pos xs` says what the ring holds after `xs` was
put into it: the last `n` elements of `xs`. A walk of the ring that starts at slot 0, or at `pos` once
the ring is full, meets them in order (`Keeps.from_start`).
-/

namespace Fstest.Ring

variable {α : Type*} {n pos : ℕ} {v : Vector α n} {xs : List α}

structure Keeps (v : Vector α n) (pos : ℕ) (xs : List α) : Prop where
  pos : pos = xs.length % n
  slot : ∀ i < xs.length, xs.length ≤ i + n → v[i % n]? = xs[i]?

theorem Keeps.nil (v : Vector α n) : Keeps v 0 [] := ⟨(Nat.zero_mod n).symm, nofun⟩

/-- One more element. It takes the slot of the one that is `n` before it. -/
theorem Keeps.push (h : Keeps v pos xs) (hp : pos < n) (x : α) :
    Keeps (v.set pos x) ((pos + 1) % n) (xs ++ [x]) := by
  obtain ⟨rfl, hslot⟩ := h
  refine ⟨by rw [List.length_append, List.length_singleton, Nat.mod_add_mod], fun i hi hold => ?_⟩
  rw [List.length_append, List.length_singleton] at hi hold
  by_cases hlast : i = xs.length
  · subst hlast
    rw [List.getElem?_concat_length, Vector.getElem?_set_self]
  · have hne : xs.length % n ≠ i % n := by
      intro heq
      have hdvd : n ∣ xs.length - i := Nat.dvd_of_mod_eq_zero (Nat.sub_mod_eq_zero_of_mod_eq heq)
      have := Nat.le_of_dvd (by omega) hdvd
      omega
    rw [List.getElem?_append_left (by omega), Vector.getElem?_set_ne hp hne, hslot i (by omega)]
    omega

/-- Where a walk of the elements starts. -/
def start (n pos len : ℕ) : ℕ := if len < n then 0 else pos

/-- Element `c` of the walk. -/
theorem Keeps.from_start (h : Keeps v pos xs) {c : ℕ} (hc : c < min xs.length n) :
    v[(start n pos xs.length + c) % n]? = (xs.drop (xs.length - n))[c]? := by
  rw [List.getElem?_drop]
  obtain ⟨rfl, hslot⟩ := h
  by_cases hfull : xs.length < n
  · rw [start, if_pos hfull, ← hslot (xs.length - n + c) (by omega) (by omega)]
    congr 2
    omega
  · rw [start, if_neg hfull, ← hslot (xs.length - n + c) (by omega) (by omega), Nat.mod_add_mod,
      show xs.length + c = xs.length - n + c + n by omega, Nat.add_mod_right]

end Fstest.Ring
