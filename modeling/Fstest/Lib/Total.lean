import Mathlib.Algebra.BigOperators.Group.Finset.Piecewise
import Mathlib.Algebra.BigOperators.Group.List.Basic
import Mathlib.Algebra.Order.BigOperators.Group.Finset
import Mathlib.Algebra.Order.Group.Nat
import Mathlib.Data.Fintype.BigOperators
import Mathlib.Data.List.Basic

/-!
# Totals over the parties of a system

The parties are the elements of a list, and each one is known by its index. `total f` adds up what
each party has of something. A step of one party changes the total by what that party gains or
loses (`total_set`). Where the number of parties is fixed they are a function, and the total is a sum
(`sum_update`).
-/

namespace Fstest

variable {α M : Type*}

def total [AddCommMonoid M] (f : α → M) (l : List α) : M := (l.map f).sum

section

variable [AddCommMonoid M] {f : α → M} {l : List α} {p q : ℕ} {x y : α}

@[simp] theorem total_nil : total f [] = 0 := rfl

@[simp] theorem total_cons : total f (x :: l) = f x + total f l := by
  rw [total, List.map_cons, List.sum_cons, total]

@[simp] theorem total_append (l' : List α) : total f (l ++ l') = total f l + total f l' := by
  rw [total, List.map_append, List.sum_append, total, total]

/-- **One party changes from `x` to `y`.** -/
theorem total_set (h : l[p]? = some x) (y : α) :
    total f (l.set p y) + f x = total f l + f y := by
  induction l generalizing p with
  | nil => cases h
  | cons z l ih =>
    cases p with
    | zero =>
      obtain rfl : z = x := Option.some.inj h
      rw [List.set_cons_zero, total_cons, total_cons]
      rw [add_comm (f y), add_comm (f z), add_right_comm]
    | succ p =>
      rw [List.set_cons_succ, total_cons, total_cons, add_assoc, ih h, add_assoc]

end

section

variable {f : α → ℕ} {l : List α} {p q : ℕ} {x y : α}

theorem le_total (h : l[p]? = some x) : f x ≤ total f l := by
  induction l generalizing p with
  | nil => cases h
  | cons z l ih =>
    cases p with
    | zero =>
      obtain rfl : z = x := Option.some.inj h
      rw [total_cons]
      omega
    | succ p =>
      rw [total_cons]
      exact Nat.le_add_left_of_le (ih h)

/-- Two parties have no more together than all of them. -/
theorem add_le_total (hpq : p ≠ q) (hp : l[p]? = some x) (hq : l[q]? = some y) :
    f x + f y ≤ total f l := by
  induction l generalizing p q with
  | nil => cases hp
  | cons z l ih =>
    rw [total_cons]
    cases p with
    | zero =>
      obtain rfl : z = x := Option.some.inj hp
      cases q with
      | zero => exact absurd rfl hpq
      | succ q => exact Nat.add_le_add_left (le_total (l := l) hq) _
    | succ p =>
      cases q with
      | zero =>
        obtain rfl : z = y := Option.some.inj hq
        rw [Nat.add_comm]
        exact Nat.add_le_add_left (le_total (l := l) hp) _
      | succ q => exact Nat.le_add_left_of_le (ih (by omega) hp hq)

end

/-! ## A fixed number of parties -/

section

variable {n : ℕ} {r : Fin n → α} {t : Fin n}

/-- One party changes to `x`. -/
theorem sum_update [AddCommMonoid M] (f : α → M) (r : Fin n → α) (t : Fin n) (x : α) :
    ∑ u, f (Function.update r t x u) + f (r t) = ∑ u, f (r u) + f x := by
  have hnew := Finset.sum_update_of_mem (Finset.mem_univ t) (fun u => f (r u)) (f x)
  have hold := Finset.sum_update_of_mem (Finset.mem_univ t) (fun u => f (r u)) (f (r t))
  rw [Function.update_eq_self] at hold
  have hcomp : (fun u => f (Function.update r t x u)) =
      Function.update (fun u => f (r u)) t (f x) := by
    funext u
    by_cases hu : u = t
    · subst hu
      rw [Function.update_self, Function.update_self]
    · rw [Function.update_of_ne hu, Function.update_of_ne hu]
  rw [hcomp, hnew, hold, add_right_comm, add_comm (f x), add_right_comm]

/-- Parties that have one at most, and all of it together, have one each. -/
theorem eq_one_of_le_sum {f : Fin n → ℕ} (hle : ∀ u, f u ≤ 1) (hsum : n ≤ ∑ u, f u) (t : Fin n) :
    f t = 1 := by
  by_contra hne
  have hlt : ∑ u, f u < ∑ _u : Fin n, 1 :=
    Finset.sum_lt_sum (fun u _ => hle u) ⟨t, Finset.mem_univ t, by have := hle t; omega⟩
  rw [← Finset.card_eq_sum_ones, Finset.card_univ, Fintype.card_fin] at hlt
  omega

end

end Fstest
