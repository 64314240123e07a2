import Mathlib.Algebra.Group.Nat.Defs
import Mathlib.Tactic.Common

/-!
# Checked machine arithmetic

`u64` values are naturals here. An addition past `2 ^ 64`, a subtraction below zero and a
remainder by zero are the points where the program panics, so each is a partial operation: `none`
is the panic. The `_of` lemmas are the cases in which the operation goes through; a step proof
discharges their side condition with `omega`. The `u32` operations are the same at `2 ^ 32`.
-/

namespace Fstest

/-- The number of `u64` values. -/
abbrev u64Size : Nat := 2 ^ 64

/-- The largest length of an allocation (`isize::MAX`). -/
abbrev isizeMax : Nat := 2 ^ 63 - 1

/-- `a + b` on `u64`. -/
def addU64 (a b : Nat) : Option Nat := if a + b < u64Size then some (a + b) else none

/-- `a - b` on `u64`. -/
def subU64 (a b : Nat) : Option Nat := if b ≤ a then some (a - b) else none

/-- `a % b` on `u64`. -/
def modU64 (a b : Nat) : Option Nat := if b = 0 then none else some (a % b)

theorem addU64_of {a b : Nat} (h : a + b < u64Size) : addU64 a b = some (a + b) := if_pos h

theorem subU64_of {a b : Nat} (h : b ≤ a) : subU64 a b = some (a - b) := if_pos h

theorem modU64_of {a b : Nat} (h : 0 < b) : modU64 a b = some (a % b) :=
  if_neg (Nat.pos_iff_ne_zero.mp h)

@[simp] theorem addU64_eq_some {a b c : Nat} : addU64 a b = some c ↔ a + b < u64Size ∧ a + b = c := by
  unfold addU64
  split <;> simp_all only [Option.some.injEq, true_and, reduceCtorEq, false_and]

@[simp] theorem subU64_eq_some {a b c : Nat} : subU64 a b = some c ↔ b ≤ a ∧ a - b = c := by
  unfold subU64
  split <;> simp_all only [Option.some.injEq, true_and, reduceCtorEq, false_and]

/-! ## 32 bits -/

/-- The number of `u32` values. -/
abbrev u32Size : Nat := 2 ^ 32

/-- `a + b` on `u32`. -/
def addU32 (a b : Nat) : Option Nat := if a + b < u32Size then some (a + b) else none

/-- `a * b` on `u32`. -/
def mulU32 (a b : Nat) : Option Nat := if a * b < u32Size then some (a * b) else none

/-- A partial function on all elements of a list. -/
theorem mapM_eq_some {α β : Type} {f : α → Option β} {l : List α} {r : List β} :
    l.mapM f = some r ↔ l.map f = r.map some := by
  induction l generalizing r with
  | nil => cases r <;> simp
  | cons a l ih =>
    rw [List.mapM_cons, List.map_cons]
    cases hf : f a with
    | none => cases r <;> simp
    | some b =>
      cases r with
      | nil => simp [Option.bind_eq_some_iff]
      | cons c r => simp [← ih, Option.bind_eq_some_iff, and_left_comm]

theorem mapM_isSome {α β : Type} {f : α → Option β} {l : List α} :
    (l.mapM f).isSome ↔ ∀ a ∈ l, (f a).isSome := by
  induction l with
  | nil => simp
  | cons a l ih =>
    rw [List.mapM_cons, List.forall_mem_cons, ← ih]
    cases f a <;> cases l.mapM f <;> simp

/-! ## Steps that may panic -/

/-- What holds of the result of a step, unless it panics. -/
structure Yields {α : Type} (r : Option α) (P : α → Prop) : Prop where
  of_eq_some : ∀ a, r = some a → P a

section

variable {α β : Type} {r : Option α} {f : α → Option β} {P : β → Prop} {Q Q' : α → Prop}

theorem Yields.of_some {a : α} (h : Q a) : Yields (some a) Q :=
  ⟨fun _ ha => Option.some.inj ha ▸ h⟩

/-- Two steps, one after the other. -/
theorem Yields.bind (h : Yields r Q) (hf : ∀ a, Q a → Yields (f a) P) : Yields (r.bind f) P where
  of_eq_some b hb := by
    obtain ⟨a, ha, hb⟩ := Option.bind_eq_some_iff.mp hb
    exact (hf a (h.of_eq_some a ha)).of_eq_some b hb

/-- A step of which only the outcome matters. -/
theorem yields_bind (hf : ∀ a, Yields (f a) P) : Yields (r.bind f) P :=
  Yields.bind (Q := fun _ => True) ⟨fun _ _ => trivial⟩ fun a _ => hf a

theorem Yields.imp (h : Yields r Q) (hQ : ∀ a, Q a → Q' a) : Yields r Q' :=
  ⟨fun a ha => hQ a (h.of_eq_some a ha)⟩

end

end Fstest
