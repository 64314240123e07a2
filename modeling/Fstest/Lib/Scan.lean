import Mathlib.Data.List.Basic
import Mathlib.Tactic.Common

/-!
# Reading a list by index

Loops that move an index over a list, with every access checked: `none` is an access outside the list,
or a loop that has not ended within its fuel. The lemmas give the index at which such a loop ends in
terms of the rest of the list.
-/

namespace Fstest.Scan

variable {α : Type*}

/-- `&l[n..]`. -/
def sliceFrom (l : List α) (n : ℕ) : Option (List α) := if n ≤ l.length then some (l.drop n) else none

theorem sliceFrom_of {l : List α} {n : ℕ} (h : n ≤ l.length) : sliceFrom l n = some (l.drop n) := if_pos h

/-- `n < l.len() && p(l[n])`. -/
def testAt (l : List α) (p : α → Bool) (n : ℕ) : Option Bool :=
  if n < l.length then l[n]?.map p else some false

/-- `a && b`, where `b` is only looked at if `a` holds. -/
def andAlso (a : Bool) (b : Option Bool) : Option Bool := if a then b else some false

@[simp]
theorem andAlso_some (a b : Bool) : andAlso a (some b) = some (a && b) := by cases a <;> rfl

theorem testAt_eq (l : List α) (p : α → Bool) (n : ℕ) : testAt l p n = some ((l.drop n).head?.any p) := by
  unfold testAt
  rw [List.head?_drop]
  split
  · rename_i h
    rw [List.getElem?_eq_getElem h]
    rfl
  · rename_i h
    rw [List.getElem?_eq_none (Nat.le_of_not_lt h)]
    rfl

theorem getElem?_of_drop {l r : List α} {n : ℕ} {a : α} (h : l.drop n = a :: r) : l[n]? = some a := by
  rw [← List.head?_drop, h, List.head?_cons]

theorem drop_succ_of_drop {l r : List α} {n : ℕ} {a : α} (h : l.drop n = a :: r) : l.drop (n + 1) = r := by
  rw [← List.drop_drop, h, List.drop_one, List.tail_cons]

theorem lt_of_drop {l r : List α} {n : ℕ} {a : α} (h : l.drop n = a :: r) : n < l.length := by
  by_contra hlt
  rw [List.drop_eq_nil_of_le (Nat.le_of_not_lt hlt)] at h
  cases h

/-- `while n < stop && p(get(n)) { n += 1 }`. -/
def skipWhile (get : ℕ → Option α) (p : α → Bool) (stop : ℕ) : ℕ → ℕ → Option ℕ
  | 0, _ => none
  | fuel + 1, n =>
    if n < stop then
      match get n with
      | none => none
      | some a => if p a then skipWhile get p stop fuel (n + 1) else some n
    else some n

/-- The loop ends without leaving the list, and not past `stop`. -/
theorem skipWhile_some (p : α → Bool) {get : ℕ → Option α} {stop fuel n : ℕ}
    (hget : ∀ i < stop, (get i).isSome) (hfuel : stop - n < fuel) :
    ∃ m, skipWhile get p stop fuel n = some m ∧ n ≤ m ∧ m ≤ max n stop := by
  induction fuel generalizing n with
  | zero => omega
  | succ fuel ih =>
    unfold skipWhile
    split
    · rename_i hn
      obtain ⟨a, ha⟩ := Option.isSome_iff_exists.mp (hget n hn)
      rw [ha]
      dsimp only
      split
      · obtain ⟨m, hm, hle, hmax⟩ := ih (n := n + 1) (by omega)
        exact ⟨m, hm, by omega, by omega⟩
      · exact ⟨n, rfl, by omega, by omega⟩
    · exact ⟨n, rfl, by omega, by omega⟩

/-- Only what is read below `stop` matters. -/
theorem skipWhile_congr {get get' : ℕ → Option α} {p : α → Bool} {stop : ℕ}
    (h : ∀ i < stop, get i = get' i) (fuel n : ℕ) :
    skipWhile get p stop fuel n = skipWhile get' p stop fuel n := by
  induction fuel generalizing n with
  | zero => rfl
  | succ fuel ih =>
    unfold skipWhile
    split
    · rename_i hn
      rw [h n hn]
      cases get' n with
      | none => rfl
      | some a =>
        dsimp only
        rw [ih]
    · rfl

/-- Over a list up to its end, the loop skips what `takeWhile` takes. -/
theorem skipWhile_getElem? {l r : List α} {p : α → Bool} {fuel n : ℕ} (hr : l.drop n = r)
    (hn : n ≤ l.length) (hfuel : l.length - n < fuel) :
    skipWhile (fun i => l[i]?) p l.length fuel n = some (n + (r.takeWhile p).length) := by
  induction fuel generalizing n r with
  | zero => omega
  | succ fuel ih =>
    unfold skipWhile
    cases r with
    | nil =>
      have hlen := List.drop_eq_nil_iff.mp hr
      rw [if_neg (by omega)]
      rfl
    | cons a r =>
      have hlt := lt_of_drop hr
      rw [if_pos hlt, getElem?_of_drop hr, List.takeWhile_cons]
      dsimp only
      split
      · rw [ih (drop_succ_of_drop hr) hlt (by omega), List.length_cons]
        congr 1
        omega
      · rfl

end Fstest.Scan
