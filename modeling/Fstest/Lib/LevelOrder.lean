import Mathlib.Data.List.Perm.Basic
import Mathlib.Data.List.Range
import Mathlib.Tactic.Ring

/-!
# Complete trees numbered level by level

In a complete `b`-ary tree whose nodes are numbered level by level from 0 on, the children of node
`d` are `d * b + 1, …, d * b + b`, so the parent of `n > 0` is `(n - 1) / b`.

- `forest`: the nodes of the subtrees of `c` siblings from `m` on, in the order of a walk that comes
  to a node before its children; only the leaves, or all of them.
- `forest_all_perm`, `forest_leaves`: these nodes are an interval of numbers. Its length and its
  start are counted level by level (`treeSize`).
- `ancestors`: the path from the top to a node, found from its number alone.
-/

namespace Fstest.LevelOrder

variable (b : ℕ)

/-- The nodes of the subtrees of height `h` under the siblings `m, …, m + c - 1`. -/
def forest (leavesOnly : Bool) : ℕ → ℕ → ℕ → List ℕ
  | 0, _, _ => []
  | h + 1, m, c => (List.range' m c).flatMap fun d =>
      (if !leavesOnly || h == 0 then [d] else []) ++ forest leavesOnly h (d * b + 1) b

/-- The number of nodes of `c` subtrees of height `h`. -/
def treeSize (c : ℕ) : ℕ → ℕ
  | 0 => 0
  | h + 1 => c + treeSize (c * b) h

theorem forest_append (lo : Bool) (h m c c' : ℕ) :
    forest b lo h m (c + c') = forest b lo h m c ++ forest b lo h (m + c) c' := by
  cases h with
  | zero => rfl
  | succ h => rw [forest, forest, forest, ← List.flatMap_append, List.range'_append_1]

/-- The subtrees under all children of some siblings are those under one longer row. -/
theorem flatMap_forest_children (lo : Bool) (h m c : ℕ) :
    (List.range' m c).flatMap (fun d => forest b lo h (d * b + 1) b) =
      forest b lo h (m * b + 1) (c * b) := by
  induction c with
  | zero => cases h <;> simp [forest]
  | succ c ih =>
    rw [List.range'_1_concat, List.flatMap_append, ih, Nat.succ_mul, forest_append]
    congr 1
    rw [List.flatMap_singleton, Nat.add_mul]
    congr 1
    omega

/-- The nodes of a forest, up to their order: the top row and the forest under it. -/
theorem forest_succ_perm (h m c : ℕ) : (forest b false (h + 1) m c).Perm
    (List.range' m c ++ forest b false h (m * b + 1) (c * b)) := by
  have hsplit := List.flatMap_append_perm (List.range' m c) (fun d => [d])
    (fun d => forest b false h (d * b + 1) b)
  rw [flatMap_forest_children, List.flatMap_singleton'] at hsplit
  exact hsplit.symm

/-- A row is as long as it must be for the rows below it to follow on. -/
theorem next_row {m c : ℕ} (h : m * b + 1 = m + c) : (m + c) * b + 1 = m + c + c * b := by
  rw [Nat.add_mul]
  omega

/-- **All nodes of a forest are an interval of numbers.** -/
theorem forest_all_perm (h : ℕ) {m c : ℕ} (hrow : m * b + 1 = m + c) :
    (forest b false h m c).Perm (List.range' m (treeSize b c h)) := by
  induction h generalizing m c with
  | zero => exact .refl _
  | succ h ih =>
    refine (forest_succ_perm b h m c).trans ?_
    rw [treeSize, ← List.range'_append_1, hrow]
    exact (ih (next_row b hrow)).append_left _

/-- The leaves alone, row by row. -/
theorem forest_leaves_succ (h m c : ℕ) :
    forest b true (h + 2) m c = forest b true (h + 1) (m * b + 1) (c * b) := by
  rw [← flatMap_forest_children, forest]
  simp

/-- **The leaves of a forest are the last `c * b ^ h` of its numbers.** -/
theorem forest_leaves (h : ℕ) {m c : ℕ} (hrow : m * b + 1 = m + c) :
    forest b true (h + 1) m c = List.range' (m + treeSize b c h) (c * b ^ h) := by
  induction h generalizing m c with
  | zero => simp [forest, treeSize]
  | succ h ih =>
    rw [forest_leaves_succ, hrow, ih (next_row b hrow), treeSize, Nat.pow_succ']
    congr 1
    · omega
    · ring

/-- The size of a tree, row by row from below. -/
theorem treeSize_succ (c h : ℕ) : treeSize b c (h + 1) = treeSize b c h + c * b ^ h := by
  induction h generalizing c with
  | zero => simp [treeSize]
  | succ h ih =>
    rw [treeSize, ih, treeSize, Nat.pow_succ']
    ring

/-- A tree of unary branching is a line. -/
theorem treeSize_one (c h : ℕ) : treeSize 1 c h = c * h := by
  induction h generalizing c with
  | zero => rfl
  | succ h ih => rw [treeSize, Nat.mul_one, ih, Nat.mul_succ, Nat.add_comm]

theorem treeSize_mul (c k h : ℕ) : treeSize b (c * k) h = c * treeSize b k h := by
  induction h generalizing k with
  | zero => rfl
  | succ h ih => rw [treeSize, Nat.mul_assoc, ih, treeSize, Nat.mul_add]

/-- The geometric sum, without a division. -/
theorem treeSize_mul_pred {b : ℕ} (hb : 1 ≤ b) (c h : ℕ) :
    treeSize b c h * (b - 1) + c = c * b ^ h := by
  obtain ⟨k, rfl⟩ : ∃ k, b = k + 1 := ⟨b - 1, by omega⟩
  induction h generalizing c with
  | zero => simp [treeSize]
  | succ h ih =>
    have hrow := ih (c * (k + 1))
    simp only [Nat.add_sub_cancel] at hrow ⊢
    rw [treeSize, Nat.pow_succ', ← Nat.mul_assoc, ← hrow]
    ring

/-- The number of nodes by the formula for a geometric sum. -/
theorem treeSize_eq_div {b : ℕ} (hb : 2 ≤ b) (h : ℕ) : treeSize b 1 h = (b ^ h - 1) / (b - 1) := by
  have hsum := treeSize_mul_pred (by omega : 1 ≤ b) 1 h
  rw [Nat.one_mul] at hsum
  rw [← hsum, Nat.add_sub_cancel, Nat.mul_div_cancel _ (by omega)]

/-! ## Paths -/

/-- The numbers on the way from the top row to node `n`, where the parent of a node is found from
its number. -/
def ancestors (n : ℕ) : List ℕ :=
  if b < n then ancestors ((n - 1) / b) ++ [n] else [n]
termination_by n
decreasing_by
  have := Nat.div_le_self (n - 1) b
  omega

/-- The way to a child of the top. -/
theorem ancestors_top {n : ℕ} (h : n ≤ b) : ancestors b n = [n] := by
  rw [ancestors, if_neg (by omega)]

theorem getLast?_ancestors (n : ℕ) : (ancestors b n).getLast? = some n := by
  rw [ancestors]
  split
  · exact List.getLast?_concat
  · rfl

/-- The parent of the children of `d`. -/
theorem parent_child {d i : ℕ} (hi : i < b) : (d * b + 1 + i - 1) / b = d := by
  rw [show d * b + 1 + i - 1 = i + d * b by omega, Nat.add_mul_div_right _ _ (by omega),
    Nat.div_eq_of_lt hi, Nat.zero_add]

theorem ancestors_child {d i : ℕ} (hd : 0 < d) (hi : i < b) :
    ancestors b (d * b + 1 + i) = ancestors b d ++ [d * b + 1 + i] := by
  have hlt : b < d * b + 1 + i := by
    have := Nat.le_mul_of_pos_left b hd
    omega
  rw [ancestors, if_pos hlt, parent_child b hi]

end Fstest.LevelOrder
