import Mathlib.Data.List.Infix

/-!
# Endings of a list

Taking an ending off a list as often as it is there. What is left is the only list without the ending
that gives the first one back when endings are put behind it (`Trimmed.unique`).
-/

namespace Fstest

variable {α : Type*}

/-- So many copies of `pat`. -/
def copies (pat : List α) (k : ℕ) : List α := (List.replicate k pat).flatten

/-- `r` is `s` without the endings `pat`. -/
structure Trimmed (pat s r : List α) : Prop where
  copies : ∃ k, s = r ++ copies pat k
  bare : ¬ pat <:+ r

@[simp]
theorem copies_zero (pat : List α) : copies pat 0 = [] := rfl

theorem copies_succ (pat : List α) (k : ℕ) : copies pat (k + 1) = copies pat k ++ pat := by
  rw [copies, List.replicate_succ', List.flatten_concat, ← copies]

/-- What is left without the endings is determined. -/
theorem Trimmed.unique {pat s r r' : List α} (h : Trimmed pat s r) (h' : Trimmed pat s r') : r = r' := by
  obtain ⟨⟨k, hk⟩, hbare⟩ := h
  obtain ⟨⟨k', hk'⟩, hbare'⟩ := h'
  rw [hk] at hk'
  clear hk
  induction k generalizing k' with
  | zero =>
    cases k' with
    | zero => simpa using hk'
    | succ k' =>
      rw [copies_zero, List.append_nil, copies_succ, ← List.append_assoc] at hk'
      exact absurd (hk' ▸ List.suffix_append _ _) hbare
  | succ k ih =>
    rw [copies_succ, ← List.append_assoc] at hk'
    cases k' with
    | zero =>
      rw [copies_zero, List.append_nil] at hk'
      exact absurd (hk' ▸ List.suffix_append _ _) hbare'
    | succ k' =>
      rw [copies_succ, ← List.append_assoc] at hk'
      exact ih k' (List.append_cancel_right hk')

section

variable [DecidableEq α] (pat : List α)

/-- `trim_end_matches`, with as many endings at most as `n`. -/
def trimEndMatchesFrom : ℕ → List α → List α
  | 0, s => s
  | n + 1, s => if pat <:+ s then trimEndMatchesFrom n (s.take (s.length - pat.length)) else s

def trimEndMatches (s : List α) : List α := trimEndMatchesFrom pat s.length s

variable {pat}

theorem trimmed_trimEndMatchesFrom (hpat : pat ≠ []) {n : ℕ} {s : List α} (h : s.length ≤ n) :
    Trimmed pat s (trimEndMatchesFrom pat n s) := by
  induction n generalizing s with
  | zero =>
    obtain rfl := List.length_eq_zero_iff.mp (Nat.le_zero.mp h)
    exact ⟨⟨0, rfl⟩, fun hs => hpat (List.suffix_nil.mp hs)⟩
  | succ n ih =>
    rw [trimEndMatchesFrom]
    split
    · rename_i hs
      obtain ⟨r, rfl⟩ := hs
      have hlen : 0 < pat.length := List.length_pos_iff.mpr hpat
      rw [List.length_append] at h
      rw [List.length_append, Nat.add_sub_cancel, List.take_left]
      obtain ⟨⟨k, hk⟩, hbare⟩ := ih (s := r) (by omega)
      refine ⟨⟨k + 1, ?_⟩, hbare⟩
      rw [copies_succ, ← List.append_assoc, ← hk]
    · exact ⟨⟨0, (List.append_nil s).symm⟩, ‹_›⟩

theorem trimmed_trimEndMatches (hpat : pat ≠ []) (s : List α) : Trimmed pat s (trimEndMatches pat s) :=
  trimmed_trimEndMatchesFrom hpat le_rfl

end

end Fstest
