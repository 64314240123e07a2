import Fstest.Lib.Text

/-!
# Lines and numbers that are written and read again

A text of lines that each end in a line feed has these lines, but for carriage returns at their ends
(`lines_unlines`). Decimal digits read back as their number (`parseU64_decimal`). What stands before the
first separator is known where the separator's first character occurs nowhere before (`splitOnce_mark`).
-/

namespace Fstest.Text

/-- Each line with a line feed behind it. -/
def unlines (ls : List Text) : Text := ls.flatMap fun l => l ++ ['\n']

/-- A number with zeros in front, at least `w` characters wide. -/
def padded (w n : ℕ) : Text := List.replicate (w - (decimal n).length) '0' ++ decimal n

/-! ## Lines -/

section

variable {c : Char} {l s a : Text}

theorem linesFrom_line (h : '\n' ∉ l) (s cur : Text) :
    linesFrom (l ++ s) cur = linesFrom s (l.reverse ++ cur) := by
  induction l generalizing cur with
  | nil => rfl
  | cons c l ih =>
    obtain ⟨hc, hl⟩ := not_or.mp (mt List.mem_cons.mpr h)
    rw [List.cons_append, linesFrom, ih hl, List.reverse_cons, List.append_assoc]
    · rfl
    · exact fun heq => hc heq.symm

/-- A line before others. -/
theorem lines_cons (h : '\n' ∉ l) (s : Text) : lines (l ++ '\n' :: s) = stripCr l :: lines s := by
  rw [lines, linesFrom_line h, linesFrom, List.append_nil, List.reverse_reverse, lines]

/-- **Written lines read back**, before whatever follows. -/
theorem lines_unlines {ls : List Text} (h : ∀ l ∈ ls, '\n' ∉ l) (s : Text) :
    lines (unlines ls ++ s) = ls.map stripCr ++ lines s := by
  induction ls with
  | nil => rfl
  | cons l ls ih =>
    obtain ⟨hl, hls⟩ := List.forall_mem_cons.mp h
    have hsplit : unlines (l :: ls) ++ s = l ++ '\n' :: (unlines ls ++ s) := by
      rw [unlines, List.flatMap_cons, ← unlines, List.append_assoc, List.append_assoc,
        List.singleton_append]
    rw [hsplit, lines_cons hl, ih hls]
    rfl

theorem stripCr_append (h : a.getLast? ≠ some '\r') (l : Text) : stripCr (a ++ l) = a ++ stripCr l := by
  cases l with
  | nil => rw [List.append_nil, stripCr, if_neg h, stripCr, if_neg (by simp), List.append_nil]
  | cons c l =>
    have hlast : (a ++ c :: l).getLast? = (c :: l).getLast? := by
      rw [List.getLast?_append, List.getLast?_cons]
      rfl
    rw [stripCr, stripCr, hlast]
    split
    · exact List.dropLast_append_of_ne_nil (List.cons_ne_nil c l)
    · rfl

theorem stripCr_isPrefix (l : Text) : stripCr l <+: l := by
  rw [stripCr]
  split
  · exact List.dropLast_prefix l
  · exact List.prefix_rfl

/-- A piece does not contain what it was split at. -/
theorem not_mem_of_mem_splitOn (h : l ∈ s.splitOn c) : c ∉ l := by
  induction s generalizing l with
  | nil =>
    rw [List.splitOn_nil, List.mem_singleton] at h
    rw [h]
    exact List.not_mem_nil
  | cons d s ih =>
    rw [List.splitOn_cons_eq_if_modifyHead] at h
    split at h
    · rcases List.mem_cons.mp h with rfl | h
      · exact List.not_mem_nil
      · exact ih h
    · rename_i hne
      obtain ⟨r, rs, hr⟩ := List.exists_cons_of_ne_nil (List.splitOn_ne_nil c s)
      rw [hr, List.modifyHead_cons] at h
      rcases List.mem_cons.mp h with rfl | h
      · refine fun hmem => (List.mem_cons.mp hmem).elim (fun heq => hne (by rw [heq, beq_self_eq_true])) ?_
        exact ih (hr ▸ List.mem_cons_self)
      · exact ih (hr ▸ List.mem_cons_of_mem _ h)

end

/-! ## Separators -/

section

variable {c d : Char} {sep a s r : Text}

theorem stripPrefix_append (p s : Text) : stripPrefix p (p ++ s) = some s := by
  rw [stripPrefix, if_pos (List.isPrefixOf_iff_prefix.mpr (List.prefix_append p s)), List.drop_left]

theorem stripPrefix_cons_of_ne (h : c ≠ d) (p s : Text) : stripPrefix (c :: p) (d :: s) = none := by
  refine stripPrefix_of_not (Bool.eq_false_iff.mpr fun hpre => ?_)
  exact h (Option.some.inj (head?_of_isPrefixOf hpre)).symm

/-- A separator does not begin where its first character does not occur. -/
theorem splitOnce_append (h : c ∉ a) (s : Text) :
    splitOnce (c :: sep) (a ++ s) = (splitOnce (c :: sep) s).map fun r => (a ++ r.1, r.2) := by
  induction a with
  | nil =>
    rw [List.nil_append]
    cases splitOnce (c :: sep) s <;> rfl
  | cons d a ih =>
    obtain ⟨hd, ha⟩ := not_or.mp (mt List.mem_cons.mpr h)
    rw [List.cons_append, splitOnce, stripPrefix_cons_of_ne hd, ih ha]
    cases splitOnce (c :: sep) s <;> rfl

/-- **The first separator** is the one before which its first character does not occur. -/
theorem splitOnce_mark (h : c ∉ a) (r : Text) :
    splitOnce (c :: sep) (a ++ (c :: sep ++ r)) = some (a, r) := by
  have hnow : splitOnce (c :: sep) (c :: sep ++ r) = some ([], r) := by
    rw [List.cons_append, splitOnce, ← List.cons_append, stripPrefix_append]
  rw [splitOnce_append h, hnow, Option.map_some, List.append_nil]

theorem splitOnce_cons_eq_none (h : sep.isPrefixOf (c :: s) = false) (hs : splitOnce sep s = none) :
    splitOnce sep (c :: s) = none := by
  rw [splitOnce, stripPrefix_of_not h, hs]
  rfl

theorem splitOnce_eq_none (hne : sep ≠ []) (h : ¬ sep <:+: s) : splitOnce sep s = none := by
  induction s with
  | nil => rw [splitOnce, if_neg hne]
  | cons c s ih =>
    have hpre : sep.isPrefixOf (c :: s) = false :=
      Bool.eq_false_iff.mpr fun hpre => h (List.isPrefixOf_iff_prefix.mp hpre).isInfix
    exact splitOnce_cons_eq_none hpre (ih fun hinf => h (List.infix_cons hinf))

end

/-! ## Decimal numbers -/

theorem digitsFrom_append (n : ℕ) (s t : Text) :
    digitsFrom n (s ++ t) = (digitsFrom n s).bind fun m => digitsFrom m t := by
  induction s generalizing n with
  | nil => rfl
  | cons c s ih =>
    rw [List.cons_append, digitsFrom, digitsFrom]
    split
    · exact ih _
    · rfl

theorem digitsFrom_toDigits (n : ℕ) : digitsFrom 0 (Nat.toDigits 10 n) = some n := by
  have hdigit : ∀ m, ∀ d < 10, digitsFrom m [Nat.digitChar d] = some (10 * m + d) := fun m d hd => by
    have hall : ∀ d : Fin 10, (decide ('0' ≤ Nat.digitChar d) && decide (Nat.digitChar d ≤ '9')) = true ∧
        (Nat.digitChar d).toNat - 48 = d.1 := by decide
    obtain ⟨hrange, hvalue⟩ := hall ⟨d, hd⟩
    rw [digitsFrom, if_pos hrange, hvalue, digitsFrom]
  induction n using Nat.strongRecOn with
  | ind n ih =>
    rw [Nat.toDigits_eq_if (by decide)]
    split
    · rw [hdigit 0 n ‹_›, Nat.mul_zero, Nat.zero_add]
    · rw [digitsFrom_append, ih (n / 10) (by omega), Option.bind_some,
        hdigit _ _ (Nat.mod_lt n (by decide)), Nat.div_add_mod]

theorem not_mem_decimal {c : Char} (h : ∀ d : Fin 10, c ≠ Nat.digitChar d) (n : ℕ) : c ∉ decimal n := by
  intro hmem
  obtain ⟨d, hd, heq⟩ := mem_toDigits (by decide) hmem
  exact h ⟨d, hd⟩ heq

/-- **Digits read back** as their number. -/
theorem parseU64_decimal {n : ℕ} (h : n < 2 ^ 64) : parseU64 (decimal n) = some n := by
  have hplus : '+' ∉ decimal n := not_mem_decimal (by decide) n
  have hvalue : digitsFrom 0 (decimal n) = some n := digitsFrom_toDigits n
  have hne : decimal n ≠ [] := Nat.toDigits_ne_nil
  generalize decimal n = s at hplus hvalue hne ⊢
  unfold parseU64
  simp only []
  split
  · exact absurd List.mem_cons_self hplus
  · rw [if_neg hne, hvalue, Option.bind_some, if_pos h]

theorem not_mem_padded {c : Char} (h : ∀ d : Fin 10, c ≠ Nat.digitChar d) (w n : ℕ) : c ∉ padded w n := by
  intro hmem
  rcases List.mem_append.mp hmem with hmem | hmem
  · exact h 0 (List.eq_of_mem_replicate hmem)
  · exact not_mem_decimal h n hmem

end Fstest.Text
