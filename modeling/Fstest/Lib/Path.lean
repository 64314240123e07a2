import Mathlib.Data.List.Basic

/-!
# Paths and numbered names

A path is the list of its components. The names the programs make end in a decimal number, or hold
two of them with a dot between; both kinds determine their numbers.
-/

namespace Fstest

/-- A path, as its components. -/
abbrev Path := List String

theorem toString_injective {m n : ℕ} (h : toString m = toString n) : m = n := by
  have hdigits : Nat.toDigits 10 m = Nat.toDigits 10 n := by
    rw [← Nat.toList_repr, ← Nat.toList_repr]
    exact congrArg String.toList h
  rw [← Nat.ofDigitChars_ten_toDigits (n := m), hdigits, Nat.ofDigitChars_ten_toDigits]

theorem digitChar_injective {m n : ℕ} (hm : m < 16) (hn : n < 16)
    (h : Nat.digitChar m = Nat.digitChar n) : m = n := by
  have hall : ∀ i j : Fin 16, Nat.digitChar i = Nat.digitChar j → i = j := by decide
  exact congrArg Fin.val (hall ⟨m, hm⟩ ⟨n, hn⟩ h)

/-- A number is determined by its digits. -/
theorem toDigits_injective {b m n : ℕ} (hb : 1 < b) (hb' : b ≤ 16)
    (h : Nat.toDigits b m = Nat.toDigits b n) : m = n := by
  induction m using Nat.strongRecOn generalizing n with
  | ind m ih =>
    have hlast : ∀ k, Nat.toDigits b k =
        (if k < b then [] else Nat.toDigits b (k / b)) ++ [Nat.digitChar (k % b)] := by
      intro k
      rw [Nat.toDigits_eq_if hb]
      split
      · rw [Nat.mod_eq_of_lt ‹_›, List.nil_append]
      · rfl
    rw [hlast m, hlast n] at h
    obtain ⟨hfront, hdigit⟩ := List.append_inj' h rfl
    have hlt : ∀ k, k % b < 16 := fun k =>
      Nat.lt_of_lt_of_le (Nat.mod_lt k (Nat.lt_of_succ_lt hb)) hb'
    have hmod := digitChar_injective (hlt m) (hlt n) (List.cons.inj hdigit).1
    have hdiv : m / b = n / b := by
      by_cases hm : m < b <;> by_cases hn : n < b
      · rw [Nat.div_eq_of_lt hm, Nat.div_eq_of_lt hn]
      · rw [if_pos hm, if_neg hn] at hfront
        exact absurd hfront.symm Nat.toDigits_ne_nil
      · rw [if_neg hm, if_pos hn] at hfront
        exact absurd hfront Nat.toDigits_ne_nil
      · rw [if_neg hm, if_neg hn] at hfront
        exact ih _ (Nat.div_lt_self (by omega) hb) hfront
    rw [← Nat.div_add_mod m b, ← Nat.div_add_mod n b, hdiv, hmod]

theorem append_left_cancel {s t u : String} (h : s ++ t = s ++ u) : t = u := by
  have hlist := congrArg String.toList h
  rw [String.toList_append, String.toList_append] at hlist
  exact String.toList_injective (List.append_cancel_left hlist)

/-- A decimal number has only digits. -/
theorem notMem_toString {c : Char} (hc : c.isDigit = false) (n : ℕ) : c ∉ (toString n).toList := by
  intro h
  rw [show toString n = n.repr from rfl, Nat.toList_repr] at h
  have hdigit := Nat.isDigit_of_mem_toDigits (by decide) (by decide) h
  rw [hc] at hdigit
  cases hdigit

theorem dot_notMem_toString (n : ℕ) : '.' ∉ (toString n).toList := notMem_toString rfl n

/-- Lists are split at the first occurrence of an element in one way only. -/
theorem split_at_first {α : Type} {a : α} {l l' r r' : List α} (hl : a ∉ l) (hl' : a ∉ l')
    (h : l ++ a :: r = l' ++ a :: r') : l = l' ∧ r = r' := by
  induction l generalizing l' with
  | nil =>
    cases l' with
    | nil => exact ⟨rfl, (List.cons.inj h).2⟩
    | cons x l' => exact absurd (by rw [(List.cons.inj h).1]; simp) hl'
  | cons y l ih =>
    cases l' with
    | nil => exact absurd (by rw [← (List.cons.inj h).1]; simp) hl
    | cons x l' =>
      obtain ⟨hhead, htail⟩ := List.cons.inj h
      obtain ⟨h1, h2⟩ := ih (fun hm => hl (by simp [hm])) (fun hm => hl' (by simp [hm])) htail
      exact ⟨by rw [hhead, h1], h2⟩

/-- Parts without the separator can be read off what they are joined to. -/
theorem intercalate_injective {α : Type} {a : α} {l l' : List (List α)} (hl : ∀ x ∈ l, a ∉ x)
    (hl' : ∀ x ∈ l', a ∉ x) (hne : l ≠ []) (hne' : l' ≠ [])
    (h : [a].intercalate l = [a].intercalate l') : l = l' := by
  induction l generalizing l' with
  | nil => exact absurd rfl hne
  | cons x l ih =>
    have hx := hl x List.mem_cons_self
    cases l' with
    | nil => exact absurd rfl hne'
    | cons x' l' =>
      have hx' := hl' x' List.mem_cons_self
      cases l with
      | nil =>
        cases l' with
        | nil =>
          rw [List.intercalate_singleton, List.intercalate_singleton] at h
          rw [h]
        | cons y' l' =>
          rw [List.intercalate_singleton, List.intercalate_cons_cons] at h
          exact absurd (by rw [h]; simp) hx
      | cons y l =>
        cases l' with
        | nil =>
          rw [List.intercalate_singleton, List.intercalate_cons_cons] at h
          exact absurd (by rw [← h]; simp) hx'
        | cons y' l' =>
          rw [List.intercalate_cons_cons, List.intercalate_cons_cons, List.append_assoc,
            List.append_assoc] at h
          obtain ⟨rfl, hrest⟩ := split_at_first hx hx' h
          rw [ih (fun z hz => hl z (List.mem_cons_of_mem x hz))
            (fun z hz => hl' z (List.mem_cons_of_mem x hz)) (List.cons_ne_nil y l)
            (List.cons_ne_nil y' l') hrest]

/-- A name with two numbers determines both. -/
theorem dotted_injective {m n i j : ℕ}
    (h : toString m ++ "." ++ toString i = toString n ++ "." ++ toString j) : m = n ∧ i = j := by
  have hlist := congrArg String.toList h
  simp only [String.toList_append] at hlist
  rw [List.append_assoc, List.append_assoc] at hlist
  obtain ⟨h1, h2⟩ := split_at_first (dot_notMem_toString m) (dot_notMem_toString n) hlist
  exact ⟨toString_injective (String.toList_injective h1),
    toString_injective (String.toList_injective h2)⟩

end Fstest
