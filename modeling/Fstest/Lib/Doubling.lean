import Mathlib.Data.List.Basic
import Mathlib.Tactic.Common

/-!
# Text between delimiters that are doubled

A text that stands between two delimiters may have the delimiter in it, if it is written twice there.
The end of such a text can be found, whatever comes after it, as long as that does not begin with a
delimiter (`doubled_unambiguous`).
-/

namespace Fstest

variable {α : Type*} [DecidableEq α] {q : α} {a b r s : List α}

/-- The text with every `q` doubled. -/
def doubled (q : α) : List α → List α
  | [] => []
  | c :: l => if c = q then q :: q :: doubled q l else c :: doubled q l

theorem doubled_cons_self (q : α) (l : List α) : doubled q (q :: l) = q :: q :: doubled q l :=
  if_pos rfl

theorem doubled_cons_ne {c : α} (hc : c ≠ q) (l : List α) : doubled q (c :: l) = c :: doubled q l :=
  if_neg hc

/-- A single delimiter is the end, and a doubled one is none. -/
theorem doubled_ne_delimiter (hr : r.head? ≠ some q) (l : List α) :
    doubled q (q :: a) ++ l ≠ q :: r := by
  rw [doubled_cons_self]
  intro h
  exact hr (by rw [← (List.cons.inj h).2]; rfl)

theorem doubled_unambiguous (hr : r.head? ≠ some q) (hs : s.head? ≠ some q)
    (h : doubled q a ++ q :: r = doubled q b ++ q :: s) : a = b ∧ r = s := by
  induction a generalizing b with
  | nil =>
    cases b with
    | nil => exact ⟨rfl, (List.cons.inj h).2⟩
    | cons d b =>
      by_cases hd : d = q
      · rw [hd] at h
        exact absurd h.symm (doubled_ne_delimiter hr _)
      · rw [doubled_cons_ne hd] at h
        exact absurd (List.cons.inj h).1.symm hd
  | cons c a ih =>
    by_cases hc : c = q
    · subst hc
      cases b with
      | nil => exact absurd h (doubled_ne_delimiter hs _)
      | cons d b =>
        by_cases hd : d = c
        · subst hd
          rw [doubled_cons_self, doubled_cons_self] at h
          obtain ⟨rfl, hrest⟩ := ih (List.cons.inj (List.cons.inj h).2).2
          exact ⟨rfl, hrest⟩
        · rw [doubled_cons_self, doubled_cons_ne hd] at h
          exact absurd (List.cons.inj h).1.symm hd
    · rw [doubled_cons_ne hc] at h
      cases b with
      | nil => exact absurd (List.cons.inj h).1 hc
      | cons d b =>
        by_cases hd : d = q
        · rw [hd, doubled_cons_self] at h
          exact absurd (List.cons.inj h).1 hc
        · rw [doubled_cons_ne hd] at h
          obtain ⟨hhead, htail⟩ := List.cons.inj h
          obtain ⟨hbody, hrest⟩ := ih htail
          exact ⟨by rw [hhead, hbody], hrest⟩

end Fstest
