import Fstest.Lib.Numeral

/-!
# The numbers of pjdfstest's helper

`parse_num` follows `strtol` with base 0, by its comment. The radix is seen from the prefix before a sign is
read, so a sign may stand between the prefix and the digits, and none before the prefix; a decimal with a
sign may have leading zeros; and a text that is no numeral as a whole is zero, where `strtol` reads the
digits that it begins with (`parseNum_eq_strtol_iff`).
-/

namespace Fstest.Pjdfstest

open Text Numeral

def parseNum (s : Text) : ℤ :=
  let s := trim s
  match (stripPrefix (text "0x") s).or (stripPrefix (text "0X") s) with
  | some hex => (i64FromStrRadix hex 16).getD 0
  | none =>
    if 1 < utf8Len s ∧ s.head? = some '0' then (i64FromStrRadix (s.drop 1) 8).getD 0
    else (i64FromStrRadix s 10).getD 0

/-! ## The prefixes -/

/-- The radix, and the text that has to be a numeral of it. -/
def splitRadix : Text → ℕ × Text
  | '0' :: 'x' :: s => (16, s)
  | '0' :: 'X' :: s => (16, s)
  | '0' :: c :: s => (8, c :: s)
  | s => (10, s)

theorem stripPrefix_hex (x c : Char) (s : Text) :
    stripPrefix ['0', x] ('0' :: c :: s) = if c = x then some s else none := by
  by_cases hc : c = x
  · rw [hc]
    simp [stripPrefix]
  · simp [stripPrefix, hc, Ne.symm hc]

/-- A text is led by the prefix of a radix, or is one for the decimals. -/
theorem splitRadix_cases (t : Text) :
    (∃ x b, (x = 'x' ∨ x = 'X') ∧ t = '0' :: x :: b ∧ splitRadix t = (16, b)) ∨
    (∃ c b, c ≠ 'x' ∧ c ≠ 'X' ∧ t = '0' :: c :: b ∧ splitRadix t = (8, c :: b)) ∨
    ((∀ c b, t ≠ '0' :: c :: b) ∧ splitRadix t = (10, t)) := by
  rw [splitRadix.eq_def]
  split
  · exact Or.inl ⟨'x', _, Or.inl rfl, rfl, rfl⟩
  · exact Or.inl ⟨'X', _, Or.inr rfl, rfl, rfl⟩
  · rename_i c b hx hX
    exact Or.inr (Or.inl ⟨c, b, hx, hX, rfl, rfl⟩)
  · rename_i h
    exact Or.inr (Or.inr ⟨fun c b heq => h c b heq, rfl⟩)

theorem parseNum_eq (s : Text) :
    parseNum s = (i64FromStrRadix (splitRadix (trim s)).2 (splitRadix (trim s)).1).getD 0 := by
  rw [parseNum, show text "0x" = ['0', 'x'] from rfl, show text "0X" = ['0', 'X'] from rfl]
  rcases splitRadix_cases (trim s) with ⟨x, b, hx, ht, hsplit⟩ | ⟨c, b, hx, hX, ht, hsplit⟩ | ⟨ht, hsplit⟩
  · rw [hsplit, ht]
    rcases hx with rfl | rfl <;> simp [stripPrefix_hex]
  · have hlen : 1 < utf8Len ('0' :: c :: b) := by
      have hc := c.utf8Size_pos
      have hzero : '0'.utf8Size = 1 := rfl
      simp only [utf8Len, List.map_cons, List.sum_cons]
      omega
    rw [hsplit, ht]
    simp [stripPrefix_hex, hx, hX, hlen]
  · rw [hsplit]
    generalize trim s = t at ht
    have hnone : ∀ x, stripPrefix ['0', x] t = none := fun x => stripPrefix_of_not <| by
      rcases t with _ | ⟨a, _ | ⟨b, t⟩⟩
      · rfl
      · simp [List.isPrefixOf]
      · have ha : a ≠ '0' := fun h => ht b t (by rw [h])
        simp [List.isPrefixOf, ha.symm]
    have hzero : ¬ (1 < utf8Len t ∧ t.head? = some '0') := by
      rintro ⟨hlen, hhead⟩
      rcases t with _ | ⟨a, _ | ⟨b, t⟩⟩
      · exact absurd hhead (by decide)
      · obtain rfl : a = '0' := by simpa using hhead
        exact absurd hlen (by decide)
      · exact ht b t (by rw [(by simpa using hhead : a = '0')])
    simp [hnone, if_neg hzero]

/-- The sign, the radix and the digits for `parse_num`. -/
def reading (t : Text) : Reading := whole (splitRadix t).1 (splitRadix t).2

theorem reading_eq {t b : Text} {r : ℕ} (h : splitRadix t = (r, b)) : reading t = whole r b := by
  rw [reading, h]

theorem reading_radix_pos (t : Text) : 0 < (reading t).radix := by
  rcases splitRadix_cases t with ⟨x, b, -, -, hsplit⟩ | ⟨c, b, -, -, -, hsplit⟩ | ⟨-, hsplit⟩
  all_goals
    rw [reading_eq hsplit]
    exact Nat.succ_pos _

/-- `strtol` reads the text to its end, and in the radix of `parse_num`: no sign follows a prefix, and a
decimal that begins with a zero is less than 8. -/
structure Plain (t : Text) : Prop where
  ne_nil : (reading t).digits ≠ []
  digits : ∀ c ∈ (reading t).digits, isDigit (reading t).radix c = true
  no_sign : (reading t).radix ≠ 10 → (reading t).digits = (splitRadix t).2
  small : (reading t).radix = 10 → (reading t).digits.head? = some '0' → number 10 (reading t).digits < 8

/-- The digits that `strtol` reads are zeros, if it reads any. -/
def Silent (s : Text) : Prop := ∀ c ∈ (strtolReading s).digits, c = '0'

/-- What the prefix leaves is no numeral, or one of zeros. -/
def Unread (t : Text) : Prop := (reading t).IsNumeral → ∀ c ∈ (reading t).digits, c = '0'

/-! ## The two readings -/

section Readings

variable {t : Text}

/-- Before a sign, the zero of a prefix is all that `strtol` reads. -/
theorem read_prefix_sign {x c : Char} {b : Text} (hx : x = 'x' ∨ x = 'X') (hc : c = '-' ∨ c = '+') :
    (read ('0' :: x :: c :: b)).digits = ['0'] := by
  refine read_zero ?_ ?_
  · rw [hexLed_cons hx, not_isDigit_sign hc]
  · rcases hx with rfl | rfl <;> rfl

theorem read_zero_sign {c : Char} {b : Text} (hc : c = '-' ∨ c = '+') :
    (read ('0' :: c :: b)).digits = ['0'] := by
  refine read_zero ?_ (not_isDigit_sign hc 8)
  rcases hc with rfl | rfl <;> cases b <;> rfl

/-- The digits of a plain text are those that `strtol` reads. -/
theorem Plain.value_eq (h : Plain t) : (read t).value = (reading t).value := by
  obtain ⟨hne, hdigits, hsign, hsmall⟩ := h
  rcases splitRadix_cases t with ⟨x, b, hx, rfl, hsplit⟩ | ⟨c, b, -, -, rfl, hsplit⟩ | ⟨-, hsplit⟩
  · rw [reading_eq hsplit] at hne hdigits hsign ⊢
    rw [hsplit] at hsign
    have hb : (whole 16 b).digits = b := hsign (by simp)
    rw [hb] at hne hdigits
    rw [whole_radix] at hdigits
    rw [read_hex hx hne hdigits, whole_of_digits hdigits]
  · rw [reading_eq hsplit] at hdigits hsign ⊢
    rw [hsplit] at hsign
    have hb : (whole 8 (c :: b)).digits = c :: b := hsign (by simp)
    rw [hb, whole_radix] at hdigits
    rw [read_octal hdigits, whole_of_digits hdigits, Reading.value_congr, number_zero_cons]
  · rw [reading_eq hsplit] at hdigits hsmall ⊢
    by_cases hzero : (whole 10 t).digits.head? = some '0'
    · rw [read_decimal_zero hzero hdigits]
      exact Reading.value_congr.mpr
        ((number_takeWhile_eq_iff (by decide) (by simp) hdigits).mpr (hsmall rfl hzero))
    · rw [read_decimal hzero hdigits]
      rfl

/-- A text that both read as one number, other than zero, is plain. -/
theorem plain_of_eq (h : (reading t).IsNumeral) (hne : (read t).value ≠ 0)
    (heq : (read t).value = (reading t).value) : Plain t := by
  have hzero : (read t).digits ≠ ['0'] := fun hzero => hne ((read_value_eq_zero t).mpr (by simp [hzero]))
  refine ⟨h.ne_nil, h.digits, ?_, ?_⟩
  · intro hradix
    by_contra hsign
    rcases splitRadix_cases t with ⟨x, b, hx, rfl, hsplit⟩ | ⟨c, b, -, -, rfl, hsplit⟩ | ⟨-, hsplit⟩
    · rw [reading_eq hsplit, hsplit] at hsign
      obtain ⟨c, b, rfl, hc⟩ := head_of_splitSign hsign
      exact hzero (read_prefix_sign hx hc)
    · rw [reading_eq hsplit, hsplit] at hsign
      obtain ⟨d, b', hd, hc⟩ := head_of_splitSign hsign
      obtain ⟨rfl, rfl⟩ : c = d ∧ b = b' := by simpa using hd
      exact hzero (read_zero_sign hc)
    · rw [reading_eq hsplit] at hradix
      exact hradix rfl
  · intro hradix hhead
    have hdigits := h.digits
    rcases splitRadix_cases t with ⟨x, b, -, rfl, hsplit⟩ | ⟨c, b, -, -, rfl, hsplit⟩ | ⟨-, hsplit⟩
    · rw [reading_eq hsplit] at hradix
      exact absurd hradix (by simp)
    · rw [reading_eq hsplit] at hradix
      exact absurd hradix (by simp)
    · rw [reading_eq hsplit] at heq hdigits hhead ⊢
      rw [read_decimal_zero hhead hdigits] at heq
      exact (number_takeWhile_eq_iff (by decide) (by simp) hdigits).mp (Reading.value_congr.mp heq)

end Readings

/-- **`parse_num` and `strtol`** agree on the texts that both read to their end in one radix, and where
neither finds another digit than zero. -/
theorem parseNum_eq_strtol_iff (s : Text) (h : IsI64 (strtolReading s).value) :
    parseNum s = strtol s ↔ (SpaceLed s ∧ Plain (trim s)) ∨ (Silent s ∧ Unread (trim s)) := by
  have hsilent : (strtolReading s).value = 0 ↔ Silent s := read_value_eq_zero _
  have hunread : parseNum s = 0 ↔ Unread (trim s) := by
    rw [parseNum_eq]
    exact i64FromStrRadix_eq_zero_iff (reading_radix_pos _)
  rw [strtol_eq h]
  constructor
  · intro heq
    by_cases hzero : (strtolReading s).value = 0
    · exact Or.inr ⟨hsilent.mp hzero, hunread.mp (heq.trans hzero)⟩
    have hled : SpaceLed s := by
      by_contra hnot
      exact hzero (hsilent.mpr (by simp [Silent, digits_of_not_spaceLed hnot]))
    have hnumeral : (reading (trim s)).IsNumeral := by
      by_contra hnot
      exact hzero (heq.symm.trans (hunread.mpr fun h => absurd h hnot))
    rw [hled.reading_eq] at heq hzero
    have hvalue : parseNum s = (reading (trim s)).value := by
      rw [parseNum_eq, i64FromStrRadix, ← reading, if_pos hnumeral, Option.getD_some]
    exact Or.inl ⟨hled, plain_of_eq hnumeral hzero (heq.symm.trans hvalue)⟩
  · rintro (⟨hled, hplain⟩ | ⟨hzero, hzero'⟩)
    · rw [hled.reading_eq, hplain.value_eq] at h ⊢
      have hnumeral : (reading (trim s)).IsNumeral := ⟨hplain.ne_nil, hplain.digits, h⟩
      rw [parseNum_eq, i64FromStrRadix, ← reading, if_pos hnumeral, Option.getD_some]
    · rw [hsilent.mpr hzero, hunread.mpr hzero']

theorem parseNum_eq_strtol_iff_hex : parseNum (text " 0x1f\n") = strtol (text " 0x1f\n") :=
  (parseNum_eq_strtol_iff (text " 0x1f\n") (by decide)).mpr <| Or.inl
    ⟨by decide,
      { ne_nil := by decide
        digits := List.all_eq_true.mp (by decide)
        no_sign := fun _ => by decide
        small := fun h => absurd h (by decide) }⟩

/-- With a sign, a number that a zero leads is read as a decimal. -/
theorem parseNum_ne_strtol : ¬ ∀ s, IsI64 (strtolReading s).value → parseNum s = strtol s := fun h =>
  absurd (h (text "-010") (by decide)) (by decide)

example : (["-010", "12k", "-0x10", "0x-5"].map fun s => (parseNum (text s), strtol (text s))) =
    [(-10, -8), (0, 12), (0, -16), (-5, 0)] := by decide

end Fstest.Pjdfstest
