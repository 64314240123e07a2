import Fstest.Lib.Text
import Mathlib.Data.List.Induction
import Mathlib.Algebra.Order.Ring.Int

/-!
# Numerals

Integers as `i64::from_str_radix` of the Rust standard library reads them, the whole text or nothing, and as
`strtol` of C does with base 0: white space and a sign are skipped, the radix is seen from the prefix, and the
longest run of digits counts. Both take the same number from a run of digits. A run with leading zeros
that has been read in a smaller radix gives the same number only if this is a single digit
(`number_takeWhile_eq_iff`).
-/

namespace Fstest.Numeral

open Text

/-! ## Digits -/

/-- The value of a digit, of the 36 that there are. -/
def digitValue (c : Char) : Option ℕ :=
  let n := c.toNat
  if 48 ≤ n ∧ n ≤ 57 then some (n - 48)
  else if 97 ≤ n ∧ n ≤ 122 then some (n - 87)
  else if 65 ≤ n ∧ n ≤ 90 then some (n - 55)
  else none

def isDigit (r : ℕ) (c : Char) : Bool := (digitValue c).any (· < r)

def number (r : ℕ) (ds : Text) : ℕ := ds.foldl (fun n c => n * r + (digitValue c).getD 0) 0

def splitSign : Text → Bool × Text
  | '-' :: s => (true, s)
  | '+' :: s => (false, s)
  | s => (false, s)

/-- A sign, a radix and digits. -/
structure Reading where
  neg : Bool
  radix : ℕ
  digits : Text
  deriving DecidableEq

def Reading.value (x : Reading) : ℤ := if x.neg then -number x.radix x.digits else number x.radix x.digits

def IsI64 (v : ℤ) : Prop := -9223372036854775808 ≤ v ∧ v ≤ 9223372036854775807

instance : DecidablePred IsI64 := fun _ => inferInstanceAs (Decidable (_ ∧ _))

/-- Digits, at least one, of a number in the range. -/
structure Reading.IsNumeral (x : Reading) : Prop where
  ne_nil : x.digits ≠ []
  digits : ∀ c ∈ x.digits, isDigit x.radix c = true
  range : IsI64 x.value

instance : DecidablePred Reading.IsNumeral := fun x =>
  decidable_of_iff (x.digits ≠ [] ∧ x.digits.all (isDigit x.radix) = true ∧ IsI64 x.value)
    ⟨fun ⟨h, h', h''⟩ => ⟨h, List.all_eq_true.mp h', h''⟩,
      fun h => ⟨h.ne_nil, List.all_eq_true.mpr h.digits, h.range⟩⟩

/-- The whole text, after a sign. -/
def whole (r : ℕ) (s : Text) : Reading := { neg := (splitSign s).1, radix := r, digits := (splitSign s).2 }

/-- `i64::from_str_radix`. -/
def i64FromStrRadix (s : Text) (r : ℕ) : Option ℤ :=
  if (whole r s).IsNumeral then some (whole r s).value else none

section Digits

variable {r r' : ℕ} {c : Char}

theorem isDigit_iff : isDigit r c = true ↔ ∃ v, digitValue c = some v ∧ v < r := by
  cases h : digitValue c with
  | none => simp [isDigit, h]
  | some v => simp [isDigit, h]

theorem lt_of_isDigit (h : isDigit r c = true) : (digitValue c).getD 0 < r := by
  obtain ⟨v, hv, hlt⟩ := isDigit_iff.mp h
  rw [hv]
  exact hlt

theorem isDigit_mono (hr : r ≤ r') (h : isDigit r c = true) : isDigit r' c = true := by
  obtain ⟨v, hv, hlt⟩ := isDigit_iff.mp h
  exact isDigit_iff.mpr ⟨v, hv, hlt.trans_le hr⟩

/-- A digit that a smaller radix does not have is not less than the radix. -/
theorem le_of_not_isDigit (h : isDigit r' c = true) (h' : ¬ isDigit r c = true) :
    r ≤ (digitValue c).getD 0 := by
  obtain ⟨v, hv, -⟩ := isDigit_iff.mp h
  rw [hv]
  exact Nat.le_of_not_lt fun hlt => h' (isDigit_iff.mpr ⟨v, hv, hlt⟩)

theorem digitValue_eq_zero : digitValue c = some 0 ↔ c = '0' := by
  constructor
  · intro h
    have hcode : c.toNat = '0'.toNat := by
      have hzero : '0'.toNat = 48 := rfl
      simp only [digitValue] at h
      split_ifs at h <;> simp only [Option.some.injEq] at h <;> omega
    exact Char.toNat_inj.mp hcode
  · rintro rfl
    rfl

theorem getD_eq_zero_iff (h : isDigit r c = true) : (digitValue c).getD 0 = 0 ↔ c = '0' := by
  obtain ⟨v, hv, -⟩ := isDigit_iff.mp h
  rw [← digitValue_eq_zero, hv, Option.getD_some, Option.some.injEq]

/-- White space is no digit. -/
theorem not_isDigit_of_isWhitespace (h : isWhitespace c = true) (r : ℕ) : isDigit r c = false := by
  have hnone : digitValue c = none := by
    simp only [isWhitespace, Bool.or_eq_true, Bool.and_eq_true, beq_iff_eq, decide_eq_true_eq] at h
    simp only [digitValue]
    rw [if_neg (by omega), if_neg (by omega), if_neg (by omega)]
  rw [isDigit, hnone]
  rfl

end Digits

/-! ## Runs of digits -/

section Runs

variable {r r' : ℕ} {ds : Text}

@[simp]
theorem number_nil (r : ℕ) : number r [] = 0 := rfl

@[simp]
theorem number_concat (r : ℕ) (ds : Text) (c : Char) :
    number r (ds ++ [c]) = number r ds * r + (digitValue c).getD 0 := by
  rw [number, List.foldl_append]
  rfl

@[simp]
theorem number_zero_cons (r : ℕ) (ds : Text) : number r ('0' :: ds) = number r ds := by
  simp [number, digitValue]

theorem number_eq_zero_iff (hr : 0 < r) (h : ∀ c ∈ ds, isDigit r c = true) :
    number r ds = 0 ↔ ∀ c ∈ ds, c = '0' := by
  induction ds using List.reverseRecOn with
  | nil => simp
  | append_singleton ds c ih =>
    have hlast := getD_eq_zero_iff (h c (by simp))
    have hinit := ih fun d hd => h d (List.mem_append_left _ hd)
    rw [number_concat, Nat.add_eq_zero_iff, Nat.mul_eq_zero, or_iff_left hr.ne', hinit, hlast]
    simp [or_imp, forall_and]

/-- A run that stops before the last character is that of the others. -/
theorem takeWhile_concat (p : Char → Bool) (ds : Text) (c : Char) :
    (∀ d ∈ ds ++ [c], p d = true) ∨ (ds ++ [c]).takeWhile p = ds.takeWhile p := by
  by_cases hds : ∀ d ∈ ds, p d = true
  · by_cases hc : p c = true
    · left
      simpa [or_imp, forall_and] using ⟨hds, hc⟩
    · right
      rw [List.takeWhile_append_of_pos hds, List.takeWhile_eq_self_iff.mpr hds, List.takeWhile_cons_of_neg hc,
        List.append_nil]
  · right
    rw [List.takeWhile_append, if_neg]
    intro hlen
    have hself := (List.takeWhile_prefix p).eq_of_length hlen
    exact hds (List.takeWhile_eq_self_iff.mp hself)

theorem number_mono (hr : r ≤ r') (ds : Text) : number r ds ≤ number r' ds := by
  induction ds using List.reverseRecOn with
  | nil => exact le_rfl
  | append_singleton ds c ih =>
    rw [number_concat, number_concat]
    exact Nat.add_le_add_right (Nat.mul_le_mul ih hr) _

/-- The run of the digits that a smaller radix has too is not more in this radix. -/
theorem number_takeWhile_le (hr : r < r') (ds : Text) :
    number r (ds.takeWhile (isDigit r)) ≤ number r' ds := by
  induction ds using List.reverseRecOn with
  | nil => exact le_rfl
  | append_singleton ds c ih =>
    rcases takeWhile_concat (isDigit r) ds c with hall | hinit
    · rw [List.takeWhile_eq_self_iff.mpr hall]
      exact number_mono hr.le _
    · rw [hinit, number_concat]
      calc number r (ds.takeWhile (isDigit r)) ≤ number r' ds := ih
        _ ≤ number r' ds * r' := Nat.le_mul_of_pos_right _ (Nat.zero_lt_of_lt hr)
        _ ≤ _ := Nat.le_add_right _ _

/-- Every digit of a number is at most the number. -/
theorem isDigit_of_number_lt (hr' : 0 < r') (h : ∀ c ∈ ds, isDigit r' c = true) (hlt : number r' ds < r) :
    ∀ c ∈ ds, isDigit r c = true := by
  induction ds using List.reverseRecOn with
  | nil => simp
  | append_singleton ds c ih =>
    rw [number_concat] at hlt
    have hinit : number r' ds ≤ number r' ds * r' := Nat.le_mul_of_pos_right _ hr'
    have hds := ih (fun d hd => h d (List.mem_append_left _ hd)) (by omega)
    have hc : isDigit r c = true := by
      by_contra hnot
      have hle := le_of_not_isDigit (h c (by simp)) hnot
      omega
    simpa [or_imp, forall_and] using ⟨hds, hc⟩

/-- **A run in two radices** has one number only if this is one digit of the smaller one. -/
theorem number_takeWhile_eq_iff (hr : 1 < r) (hr' : r < r') (h : ∀ c ∈ ds, isDigit r' c = true) :
    number r (ds.takeWhile (isDigit r)) = number r' ds ↔ number r' ds < r := by
  rcases List.eq_nil_or_concat' ds with rfl | ⟨ds, c, rfl⟩
  · simpa using Nat.zero_lt_of_lt hr
  have hpos : 0 < number r' ds → number r' ds * r < number r' ds * r' := fun hpos =>
    Nat.mul_lt_mul_of_pos_left hr' hpos
  constructor
  · intro heq
    rcases takeWhile_concat (isDigit r) ds c with hall | hinit
    · have hmono := Nat.mul_le_mul_right r (number_mono hr'.le ds)
      have hlast := lt_of_isDigit (hall c (by simp))
      rw [List.takeWhile_eq_self_iff.mpr hall, number_concat, number_concat] at heq
      have hzero : number r' ds = 0 := by
        by_contra hne
        have hlt := hpos (Nat.pos_of_ne_zero hne)
        omega
      rw [number_concat, hzero, Nat.zero_mul]
      omega
    · have hle := number_takeWhile_le hr' ds
      have hgrow : number r' ds ≤ number r' ds * r := Nat.le_mul_of_pos_right _ (Nat.zero_lt_of_lt hr)
      rw [hinit, number_concat] at heq
      rw [number_concat]
      omega
  · intro hlt
    have hall := isDigit_of_number_lt (Nat.zero_lt_of_lt hr') h hlt
    rw [number_concat] at hlt
    have hzero : number r' ds = 0 := by
      by_contra hne
      have hgrow : r' ≤ number r' ds * r' := Nat.le_mul_of_pos_left _ (Nat.pos_of_ne_zero hne)
      omega
    have hmono := number_mono hr'.le ds
    rw [List.takeWhile_eq_self_iff.mpr hall, number_concat, number_concat, hzero,
      Nat.le_zero.mp (hmono.trans hzero.le), Nat.zero_mul, Nat.zero_mul]

end Runs

/-! ## Signs -/

section Signs

variable {r : ℕ} {s : Text}

/-- A sign is no digit. -/
theorem splitSign_eq_self (h : ∀ c ∈ s.head?, isDigit r c = true) : splitSign s = (false, s) := by
  rw [splitSign.eq_def]
  split
  · exact absurd (h '-' rfl) (by simp [isDigit, digitValue])
  · exact absurd (h '+' rfl) (by simp [isDigit, digitValue])
  · rfl

@[simp]
theorem splitSign_zero (s : Text) : splitSign ('0' :: s) = (false, '0' :: s) := rfl

/-- What is not as long as the text has been left by a sign. -/
theorem head_of_splitSign (h : (splitSign s).2 ≠ s) : ∃ c b, s = c :: b ∧ (c = '-' ∨ c = '+') := by
  rw [splitSign.eq_def] at h
  split at h
  · exact ⟨'-', _, rfl, Or.inl rfl⟩
  · exact ⟨'+', _, rfl, Or.inr rfl⟩
  · exact absurd rfl h

theorem not_isDigit_sign {c : Char} (h : c = '-' ∨ c = '+') (r : ℕ) : isDigit r c = false := by
  rcases h with rfl | rfl <;> rfl

theorem Reading.value_congr {neg : Bool} {r r' : ℕ} {ds ds' : Text} :
    (Reading.mk neg r ds).value = (Reading.mk neg r' ds').value ↔ number r ds = number r' ds' := by
  cases neg <;> simp [Reading.value]

@[simp]
theorem whole_radix (r : ℕ) (s : Text) : (whole r s).radix = r := rfl

/-- A text that begins with a digit has no sign. -/
theorem whole_of_digits (h : ∀ c ∈ s, isDigit r c = true) :
    whole r s = { neg := false, radix := r, digits := s } := by
  rw [whole, splitSign_eq_self fun c hc => h c (List.mem_of_mem_head? hc)]

/-- A reading is zero if no other digits are in it. -/
theorem Reading.value_eq_zero_iff {x : Reading} (hr : 0 < x.radix)
    (h : ∀ c ∈ x.digits, isDigit x.radix c = true) : x.value = 0 ↔ ∀ c ∈ x.digits, c = '0' := by
  rw [← number_eq_zero_iff hr h, Reading.value]
  split <;> simp

/-- A text that is read as zero is no numeral, or has no other digits. -/
theorem i64FromStrRadix_eq_zero_iff (hr : 0 < r) :
    (i64FromStrRadix s r).getD 0 = 0 ↔ ((whole r s).IsNumeral → ∀ c ∈ (whole r s).digits, c = '0') := by
  rw [i64FromStrRadix]
  split
  · rename_i h
    rw [Option.getD_some, Reading.value_eq_zero_iff hr h.digits]
    exact ⟨fun hzero _ => hzero, fun hzero => hzero h⟩
  · rename_i h
    simp [h]

end Signs

/-! ## `strtol` -/

/-- `isspace` of the C locale. -/
def isSpace (c : Char) : Bool := c == ' ' || (9 ≤ c.toNat && c.toNat ≤ 13)

/-- The prefix counts if a digit follows it. -/
def hexLed : Text → Bool
  | '0' :: x :: c :: _ => (x == 'x' || x == 'X') && isDigit 16 c
  | _ => false

/-- The radix of base 0, and what its digits are read from. -/
def radixOf (s : Text) : ℕ × Text :=
  if hexLed s then (16, s.drop 2) else if s.head? = some '0' then (8, s) else (10, s)

/-- The longest run of digits after the white space. -/
def read (s : Text) : Reading :=
  let (neg, s) := splitSign s
  let (r, s) := radixOf s
  { neg, radix := r, digits := s.takeWhile (isDigit r) }

/-- What `strtol` reads with base 0. -/
def strtolReading (s : Text) : Reading := read (s.dropWhile isSpace)

/-- `strtol(s, NULL, 0)`, with a `long` of 64 bits. -/
def strtol (s : Text) : ℤ :=
  let v := (strtolReading s).value
  if v < -9223372036854775808 then -9223372036854775808
  else if 9223372036854775807 < v then 9223372036854775807
  else v

theorem isWhitespace_of_isSpace (h : isSpace c = true) : isWhitespace c = true := by
  simp only [isSpace, Bool.or_eq_true, beq_iff_eq, Bool.and_eq_true, decide_eq_true_eq] at h
  rcases h with rfl | h
  · rfl
  · simp [isWhitespace, h.1, h.2]

theorem strtol_eq {s : Text} (h : IsI64 (strtolReading s).value) : strtol s = (strtolReading s).value := by
  rw [strtol, if_neg (not_lt.mpr h.1), if_neg (not_lt.mpr h.2)]

example : strtol (text " -0x1fg") = -31 := by decide

example : strtol (text "0778") = 63 := by decide

/-! ## What is read -/

section Read

variable {s ds b w : Text} {c : Char}

theorem hexLed_cons {x c : Char} (hx : x = 'x' ∨ x = 'X') (b : Text) :
    hexLed ('0' :: x :: c :: b) = isDigit 16 c := by
  rcases hx with rfl | rfl <;> rfl

/-- The sign of a hexadecimal prefix is no digit of a smaller radix. -/
theorem hexLed_of_digits {r : ℕ} (hr : r ≤ 16) (h : ∀ c ∈ ds, isDigit r c = true) : hexLed ds = false := by
  by_contra hled
  rw [Bool.not_eq_false, hexLed.eq_def] at hled
  split at hled
  · rename_i x c b
    rw [Bool.and_eq_true, Bool.or_eq_true, beq_iff_eq, beq_iff_eq] at hled
    have hx := isDigit_mono hr (h x (by simp))
    rcases hled.1 with rfl | rfl <;> exact absurd hx (by decide)
  · exact absurd hled (by decide)

/-- The digits after a prefix are read from it on. -/
theorem read_hex {x : Char} (hx : x = 'x' ∨ x = 'X') (hne : b ≠ []) (h : ∀ c ∈ b, isDigit 16 c = true) :
    read ('0' :: x :: b) = { neg := false, radix := 16, digits := b } := by
  obtain ⟨c, b, rfl⟩ := List.exists_cons_of_ne_nil hne
  have hled : hexLed ('0' :: x :: c :: b) = true := (hexLed_cons hx b).trans (h c (by simp))
  have hall : (c :: b).takeWhile (isDigit 16) = c :: b := List.takeWhile_eq_self_iff.mpr h
  simp only [read, splitSign_zero, radixOf, hled, List.drop_succ_cons, List.drop_zero, hall, if_pos]

theorem read_octal (h : ∀ c ∈ b, isDigit 8 c = true) :
    read ('0' :: b) = { neg := false, radix := 8, digits := '0' :: b } := by
  have hzero : isDigit 8 '0' = true := by decide
  have hdigits : ∀ c ∈ '0' :: b, isDigit 8 c = true := by simpa [hzero] using h
  have hall := List.takeWhile_eq_self_iff.mpr hdigits
  simp only [read, splitSign_zero, radixOf, hexLed_of_digits (by decide) hdigits, List.head?_cons, hall,
    if_pos, if_neg, Bool.false_eq_true, not_false_iff]

/-- A zero that neither a digit nor a prefix with a digit follows is all that is read. -/
theorem read_zero (hled : hexLed ('0' :: c :: b) = false) (hc : isDigit 8 c = false) :
    (read ('0' :: c :: b)).digits = ['0'] := by
  have hstop : ('0' :: c :: b).takeWhile (isDigit 8) = ['0'] := by
    rw [List.takeWhile_cons_of_pos (by decide), List.takeWhile_cons_of_neg (by simp [hc])]
  simp only [read, splitSign_zero, radixOf, hled, List.head?_cons, hstop, if_pos, if_neg, Bool.false_eq_true,
    not_false_iff]

theorem read_decimal (hzero : (splitSign s).2.head? ≠ some '0')
    (h : ∀ c ∈ (splitSign s).2, isDigit 10 c = true) :
    read s = { neg := (splitSign s).1, radix := 10, digits := (splitSign s).2 } := by
  have hall := List.takeWhile_eq_self_iff.mpr h
  simp only [read, radixOf, hexLed_of_digits (by decide) h, hzero, hall, if_neg, Bool.false_eq_true,
    not_false_iff]

/-- Decimal digits that a zero leads are read as octal ones. -/
theorem read_decimal_zero (hzero : (splitSign s).2.head? = some '0')
    (h : ∀ c ∈ (splitSign s).2, isDigit 10 c = true) :
    read s = { neg := (splitSign s).1, radix := 8, digits := (splitSign s).2.takeWhile (isDigit 8) } := by
  simp only [read, radixOf, hexLed_of_digits (by decide) h, hzero, if_pos, if_neg, Bool.false_eq_true,
    not_false_iff]

theorem read_digits (s : Text) : ∀ c ∈ (read s).digits, isDigit (read s).radix c = true :=
  fun _ hc => List.mem_takeWhile_imp hc

theorem read_radix_pos (s : Text) : 0 < (read s).radix := by
  simp only [read, radixOf]
  split_ifs <;> exact Nat.succ_pos _

theorem ne_of_isWhitespace {d : Char} (h : isWhitespace c = true) (hd : isWhitespace d = false) : c ≠ d := by
  rintro rfl
  exact absurd h (by simp [hd])

theorem splitSign_blank (h : isWhitespace c = true) (b : Text) : splitSign (c :: b) = (false, c :: b) := by
  simp [splitSign, ne_of_isWhitespace h (by decide : isWhitespace '-' = false),
    ne_of_isWhitespace h (by decide : isWhitespace '+' = false)]

theorem hexLed_blank (h : isWhitespace c = true) (b : Text) : hexLed (c :: b) = false := by
  simp [hexLed, ne_of_isWhitespace h (by decide : isWhitespace '0' = false)]

/-- A text that begins with white space of another kind is not read. -/
theorem read_blank (h : isWhitespace c = true) (b : Text) : (read (c :: b)).digits = [] := by
  have hzero := ne_of_isWhitespace h (by decide : isWhitespace '0' = false)
  simp only [read, splitSign_blank h, radixOf, hexLed_blank h, List.head?_cons, Option.some.injEq, hzero,
    if_neg, Bool.false_eq_true, not_false_iff]
  exact List.takeWhile_cons_of_neg (by simp [not_isDigit_of_isWhitespace h])

theorem splitSign_append (hw : ∀ c ∈ w, isWhitespace c = true) (s : Text) :
    splitSign (s ++ w) = ((splitSign s).1, (splitSign s).2 ++ w) := by
  cases s with
  | nil =>
    cases w with
    | nil => rfl
    | cons c w => exact splitSign_blank (hw c (by simp)) w
  | cons c s =>
    by_cases hminus : c = '-'
    · rw [hminus]
      rfl
    by_cases hplus : c = '+'
    · rw [hplus]
      rfl
    simp [splitSign, hminus, hplus]

theorem hexLed_append (hw : ∀ c ∈ w, isWhitespace c = true) (s : Text) : hexLed (s ++ w) = hexLed s := by
  cases w with
  | nil => rw [List.append_nil]
  | cons c w =>
    have hc : isWhitespace c = true := hw c (by simp)
    have hdigit := not_isDigit_of_isWhitespace hc 16
    have hx := ne_of_isWhitespace hc (by decide : isWhitespace 'x' = false)
    have hX := ne_of_isWhitespace hc (by decide : isWhitespace 'X' = false)
    rcases s with _ | ⟨a, _ | ⟨x, _ | ⟨d, s⟩⟩⟩
    · exact hexLed_blank hc w
    · by_cases ha : a = '0'
      · cases w <;> simp [hexLed, ha, hx, hX]
      · simp [hexLed, ha]
    · by_cases ha : a = '0'
      · simp [hexLed, ha, hdigit]
      · simp [hexLed, ha]
    · by_cases ha : a = '0'
      · rw [ha]
        rfl
      · simp [hexLed, ha]

theorem takeWhile_append (hw : ∀ c ∈ w, isWhitespace c = true) (r : ℕ) (s : Text) :
    (s ++ w).takeWhile (isDigit r) = s.takeWhile (isDigit r) := by
  have hnone : w.takeWhile (isDigit r) = [] := by
    cases w with
    | nil => rfl
    | cons c w => exact List.takeWhile_cons_of_neg (by simp [not_isDigit_of_isWhitespace (hw c (by simp))])
  rw [List.takeWhile_append]
  split
  · rename_i hlen
    rw [hnone, List.append_nil, (List.takeWhile_prefix _).eq_of_length hlen]
  · rfl

theorem radixOf_append (hw : ∀ c ∈ w, isWhitespace c = true) (s : Text) :
    radixOf (s ++ w) = ((radixOf s).1, (radixOf s).2 ++ w) := by
  rw [radixOf, radixOf, hexLed_append hw]
  by_cases hled : hexLed s = true
  · rw [if_pos hled, if_pos hled]
    rcases s with _ | ⟨a, _ | ⟨x, s⟩⟩
    · exact absurd hled (by decide)
    · exact absurd hled (by simp [hexLed])
    · rfl
  rw [if_neg hled, if_neg hled]
  have hzero : (s ++ w).head? = some '0' ↔ s.head? = some '0' := by
    cases s with
    | nil =>
      cases w with
      | nil => rfl
      | cons c w => simp [ne_of_isWhitespace (hw c (by simp)) (by decide : isWhitespace '0' = false)]
    | cons c s => rfl
  simp only [hzero]
  split_ifs <;> rfl

/-- White space at the end is not read. -/
theorem read_append (hw : ∀ c ∈ w, isWhitespace c = true) (s : Text) : read (s ++ w) = read s := by
  simp only [read, splitSign_append hw, radixOf_append hw, takeWhile_append hw]

/-- What is read is zero if no other digits are. -/
theorem read_value_eq_zero (s : Text) : (read s).value = 0 ↔ ∀ c ∈ (read s).digits, c = '0' := by
  rw [Reading.value_eq_zero_iff (read_radix_pos s) (read_digits s)]

/-- The white space at the start is that of the C locale. -/
def SpaceLed (s : Text) : Prop := ∀ c ∈ s.takeWhile isWhitespace, isSpace c = true

instance : DecidablePred SpaceLed := fun _ => decidable_of_iff _ List.all_eq_true

theorem exists_trimEnd_append (s : Text) :
    ∃ w : Text, (∀ c ∈ w, isWhitespace c = true) ∧ trimEnd s ++ w = s := by
  refine ⟨(s.reverse.takeWhile isWhitespace).reverse, ?_, ?_⟩
  · intro c hc
    exact List.mem_takeWhile_imp (List.mem_reverse.mp hc)
  · rw [trimEnd, ← List.reverse_append, List.takeWhile_append_dropWhile, List.reverse_reverse]

theorem SpaceLed.dropWhile_eq {s : Text} (h : SpaceLed s) : s.dropWhile isSpace = trimStart s := by
  induction s with
  | nil => rfl
  | cons c s ih =>
    by_cases hc : isWhitespace c = true
    · rw [SpaceLed, List.takeWhile_cons_of_pos hc] at h
      rw [trimStart, List.dropWhile_cons_of_pos (h c (by simp)), List.dropWhile_cons_of_pos hc]
      exact ih fun d hd => h d (List.mem_cons_of_mem c hd)
    · rw [trimStart, List.dropWhile_cons_of_neg (fun hspace => hc (isWhitespace_of_isSpace hspace)),
        List.dropWhile_cons_of_neg hc]

theorem SpaceLed.reading_eq {s : Text} (h : SpaceLed s) : strtolReading s = read (trim s) := by
  obtain ⟨w, hw, happ⟩ := exists_trimEnd_append (trimStart s)
  rw [strtolReading, h.dropWhile_eq, trim, ← read_append hw (trimEnd (trimStart s)), happ]

/-- Other white space at the start is not skipped. -/
theorem digits_of_not_spaceLed {s : Text} (h : ¬ SpaceLed s) : (strtolReading s).digits = [] := by
  induction s with
  | nil => exact absurd (by simp [SpaceLed]) h
  | cons c s ih =>
    by_cases hspace : isSpace c = true
    · rw [strtolReading, List.dropWhile_cons_of_pos hspace]
      refine ih fun hled => h ?_
      rw [SpaceLed, List.takeWhile_cons_of_pos (isWhitespace_of_isSpace hspace)]
      exact List.forall_mem_cons.mpr ⟨hspace, hled⟩
    rw [strtolReading, List.dropWhile_cons_of_neg hspace]
    by_cases hc : isWhitespace c = true
    · exact read_blank hc s
    · refine absurd ?_ h
      rw [SpaceLed, List.takeWhile_cons_of_neg hc]
      simp

end Read

end Fstest.Numeral
