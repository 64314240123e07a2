import Fstest.Lib.Bytes
import Fstest.Lib.Text

/-!
# Text, byte by byte

A text is sliced at a byte of its UTF-8, which has to be the start of a character or the end of the text
(`sliceBytes`). `nextBoundary` goes on to the next such byte, and what stands behind it is the longest end
of the text with at most as many bytes (`sliceBytes_nextBoundary`).

`fromUtf8Lossy` reads bytes that may be no UTF-8; on those of a text it gives the text back
(`fromUtf8Lossy_toUtf8`).
-/

namespace Fstest.Text

/-- `&s[i..]`, where `none` is a panic. -/
def sliceBytes : Text → ℕ → Option Text
  | s, 0 => some s
  | [], _ + 1 => none
  | c :: s, i + 1 => if i + 1 < c.utf8Size then none else sliceBytes s (i + 1 - c.utf8Size)

def isCharBoundary (s : Text) (i : ℕ) : Bool := (sliceBytes s i).isSome

/-- The first boundary from `i` on, among the next `n` bytes. -/
def nextBoundary (s : Text) : ℕ → ℕ → ℕ
  | 0, i => i
  | n + 1, i => if isCharBoundary s i then i else nextBoundary s n (i + 1)

/-! ## Bytes that may be no UTF-8 -/

/-- The bytes of a text. -/
def toUtf8 (s : Text) : Bytes := s.flatMap String.utf8EncodeChar

/-- How many of the next bytes belong to a character that needs `n` more, of which the first is from `lo`
to `hi`, and whether all of them are there. -/
def follow : ℕ → UInt8 → UInt8 → Bytes → ℕ × Bool
  | 0, _, _, _ => (0, true)
  | _ + 1, _, _, [] => (0, false)
  | n + 1, lo, hi, b :: r =>
    if lo ≤ b ∧ b ≤ hi then
      let more := follow n 0x80 0xBF r
      (more.1 + 1, more.2)
    else (0, false)

/-- How many of the next bytes belong to the character that begins with `b`, and whether it is one. -/
def sequence (b : UInt8) (r : Bytes) : ℕ × Bool :=
  if b < 0x80 then (0, true)
  else if b < 0xC2 then (0, false)
  else if b < 0xE0 then follow 1 0x80 0xBF r
  else if b < 0xF0 then
    follow 2 (if b = 0xE0 then 0xA0 else 0x80) (if b = 0xED then 0x9F else 0xBF) r
  else if b < 0xF5 then
    follow 3 (if b = 0xF0 then 0x90 else 0x80) (if b = 0xF4 then 0x8F else 0xBF) r
  else (0, false)

/-- The character of `b` and the `n` bytes behind it. -/
def charOf (b : UInt8) (r : Bytes) (n : ℕ) : Char :=
  let first := if n = 0 then b.toNat else b.toNat % 2 ^ (6 - n)
  Char.ofNat ((r.take n).foldl (fun v c => 64 * v + c.toNat % 64) first)

/-- The text behind the next `n` bytes, which belong to the last character. -/
def decodeFrom : ℕ → Bytes → Text
  | _, [] => []
  | n + 1, _ :: r => decodeFrom n r
  | 0, b :: r =>
    let more := sequence b r
    (if more.2 then charOf b r more.1 else '\uFFFD') :: decodeFrom more.1 r

/-- `String::from_utf8_lossy` -/
def fromUtf8Lossy (z : Bytes) : Text := decodeFrom 0 z

section

variable {x y z w : ℕ}

theorem byte_toNat (hx : x < 256) : (UInt8.ofNat x).toNat = x := UInt8.toNat_ofNat_of_lt' hx

theorem ofNat_lt_iff (hx : x < 256) (b : UInt8) : UInt8.ofNat x < b ↔ x < b.toNat := by
  rw [UInt8.lt_iff_toNat_lt, byte_toNat hx]

theorem ofNat_le_iff (hx : x < 256) (b : UInt8) : UInt8.ofNat x ≤ b ↔ x ≤ b.toNat := by
  rw [UInt8.le_iff_toNat_le, byte_toNat hx]

theorem le_ofNat_iff (hx : x < 256) (b : UInt8) : b ≤ UInt8.ofNat x ↔ b.toNat ≤ x := by
  rw [UInt8.le_iff_toNat_le, byte_toNat hx]

theorem ofNat_eq_iff (hx : x < 256) (b : UInt8) : UInt8.ofNat x = b ↔ x = b.toNat := by
  rw [← UInt8.toNat_inj, byte_toNat hx]

/-- A byte that belongs to the character. -/
theorem follow_cons (n : ℕ) {lo hi : UInt8} (r : Bytes) (hx : x < 256) (hlo : lo.toNat ≤ x)
    (hhi : x ≤ hi.toNat) : follow (n + 1) lo hi (UInt8.ofNat x :: r) =
      ((follow n 0x80 0xBF r).1 + 1, (follow n 0x80 0xBF r).2) := by
  rw [follow, if_pos ⟨(le_ofNat_iff hx lo).mpr hlo, (ofNat_le_iff hx hi).mpr hhi⟩]

/-- The bytes from the second one on. -/
theorem follow_tail (r : Bytes) (hx : x < 64) (n : ℕ) :
    follow (n + 1) 0x80 0xBF (UInt8.ofNat (x + 128) :: r) =
      ((follow n 0x80 0xBF r).1 + 1, (follow n 0x80 0xBF r).2) :=
  follow_cons n r (by omega) (Nat.le_add_left _ _) (show x + 128 ≤ 191 by omega)

theorem decodeFrom_append (t r : Bytes) : decodeFrom t.length (t ++ r) = decodeFrom 0 r := by
  induction t with
  | nil => rfl
  | cons c t ih => exact ih

/-- A character before others. -/
theorem decodeFrom_cons {b : UInt8} {t : Bytes} (r : Bytes) (h : sequence b (t ++ r) = (t.length, true)) :
    decodeFrom 0 (b :: (t ++ r)) = charOf b t t.length :: decodeFrom 0 r := by
  have htake : (t ++ r).take t.length = t.take t.length := by
    rw [List.take_left, List.take_length]
  rw [decodeFrom, h]
  simp only [if_true]
  rw [decodeFrom_append, charOf, charOf, htake]

theorem sequence_one (r : Bytes) (hx : x < 128) : sequence (UInt8.ofNat x) r = (0, true) :=
  if_pos ((ofNat_lt_iff (by omega) 0x80).mpr hx)

theorem sequence_two (r : Bytes) (hx : 2 ≤ x) (hx' : x < 32) (hy : y < 64) :
    sequence (UInt8.ofNat (x + 0xC0)) (UInt8.ofNat (y + 0x80) :: r) = (1, true) := by
  have hlt := ofNat_lt_iff (show x + 0xC0 < 256 by omega)
  rw [sequence, if_neg (mt (hlt 0x80).mp (show ¬ x + 192 < 128 by omega)),
    if_neg (mt (hlt 0xC2).mp (show ¬ x + 192 < 194 by omega)),
    if_pos ((hlt 0xE0).mpr (show x + 192 < 224 by omega)), follow_tail r hy]
  rfl

theorem sequence_three (r : Bytes) (hx : x < 16) (hy : y < 64) (hz : z < 64) (h0 : x = 0 → 32 ≤ y)
    (hd : x = 13 → y < 32) : sequence (UInt8.ofNat (x + 0xE0))
      (UInt8.ofNat (y + 0x80) :: UInt8.ofNat (z + 0x80) :: r) = (2, true) := by
  have hlt := ofNat_lt_iff (show x + 0xE0 < 256 by omega)
  have heq := ofNat_eq_iff (show x + 0xE0 < 256 by omega)
  rw [sequence, if_neg (mt (hlt 0x80).mp (show ¬ x + 224 < 128 by omega)),
    if_neg (mt (hlt 0xC2).mp (show ¬ x + 224 < 194 by omega)),
    if_neg (mt (hlt 0xE0).mp (show ¬ x + 224 < 224 by omega)),
    if_pos ((hlt 0xF0).mpr (show x + 224 < 240 by omega)), follow_cons 1 _ (by omega) ?_ ?_,
    follow_tail r hz]
  · rfl
  · split
    · rename_i h
      have : x + 224 = 224 := (heq 0xE0).mp h
      exact (by omega : 160 ≤ y + 128)
    · exact Nat.le_add_left _ _
  · split
    · rename_i h
      have : x + 224 = 237 := (heq 0xED).mp h
      exact (by omega : y + 128 ≤ 159)
    · exact (by omega : y + 128 ≤ 191)

theorem sequence_four (r : Bytes) (hx : x < 5) (hy : y < 64) (hz : z < 64) (hw : w < 64)
    (h0 : x = 0 → 16 ≤ y) (h4 : x = 4 → y < 16) : sequence (UInt8.ofNat (x + 0xF0))
      (UInt8.ofNat (y + 0x80) :: UInt8.ofNat (z + 0x80) :: UInt8.ofNat (w + 0x80) :: r) = (3, true) := by
  have hlt := ofNat_lt_iff (show x + 0xF0 < 256 by omega)
  have heq := ofNat_eq_iff (show x + 0xF0 < 256 by omega)
  rw [sequence, if_neg (mt (hlt 0x80).mp (show ¬ x + 240 < 128 by omega)),
    if_neg (mt (hlt 0xC2).mp (show ¬ x + 240 < 194 by omega)),
    if_neg (mt (hlt 0xE0).mp (show ¬ x + 240 < 224 by omega)),
    if_neg (mt (hlt 0xF0).mp (show ¬ x + 240 < 240 by omega)),
    if_pos ((hlt 0xF5).mpr (show x + 240 < 245 by omega)), follow_cons 2 _ (by omega) ?_ ?_,
    follow_tail _ hz, follow_tail r hw]
  · rfl
  · split
    · rename_i h
      have : x + 240 = 240 := (heq 0xF0).mp h
      exact (by omega : 144 ≤ y + 128)
    · exact Nat.le_add_left _ _
  · split
    · rename_i h
      have : x + 240 = 244 := (heq 0xF4).mp h
      exact (by omega : y + 128 ≤ 143)
    · exact (by omega : y + 128 ≤ 191)

theorem decodeFrom_one (r : Bytes) (hx : x < 128) :
    decodeFrom 0 (UInt8.ofNat x :: r) = Char.ofNat x :: decodeFrom 0 r := by
  have h := decodeFrom_cons (t := []) r (sequence_one _ hx)
  have hchar : charOf (UInt8.ofNat x) [] 0 = Char.ofNat x :=
    congrArg Char.ofNat (byte_toNat (by omega))
  rwa [List.length_nil, hchar] at h

theorem decodeFrom_two (r : Bytes) (hx : 2 ≤ x) (hx' : x < 32) (hy : y < 64) :
    decodeFrom 0 (UInt8.ofNat (x + 0xC0) :: UInt8.ofNat (y + 0x80) :: r) =
      Char.ofNat (64 * x + y) :: decodeFrom 0 r := by
  have h := decodeFrom_cons (t := [UInt8.ofNat (y + 0x80)]) r (sequence_two r hx hx' hy)
  have hchar : charOf (UInt8.ofNat (x + 0xC0)) [UInt8.ofNat (y + 0x80)] 1 = Char.ofNat (64 * x + y) := by
    refine congrArg Char.ofNat ?_
    change 64 * ((UInt8.ofNat (x + 0xC0)).toNat % 32) + (UInt8.ofNat (y + 0x80)).toNat % 64 = _
    rw [byte_toNat (by omega), byte_toNat (by omega)]
    omega
  rwa [List.length_singleton, hchar] at h

theorem decodeFrom_three (r : Bytes) (hx : x < 16) (hy : y < 64) (hz : z < 64) (h0 : x = 0 → 32 ≤ y)
    (hd : x = 13 → y < 32) :
    decodeFrom 0 (UInt8.ofNat (x + 0xE0) :: UInt8.ofNat (y + 0x80) :: UInt8.ofNat (z + 0x80) :: r) =
      Char.ofNat (64 * (64 * x + y) + z) :: decodeFrom 0 r := by
  have h := decodeFrom_cons (t := [UInt8.ofNat (y + 0x80), UInt8.ofNat (z + 0x80)]) r
    (sequence_three r hx hy hz h0 hd)
  have hchar : charOf (UInt8.ofNat (x + 0xE0)) [UInt8.ofNat (y + 0x80), UInt8.ofNat (z + 0x80)] 2 =
      Char.ofNat (64 * (64 * x + y) + z) := by
    refine congrArg Char.ofNat ?_
    change 64 * (64 * ((UInt8.ofNat (x + 0xE0)).toNat % 16) + (UInt8.ofNat (y + 0x80)).toNat % 64) +
      (UInt8.ofNat (z + 0x80)).toNat % 64 = _
    rw [byte_toNat (by omega), byte_toNat (by omega),
      byte_toNat (by omega)]
    omega
  rwa [List.length_cons, List.length_singleton, hchar] at h

theorem decodeFrom_four (r : Bytes) (hx : x < 5) (hy : y < 64) (hz : z < 64) (hw : w < 64)
    (h0 : x = 0 → 16 ≤ y) (h4 : x = 4 → y < 16) :
    decodeFrom 0 (UInt8.ofNat (x + 0xF0) :: UInt8.ofNat (y + 0x80) :: UInt8.ofNat (z + 0x80) ::
      UInt8.ofNat (w + 0x80) :: r) = Char.ofNat (64 * (64 * (64 * x + y) + z) + w) :: decodeFrom 0 r := by
  have h := decodeFrom_cons (t := [UInt8.ofNat (y + 0x80), UInt8.ofNat (z + 0x80), UInt8.ofNat (w + 0x80)])
    r (sequence_four r hx hy hz hw h0 h4)
  have hchar : charOf (UInt8.ofNat (x + 0xF0))
      [UInt8.ofNat (y + 0x80), UInt8.ofNat (z + 0x80), UInt8.ofNat (w + 0x80)] 3 =
      Char.ofNat (64 * (64 * (64 * x + y) + z) + w) := by
    refine congrArg Char.ofNat ?_
    change 64 * (64 * (64 * ((UInt8.ofNat (x + 0xF0)).toNat % 8) + (UInt8.ofNat (y + 0x80)).toNat % 64) +
      (UInt8.ofNat (z + 0x80)).toNat % 64) + (UInt8.ofNat (w + 0x80)).toNat % 64 = _
    rw [byte_toNat (by omega), byte_toNat (by omega),
      byte_toNat (by omega), byte_toNat (by omega)]
    omega
  rwa [List.length_cons, List.length_cons, List.length_singleton, hchar] at h

/-- The bytes of a character read back. -/
theorem decodeFrom_utf8EncodeChar (c : Char) (r : Bytes) :
    decodeFrom 0 (String.utf8EncodeChar c ++ r) = c :: decodeFrom 0 r := by
  have hvalid : c.val.toNat < 55296 ∨ 57343 < c.val.toNat ∧ c.val.toNat < 1114112 := c.valid
  have hchar : ∀ {n : ℕ}, n = c.val.toNat → Char.ofNat n = c := fun h => by
    rw [h]
    exact Char.ofNat_toNat c
  generalize hv : c.val.toNat = v at hvalid hchar
  rw [String.utf8EncodeChar, hv]
  split
  · exact (decodeFrom_one r (by omega)).trans (congrArg (· :: _) (hchar rfl))
  · split
    · exact (decodeFrom_two r (by omega) (by omega) (by omega)).trans
        (congrArg (· :: _) (hchar (by omega)))
    · split
      · exact (decodeFrom_three r (by omega) (by omega) (by omega) (by omega) (by omega)).trans
          (congrArg (· :: _) (hchar (by omega)))
      · exact (decodeFrom_four r (by omega) (by omega) (by omega) (by omega) (by omega) (by omega)).trans
          (congrArg (· :: _) (hchar (by omega)))

end

theorem length_toUtf8 (s : Text) : (toUtf8 s).length = utf8Len s := by
  rw [toUtf8, List.length_flatMap, utf8Len]
  simp only [String.length_utf8EncodeChar]

theorem toUtf8_ne_nil {s : Text} (h : s ≠ []) : toUtf8 s ≠ [] := by
  obtain ⟨c, t, rfl⟩ := List.exists_cons_of_ne_nil h
  rw [toUtf8, List.flatMap_cons]
  exact List.append_ne_nil_of_left_ne_nil String.utf8EncodeChar_ne_nil _

/-- **A text comes back from its bytes.** -/
theorem fromUtf8Lossy_toUtf8 (s : Text) : fromUtf8Lossy (toUtf8 s) = s := by
  induction s with
  | nil => rfl
  | cons c s ih =>
    rw [fromUtf8Lossy, toUtf8, List.flatMap_cons, decodeFrom_utf8EncodeChar]
    exact congrArg (c :: ·) ih

/-! ## Slices -/

/-- The longest end of a text with at most `cap` bytes that starts with a character. -/
structure LongestEnd (s : Text) (cap : ℕ) (t : Text) : Prop where
  suffix : t <:+ s
  le : utf8Len t ≤ cap
  longest : ∀ t', t' <:+ s → utf8Len t' ≤ cap → t' <:+ t

variable {s t : Text} {c : Char} {cap i n : ℕ}

theorem utf8Len_cons : utf8Len (c :: s) = c.utf8Size + utf8Len s := rfl

theorem utf8Len_append : utf8Len (s ++ t) = utf8Len s + utf8Len t := by
  rw [utf8Len, List.map_append, List.sum_append]
  rfl

theorem utf8Len_le_of_suffix (h : t <:+ s) : utf8Len t ≤ utf8Len s := by
  obtain ⟨r, rfl⟩ := h
  rw [utf8Len_append]
  exact Nat.le_add_left _ _

/-- An end of a text is given by its number of bytes. -/
theorem suffix_of_utf8Len_le {t' : Text} (h : t <:+ s) (h' : t' <:+ s) (hle : utf8Len t' ≤ utf8Len t) :
    t' <:+ t := by
  rcases List.suffix_or_suffix_of_suffix h h' with hsuffix | hsuffix
  · obtain ⟨r, rfl⟩ := hsuffix
    cases r with
    | nil => exact List.suffix_rfl
    | cons c r =>
      have hpos := c.utf8Size_pos
      rw [List.cons_append, utf8Len_cons, utf8Len_append] at hle
      omega
  · exact hsuffix

theorem LongestEnd.unique {t' : Text} (h : LongestEnd s cap t) (h' : LongestEnd s cap t') : t = t' :=
  (h'.longest t h.suffix h.le).eq_of_length_le (h.longest t' h'.suffix h'.le).length_le

/-- **A slice is the end of the text with the other bytes.** -/
theorem sliceBytes_eq_some : sliceBytes s i = some t ↔ t <:+ s ∧ i + utf8Len t = utf8Len s := by
  induction s generalizing i with
  | nil =>
    rw [List.suffix_nil]
    cases i with
    | zero =>
      refine ⟨fun h => ?_, fun h => ?_⟩
      · cases h
        exact ⟨rfl, rfl⟩
      · rw [h.1, sliceBytes]
    | succ i =>
      refine ⟨fun h => ?_, fun ⟨_, hlen⟩ => ?_⟩
      · cases h
      · rw [utf8Len, utf8Len, List.map_nil, List.sum_nil] at hlen
        omega
  | cons c s ih =>
    have hpos := c.utf8Size_pos
    rw [List.suffix_cons_iff, utf8Len_cons]
    cases i with
    | zero =>
      rw [sliceBytes, Nat.zero_add, Option.some.injEq]
      refine ⟨fun h => h ▸ ⟨.inl rfl, rfl⟩, fun ⟨hsuffix, hlen⟩ => ?_⟩
      rcases hsuffix with rfl | hsuffix
      · rfl
      · have hle := utf8Len_le_of_suffix hsuffix
        omega
    | succ i =>
      rw [sliceBytes]
      split
      · rename_i hlt
        refine ⟨fun h => ?_, fun ⟨hsuffix, hlen⟩ => ?_⟩
        · cases h
        · rcases hsuffix with rfl | hsuffix
          · rw [utf8Len_cons] at hlen
            omega
          · have hle := utf8Len_le_of_suffix hsuffix
            omega
      · rename_i hge
        rw [ih]
        refine ⟨fun ⟨hsuffix, hlen⟩ => ⟨.inr hsuffix, by omega⟩, fun ⟨hsuffix, hlen⟩ => ?_⟩
        rcases hsuffix with rfl | hsuffix
        · rw [utf8Len_cons] at hlen
          omega
        · exact ⟨hsuffix, by omega⟩

theorem isCharBoundary_iff : isCharBoundary s i = true ↔ ∃ t, t <:+ s ∧ i + utf8Len t = utf8Len s := by
  simp only [isCharBoundary, Option.isSome_iff_exists, sliceBytes_eq_some]

theorem isCharBoundary_zero : isCharBoundary s 0 = true := by
  cases s <;> rfl

theorem nextBoundary_of_isCharBoundary (h : isCharBoundary s i = true) : nextBoundary s n i = i := by
  cases n with
  | zero => rfl
  | succ n => rw [nextBoundary, if_pos h]

/-- **What stands behind the next boundary** is the longest end with at most as many bytes. -/
theorem sliceBytes_nextBoundary (h : i + n = utf8Len s) :
    ∃ t, sliceBytes s (nextBoundary s n i) = some t ∧ LongestEnd s n t := by
  induction n generalizing i with
  | zero =>
    obtain rfl : i = utf8Len s := h
    have hnil : sliceBytes s (utf8Len s) = some [] := sliceBytes_eq_some.mpr ⟨List.nil_suffix, rfl⟩
    refine ⟨[], hnil, List.nil_suffix, Nat.le_refl 0, fun t' hsuffix hle => ?_⟩
    exact suffix_of_utf8Len_le List.nil_suffix hsuffix hle
  | succ n ih =>
    by_cases hboundary : isCharBoundary s i = true
    · obtain ⟨t, hsuffix, hlen⟩ := isCharBoundary_iff.mp hboundary
      rw [nextBoundary_of_isCharBoundary hboundary]
      refine ⟨t, sliceBytes_eq_some.mpr ⟨hsuffix, hlen⟩, hsuffix, by omega, fun t' hsuffix' hle => ?_⟩
      exact suffix_of_utf8Len_le hsuffix hsuffix' (by omega)
    · obtain ⟨t, hslice, hend⟩ := ih (i := i + 1) (by omega)
      rw [nextBoundary, if_neg hboundary]
      refine ⟨t, hslice, hend.suffix, Nat.le_succ_of_le hend.le, fun t' hsuffix' hle => ?_⟩
      -- An end of `n + 1` bytes would start at `i`.
      refine hend.longest t' hsuffix' (Nat.le_of_lt_succ (Nat.lt_of_le_of_ne hle fun heq => ?_))
      exact hboundary (isCharBoundary_iff.mpr ⟨t', hsuffix', by omega⟩)

theorem longestEnd_lastBytes (s : Text) (cap : ℕ) : LongestEnd s cap (lastBytes cap s) := by
  induction s with
  | nil => exact ⟨List.suffix_rfl, Nat.zero_le _, fun t' h _ => h⟩
  | cons c s ih =>
    rw [lastBytes]
    split
    · rename_i hle
      exact ⟨List.suffix_rfl, hle, fun t' h _ => h⟩
    · rename_i hgt
      refine ⟨ih.suffix.trans (List.suffix_cons c s), ih.le, fun t' hsuffix hle => ?_⟩
      rcases List.suffix_cons_iff.mp hsuffix with rfl | hsuffix
      · exact absurd hle hgt
      · exact ih.longest t' hsuffix hle

end Fstest.Text
