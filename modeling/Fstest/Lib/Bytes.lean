import Mathlib.Tactic.Common

/-!
# Byte images

A buffer and the contents of a file are lists of bytes. `byteAt f i` is byte `i` of an image; past
its end an image reads as zero, so two images agree when their lengths and their `byteAt` agree.

* `slice`, `fillRange`, `copyWithin`: the slice operations of a buffer of fixed length. A range
  outside the buffer is a panic (`none`).
* `resize`, `overwrite`, `zeroRange`, `removeRange`: what the calls of a file system do to the
  contents of a file. These never fail, and a write past the end leaves a hole of zeros.
* `Mirrors f buf n`: the file contents `f` are the first `n` bytes of the buffer `buf`.

Every operation has a length lemma and a `byteAt` lemma; proofs about images use only these.
-/

namespace Fstest

/-- The bytes of a buffer, a file or a script. -/
abbrev Bytes := List UInt8

instance : LawfulBEq Bytes := List.instLawfulBEq

/-- Byte `i` of an image, zero past its end. -/
def byteAt (f : Bytes) (i : Nat) : UInt8 := f.getD i 0

theorem byteAt_of_le {f : Bytes} {i : Nat} (h : f.length ≤ i) : byteAt f i = 0 := by
  simp [byteAt, List.getD_eq_getElem?_getD, h]

theorem byteAt_of_lt {f : Bytes} {i : Nat} (h : i < f.length) : byteAt f i = f[i] := by
  simp [byteAt, List.getD_eq_getElem?_getD, h]

/-- Two images with one length and the same bytes are equal. -/
theorem ext_byteAt {f g : Bytes} (hl : f.length = g.length)
    (h : ∀ i < f.length, byteAt f i = byteAt g i) : f = g := by
  apply List.ext_getElem hl
  intro i h1 h2
  rw [← byteAt_of_lt h1, ← byteAt_of_lt h2]
  exact h i h1

@[simp] theorem byteAt_replicate_zero (n i : Nat) : byteAt (List.replicate n 0) i = 0 := by
  simp only [byteAt, List.getD_eq_getElem?_getD, List.getElem?_replicate]
  split <;> rfl

theorem byteAt_append (f g : Bytes) (i : Nat) :
    byteAt (f ++ g) i = if i < f.length then byteAt f i else byteAt g (i - f.length) := by
  simp only [byteAt, List.getD_eq_getElem?_getD, List.getElem?_append]
  split <;> rfl

theorem byteAt_take (f : Bytes) (n i : Nat) :
    byteAt (f.take n) i = if i < n then byteAt f i else 0 := by
  simp only [byteAt, List.getD_eq_getElem?_getD, List.getElem?_take]
  split <;> simp

theorem byteAt_drop (f : Bytes) (n i : Nat) : byteAt (f.drop n) i = byteAt f (n + i) := by
  simp [byteAt, List.getD_eq_getElem?_getD]

/-! ## Slices of a buffer -/

/-- `n` bytes of an image, as its first `k` and the other `n - k`. -/
theorem drop_take_split {k n : Nat} (h : k ≤ n) (f : Bytes) (off : Nat) :
    (f.drop off).take k ++ (f.drop (off + k)).take (n - k) = (f.drop off).take n := by
  rw [← List.drop_drop, ← List.take_add, Nat.add_sub_cancel' h]

/-- `buf` with `data` from `s` on. -/
def patch (buf : Bytes) (s : Nat) (data : Bytes) : Bytes :=
  buf.take s ++ data ++ buf.drop (s + data.length)

@[simp] theorem length_patch {buf data : Bytes} {s : Nat} (h : s + data.length ≤ buf.length) :
    (patch buf s data).length = buf.length := by
  simp [patch]; omega

theorem byteAt_patch {buf data : Bytes} {s : Nat} (h : s + data.length ≤ buf.length) (i : Nat) :
    byteAt (patch buf s data) i =
      if s ≤ i ∧ i < s + data.length then byteAt data (i - s) else byteAt buf i := by
  have hs : min s buf.length = s := by omega
  simp only [patch, byteAt_append, byteAt_take, byteAt_drop, List.length_append, List.length_take,
    hs]
  by_cases h1 : i < s
  · rw [if_pos (by omega), if_pos h1, if_pos h1, if_neg (by omega)]
  · by_cases h2 : i < s + data.length
    · rw [if_pos h2, if_neg h1, if_pos (by omega)]
    · rw [if_neg h2, if_neg (by omega)]
      congr 1; omega

/-- `buf[s..e]`. -/
def slice (buf : Bytes) (s e : Nat) : Option Bytes :=
  if s ≤ e ∧ e ≤ buf.length then some ((buf.drop s).take (e - s)) else none

/-- `buf[s..s + data.len()].copy_from_slice(data)`. -/
def copyIn (buf : Bytes) (s : Nat) (data : Bytes) : Option Bytes :=
  if s + data.length ≤ buf.length then some (patch buf s data) else none

/-- `buf[s..e].fill(v)`. -/
def fillRange (buf : Bytes) (s e : Nat) (v : UInt8) : Option Bytes :=
  if s ≤ e ∧ e ≤ buf.length then some (patch buf s (List.replicate (e - s) v)) else none

/-- `buf.copy_within(s..e, d)`. -/
def copyWithin (buf : Bytes) (s e d : Nat) : Option Bytes :=
  if s ≤ e ∧ e ≤ buf.length ∧ d + (e - s) ≤ buf.length then
    some (patch buf d ((buf.drop s).take (e - s)))
  else none

theorem slice_of {buf : Bytes} {s e : Nat} (h1 : s ≤ e) (h2 : e ≤ buf.length) :
    slice buf s e = some ((buf.drop s).take (e - s)) := if_pos ⟨h1, h2⟩

theorem copyIn_of {buf data : Bytes} {s : Nat} (h : s + data.length ≤ buf.length) :
    copyIn buf s data = some (patch buf s data) := if_pos h

theorem fillRange_of {buf : Bytes} {s e : Nat} {v : UInt8} (h1 : s ≤ e) (h2 : e ≤ buf.length) :
    fillRange buf s e v = some (patch buf s (List.replicate (e - s) v)) := if_pos ⟨h1, h2⟩

theorem copyWithin_of {buf : Bytes} {s e d : Nat} (h1 : s ≤ e) (h2 : e ≤ buf.length)
    (h3 : d + (e - s) ≤ buf.length) :
    copyWithin buf s e d = some (patch buf d ((buf.drop s).take (e - s))) := if_pos ⟨h1, h2, h3⟩

theorem length_drop_take {buf : Bytes} {s e : Nat} (h : e ≤ buf.length) :
    ((buf.drop s).take (e - s)).length = e - s := by
  simp; omega

theorem byteAt_drop_take (buf : Bytes) (s n i : Nat) :
    byteAt ((buf.drop s).take n) i = if i < n then byteAt buf (s + i) else 0 := by
  rw [byteAt_take, byteAt_drop]

/-! ## Contents of a file -/

/-- The contents after the length becomes `n`: cut, or extended with zeros. -/
def resize (f : Bytes) (n : Nat) : Bytes := f.take n ++ List.replicate (n - f.length) 0

/-- The contents after a write of `data` at `off`. -/
def overwrite (f : Bytes) (off : Nat) (data : Bytes) : Bytes :=
  patch (resize f (max f.length (off + data.length))) off data

/-- The contents after the bytes `[off, off + len)` of the file become zero. -/
def zeroRange (f : Bytes) (off len : Nat) : Bytes :=
  patch f (min off f.length) (List.replicate (min len (f.length - off)) 0)

/-- The contents after the bytes `[off, off + len)` are cut out. -/
def removeRange (f : Bytes) (off len : Nat) : Bytes := f.take off ++ f.drop (off + len)

@[simp] theorem length_resize (f : Bytes) (n : Nat) : (resize f n).length = n := by
  simp [resize]; omega

theorem byteAt_resize (f : Bytes) (n i : Nat) :
    byteAt (resize f n) i = if i < n then byteAt f i else 0 := by
  simp only [resize, byteAt_append, byteAt_take, byteAt_replicate_zero, List.length_take]
  by_cases h : i < n
  · by_cases hf : i < f.length
    · rw [if_pos (by omega)]
    · rw [if_neg (by omega), if_pos h, byteAt_of_le (by omega)]
  · simp [h]

@[simp] theorem length_overwrite (f : Bytes) (off : Nat) (data : Bytes) :
    (overwrite f off data).length = max f.length (off + data.length) := by
  rw [overwrite, length_patch (by rw [length_resize]; omega), length_resize]

theorem byteAt_overwrite (f : Bytes) (off : Nat) (data : Bytes) (i : Nat) :
    byteAt (overwrite f off data) i =
      if off ≤ i ∧ i < off + data.length then byteAt data (i - off) else byteAt f i := by
  rw [overwrite, byteAt_patch (by rw [length_resize]; omega), byteAt_resize]
  split
  · rfl
  · split
    · rfl
    · rw [byteAt_of_le (by omega)]

@[simp] theorem length_zeroRange (f : Bytes) (off len : Nat) :
    (zeroRange f off len).length = f.length := by
  rw [zeroRange, length_patch]; simp; omega

theorem byteAt_zeroRange (f : Bytes) (off len i : Nat) :
    byteAt (zeroRange f off len) i = if off ≤ i ∧ i < off + len then 0 else byteAt f i := by
  rw [zeroRange, byteAt_patch (by simp; omega), byteAt_replicate_zero]
  by_cases hi : i < f.length
  · congr 1
    simp only [List.length_replicate, eq_iff_iff]
    omega
  · rw [byteAt_of_le (f := f) (by omega)]
    simp

theorem length_removeRange {f : Bytes} {off len : Nat} (h : off + len ≤ f.length) :
    (removeRange f off len).length = f.length - len := by
  simp [removeRange]; omega

theorem byteAt_removeRange {f : Bytes} {off len : Nat} (h : off ≤ f.length) (i : Nat) :
    byteAt (removeRange f off len) i = if i < off then byteAt f i else byteAt f (i + len) := by
  have hm : min off f.length = off := by omega
  simp only [removeRange, byteAt_append, byteAt_take, byteAt_drop, List.length_take, hm]
  split
  · rfl
  · congr 1; omega

/-- Growing the file before a write that reaches its new end changes nothing. -/
theorem overwrite_resize (f : Bytes) (off : Nat) (data : Bytes) :
    overwrite (resize f (max f.length (off + data.length))) off data = overwrite f off data := by
  apply ext_byteAt
  · simp
  · intro i _
    rw [byteAt_overwrite, byteAt_overwrite, byteAt_resize]
    by_cases hi : i < max f.length (off + data.length)
    · rw [if_pos hi]
    · rw [if_neg hi, byteAt_of_le (f := f) (by omega)]

/-- Two writes, one after the other, are one. -/
theorem overwrite_append (f : Bytes) (off : Nat) (d e : Bytes) :
    overwrite (overwrite f off d) (off + d.length) e = overwrite f off (d ++ e) := by
  apply ext_byteAt
  · simp only [length_overwrite, List.length_append]; omega
  · intro i _
    simp only [byteAt_overwrite, byteAt_append, List.length_append]
    by_cases h1 : off ≤ i ∧ i < off + d.length
    · rw [if_neg (by omega), if_pos h1, if_pos (by omega), if_pos (by omega)]
    · by_cases h2 : off + d.length ≤ i ∧ i < off + d.length + e.length
      · rw [if_pos h2, if_pos (by omega), if_neg (by omega)]
        congr 1; omega
      · rw [if_neg h2, if_neg h1, if_neg (by omega)]

/-- A write at the end of a file. -/
theorem overwrite_length (f data : Bytes) : overwrite f f.length data = f ++ data := by
  apply ext_byteAt
  · rw [length_overwrite, List.length_append]
    omega
  · intro i hi
    rw [length_overwrite] at hi
    rw [byteAt_overwrite, byteAt_append]
    by_cases hlow : i < f.length
    · rw [if_neg (by omega), if_pos hlow]
    · rw [if_pos (by omega), if_neg hlow]

theorem overwrite_nil {f : Bytes} {off : Nat} (h : off ≤ f.length) : overwrite f off [] = f := by
  apply ext_byteAt
  · rw [length_overwrite, List.length_nil]
    omega
  · intro i _
    rw [byteAt_overwrite, List.length_nil, if_neg (by omega)]

/-- A write of what is there already. -/
theorem overwrite_same (data more : Bytes) : overwrite (data ++ more) 0 data = data ++ more := by
  apply ext_byteAt
  · rw [length_overwrite, List.length_append]
    omega
  · intro i _
    rw [byteAt_overwrite, byteAt_append, Nat.zero_add, Nat.sub_zero]
    by_cases hi : i < data.length
    · rw [if_pos ⟨Nat.zero_le i, hi⟩, if_pos hi]
    · rw [if_neg fun h => hi h.2]

/-- What is written at the start of what begins with it, or at the end, leaves the beginning. -/
theorem overwrite_begins {f data more : Bytes} {off : Nat} (hf : f = [] ∨ f = data ++ more)
    (hoff : off = 0 ∨ off = f.length) : ∃ more', overwrite f off data = data ++ more' := by
  rcases hf with rfl | rfl
  · have hstart : off = 0 := hoff.elim id id
    exact ⟨[], by rw [hstart, ← List.length_nil, overwrite_length, List.nil_append, List.append_nil]⟩
  · rcases hoff with rfl | rfl
    · exact ⟨more, overwrite_same data more⟩
    · exact ⟨more ++ data, by rw [overwrite_length, List.append_assoc]⟩

/-- A write that is done in two parts. -/
theorem overwrite_take_drop (f : Bytes) (off : Nat) (data : Bytes) {k : Nat}
    (h : k ≤ data.length) :
    overwrite (overwrite f off (data.take k)) (off + k) (data.drop k) = overwrite f off data := by
  have hk : (data.take k).length = k := by simp; omega
  have := overwrite_append f off (data.take k) (data.drop k)
  rwa [hk, List.take_append_drop] at this

/-- A write does not change the bytes of a range that it does not meet. -/
theorem drop_take_overwrite {f data : Bytes} {off s n : Nat} (h : s + n ≤ f.length)
    (hd : s + n ≤ off ∨ off + data.length ≤ s) :
    ((overwrite f off data).drop s).take n = (f.drop s).take n := by
  apply ext_byteAt
  · simp only [List.length_take, List.length_drop, length_overwrite]; omega
  · intro i hi
    have hin : i < n := by simp only [List.length_take] at hi; omega
    rw [byteAt_drop_take, byteAt_drop_take, if_pos hin, if_pos hin, byteAt_overwrite,
      if_neg (by omega)]

/-! ## A buffer that mirrors a file -/

/-- The file contents `f` are the first `n` bytes of the buffer. -/
structure Mirrors (f buf : Bytes) (n : Nat) : Prop where
  length : f.length = n
  bytes : ∀ i < n, byteAt f i = byteAt buf i

/-- The mirrored contents, as a prefix of the buffer. -/
theorem Mirrors.eq_take {f buf : Bytes} {n : Nat} (h : Mirrors f buf n) (hn : n ≤ buf.length) :
    f = buf.take n := by
  apply ext_byteAt
  · rw [h.length, List.length_take]; omega
  · intro i hi
    rw [h.length] at hi
    rw [h.bytes i hi, byteAt_take, if_pos hi]

/-- The mirrored bytes `[s, e)`, read from the file or from the buffer. -/
theorem Mirrors.slice_eq {f buf : Bytes} {n e : Nat} (h : Mirrors f buf n) (s : Nat) (he : e ≤ n)
    (hn : n ≤ buf.length) : (f.drop s).take (e - s) = (buf.drop s).take (e - s) := by
  have hf : f.length = n := h.length
  apply ext_byteAt
  · simp; omega
  · intro i hi
    have : i < e - s := by simp at hi; omega
    rw [byteAt_drop_take, byteAt_drop_take, if_pos this, if_pos this, h.bytes _ (by omega)]

section

variable {f buf buf' : Bytes} {n : Nat}

/-- A file whose length becomes `m` stays mirrored when the buffer is zero where it grows. -/
theorem Mirrors.resize {m : Nat} (h : Mirrors f buf n)
    (hlow : ∀ i < n, byteAt buf' i = byteAt buf i) (hgap : ∀ i, n ≤ i → i < m → byteAt buf' i = 0) :
    Mirrors (resize f m) buf' m where
  length := length_resize f m
  bytes i hi := by
    rw [byteAt_resize, if_pos hi]
    by_cases hn : i < n
    · rw [h.bytes i hn, hlow i hn]
    · rw [hgap i (by omega) hi, byteAt_of_le (by rw [h.length]; omega)]

/-- A write to the file is mirrored by a buffer that has the data, with zeros in the hole. -/
theorem Mirrors.overwrite (h : Mirrors f buf n) (buf' data : Bytes) (off : Nat)
    (hin : ∀ i < data.length, byteAt buf' (off + i) = byteAt data i)
    (hlow : ∀ i < n, i < off ∨ off + data.length ≤ i → byteAt buf' i = byteAt buf i)
    (hgap : ∀ i, n ≤ i → i < off → byteAt buf' i = 0) :
    Mirrors (overwrite f off data) buf' (max n (off + data.length)) where
  length := by rw [length_overwrite, h.length]
  bytes i hi := by
    rw [byteAt_overwrite]
    by_cases hd : off ≤ i ∧ i < off + data.length
    · rw [if_pos hd, ← hin (i - off) (by omega)]
      congr 1; omega
    · rw [if_neg hd]
      by_cases hn : i < n
      · rw [h.bytes i hn, hlow i hn (by omega)]
      · rw [hgap i (by omega) (by omega), byteAt_of_le (by rw [h.length]; omega)]

/-- As `Mirrors.overwrite`, where the data written is read out of the buffer itself. -/
theorem Mirrors.overwrite_slice {off size : Nat} (h : Mirrors f buf n)
    (hle : off + size ≤ buf'.length)
    (hlow : ∀ i < n, i < off ∨ off + size ≤ i → byteAt buf' i = byteAt buf i)
    (hgap : ∀ i, n ≤ i → i < off → byteAt buf' i = 0) :
    Mirrors (Fstest.overwrite f off ((buf'.drop off).take size)) buf' (max n (off + size)) := by
  have hlen : ((buf'.drop off).take size).length = size := by simp; omega
  have := h.overwrite buf' ((buf'.drop off).take size) off
    (fun i hi => by rw [byteAt_drop_take, if_pos (by omega)])
    (by rw [hlen]; exact hlow) hgap
  rwa [hlen] at this

/-- Zeroing a range of the file, without a change of its length. -/
theorem Mirrors.zeroRange {off len : Nat} (h : Mirrors f buf n)
    (hin : ∀ i < n, off ≤ i → i < off + len → byteAt buf' i = 0)
    (hlow : ∀ i < n, i < off ∨ off + len ≤ i → byteAt buf' i = byteAt buf i) :
    Mirrors (zeroRange f off len) buf' n where
  length := by rw [length_zeroRange, h.length]
  bytes i hi := by
    rw [byteAt_zeroRange]
    by_cases hd : off ≤ i ∧ i < off + len
    · rw [if_pos hd, hin i hi hd.1 hd.2]
    · rw [if_neg hd, h.bytes i hi, hlow i hi (by omega)]

/-- Cutting a range out of the file, mirrored by a buffer that moved its tail down. -/
theorem Mirrors.removeRange {off len : Nat} (h : Mirrors f buf n) (hle : off + len ≤ n)
    (hlow : ∀ i < off, byteAt buf' i = byteAt buf i)
    (hmove : ∀ i, off ≤ i → i < n - len → byteAt buf' i = byteAt buf (i + len)) :
    Mirrors (removeRange f off len) buf' (n - len) where
  length := by rw [length_removeRange (by rw [h.length]; exact hle), h.length]
  bytes i hi := by
    rw [byteAt_removeRange (by rw [h.length]; omega)]
    by_cases hi' : i < off
    · rw [if_pos hi', h.bytes i (by omega), hlow i hi']
    · rw [if_neg hi', h.bytes _ (by omega), hmove i (by omega) hi]

end

end Fstest
