import Fstest.Lib.Utf8
import Fstest.Stdfs.Verdict

/-!
# The ends of outputs

The reports show what a program has printed, or its end if it has more bytes than a cap. The end is sliced
out of the text, so it has to start with a character. `tail` of git, sqlite and stdfs goes on to the next
one. `truncate` of pjdfstest and of fio look for a boundary at the start of a text, which is one, and
`run_direct` of ltp looks for none; so these three panic if a character lies across the cap
(`tails_agree_iff`).
-/

namespace Fstest

open Text

namespace Harness

/-- `format!("...{}", &s[i..])`. -/
def ellipsis (s : Text) (i : ℕ) : Option Text := (sliceBytes s i).map (text "..." ++ ·)

/-- The copies of `tail`. -/
def tail (s : Text) (cap : ℕ) : Option Text :=
  if utf8Len s ≤ cap then some s
  else
    let start := utf8Len s - cap
    ellipsis s (nextBoundary s (utf8Len s - start) start)

end Harness

def Git.tail : Text → ℕ → Option Text := Harness.tail

def Mptest.tail : Text → ℕ → Option Text := Harness.tail

/-- `Stdfs.tail` with its slice. -/
def Stdfs.slicedTail : Text → ℕ → Option Text := Harness.tail

def Pjdfstest.truncate (s : Text) (max : ℕ) : Option Text :=
  if utf8Len s ≤ max then some s
  else
    let start := utf8Len s - max
    let off := nextBoundary s (utf8Len s) 0
    Harness.ellipsis s (start + off)

def Fio.truncate (s : Text) (max : ℕ) : Option Text :=
  if utf8Len s ≤ max then some s
  else do
    let start := utf8Len s - max
    let s ← sliceBytes s start
    let off := nextBoundary s (utf8Len s) 0
    Harness.ellipsis s off

/-- `out_tail` of `run_direct`. -/
def Ltp.outTail (s : Text) : Option Text :=
  if 2000 < utf8Len s then Harness.ellipsis s (utf8Len s - 2000) else some s

namespace Harness

/-- The text, or three dots and its longest end with at most `cap` bytes. -/
def Shown (s : Text) (cap : ℕ) (r : Text) : Prop :=
  if utf8Len s ≤ cap then r = s else ∃ t, LongestEnd s cap t ∧ r = text "..." ++ t

/-- None of the helpers panics, and all show the same. -/
def TailsAgree (s : Text) (cap : ℕ) : Prop :=
  ∃ r, Shown s cap r ∧ Git.tail s cap = some r ∧ Mptest.tail s cap = some r ∧
    Stdfs.slicedTail s cap = some r ∧ Pjdfstest.truncate s cap = some r ∧ Fio.truncate s cap = some r ∧
    (cap = 2000 → Ltp.outTail s = some r)

variable {s : Text} {cap : ℕ}

/-- **`tail` shows the end that it should**, whatever the text is. -/
theorem tail_shown (s : Text) (cap : ℕ) : ∃ r, tail s cap = some r ∧ Shown s cap r := by
  rw [tail]
  by_cases hle : utf8Len s ≤ cap
  · exact ⟨s, if_pos hle, by rw [Shown, if_pos hle]⟩
  · have hleft : utf8Len s - (utf8Len s - cap) = cap := by omega
    obtain ⟨t, hslice, hend⟩ := sliceBytes_nextBoundary (s := s) (i := utf8Len s - cap) (n := cap) (by omega)
    refine ⟨text "..." ++ t, ?_, ?_⟩
    · simp only [if_neg hle, hleft, ellipsis, hslice, Option.map_some]
    · rw [Shown, if_neg hle]
      exact ⟨t, hend, rfl⟩

theorem Shown.unique {r r' : Text} (h : Shown s cap r) (h' : Shown s cap r') : r = r' := by
  rw [Shown] at h h'
  split at h
  · rename_i hle
    rw [if_pos hle] at h'
    rw [h, h']
  · rename_i hgt
    rw [if_neg hgt] at h'
    obtain ⟨t, ht, rfl⟩ := h
    obtain ⟨t', ht', rfl⟩ := h'
    rw [ht.unique ht']

/-- The value that stdfs's reports are about. -/
theorem slicedTail_eq (s : Text) (cap : ℕ) : Stdfs.slicedTail s cap = some (Stdfs.tail s cap) := by
  have hshown : Shown s cap (Stdfs.tail s cap) := by
    rw [Shown, Stdfs.tail]
    split
    · rfl
    · exact ⟨_, longestEnd_lastBytes s cap, rfl⟩
  obtain ⟨r, htail, hr⟩ := tail_shown s cap
  rw [Stdfs.slicedTail, htail, hr.unique hshown]

/-- The helpers that look for no boundary slice at the cap. -/
theorem truncate_eq (hgt : ¬ utf8Len s ≤ cap) : Pjdfstest.truncate s cap = ellipsis s (utf8Len s - cap) := by
  simp only [Pjdfstest.truncate, if_neg hgt, nextBoundary_of_isCharBoundary isCharBoundary_zero, Nat.add_zero]

theorem fio_truncate_eq (hgt : ¬ utf8Len s ≤ cap) : Fio.truncate s cap = ellipsis s (utf8Len s - cap) := by
  simp only [Fio.truncate, if_neg hgt, Option.bind_eq_bind]
  cases hslice : sliceBytes s (utf8Len s - cap) with
  | none => rw [ellipsis, hslice, Option.bind_none, Option.map_none]
  | some t =>
    have hzero : nextBoundary t (utf8Len t) 0 = 0 := nextBoundary_of_isCharBoundary isCharBoundary_zero
    rw [Option.bind_some, hzero, ellipsis, ellipsis, hslice, sliceBytes]

/-- At a boundary `tail` slices at the cap as well. -/
theorem tail_eq (hgt : ¬ utf8Len s ≤ cap) (hboundary : isCharBoundary s (utf8Len s - cap) = true) :
    tail s cap = ellipsis s (utf8Len s - cap) := by
  simp only [tail, if_neg hgt, nextBoundary_of_isCharBoundary hboundary]

theorem isCharBoundary_of_ellipsis {i : ℕ} {r : Text} (h : ellipsis s i = some r) : isCharBoundary s i = true := by
  obtain ⟨t, hslice, -⟩ := Option.map_eq_some_iff.mp h
  rw [isCharBoundary, hslice]
  rfl

/-- **When all helpers show the same**: unless a character lies across the cap. -/
theorem tails_agree_iff (s : Text) (cap : ℕ) :
    TailsAgree s cap ↔ utf8Len s ≤ cap ∨ isCharBoundary s (utf8Len s - cap) = true := by
  constructor
  · rintro ⟨r, -, -, -, -, htruncate, -⟩
    by_cases hle : utf8Len s ≤ cap
    · exact .inl hle
    · rw [truncate_eq hle] at htruncate
      exact .inr (isCharBoundary_of_ellipsis htruncate)
  · intro h
    obtain ⟨r, htail, hshown⟩ := tail_shown s cap
    refine ⟨r, hshown, htail, htail, htail, ?_⟩
    by_cases hle : utf8Len s ≤ cap
    · rw [Shown, if_pos hle] at hshown
      subst hshown
      refine ⟨if_pos hle, if_pos hle, fun hcap => ?_⟩
      subst hcap
      exact if_neg (by omega)
    · have hslice := (tail_eq hle (h.resolve_left hle)).symm.trans htail
      refine ⟨(truncate_eq hle).trans hslice, (fio_truncate_eq hle).trans hslice, fun hcap => ?_⟩
      subst hcap
      rw [Ltp.outTail, if_pos (by omega), hslice]

/-- A character of two bytes lies across the cap of 2000 bytes. -/
theorem tails_panic : ¬ TailsAgree (List.replicate 1000 'é' ++ ['a']) 2000 ∧
    Pjdfstest.truncate (List.replicate 1000 'é' ++ ['a']) 2000 = none ∧
    Fio.truncate (List.replicate 1000 'é' ++ ['a']) 2000 = none ∧
    Ltp.outTail (List.replicate 1000 'é' ++ ['a']) = none := by
  have hlen : utf8Len (List.replicate 1000 'é' ++ ['a']) = 2001 := by
    rw [utf8Len_append, utf8Len, List.map_replicate, List.sum_replicate_nat]
    rfl
  have hgt : ¬ utf8Len (List.replicate 1000 'é' ++ ['a']) ≤ 2000 := by omega
  have hslice : ellipsis (List.replicate 1000 'é' ++ ['a'])
      (utf8Len (List.replicate 1000 'é' ++ ['a']) - 2000) = none := by
    rw [hlen]
    rfl
  refine ⟨?_, (truncate_eq hgt).trans hslice, (fio_truncate_eq hgt).trans hslice, ?_⟩
  · rintro ⟨r, -, -, -, -, htruncate, -⟩
    rw [truncate_eq hgt, hslice] at htruncate
    cases htruncate
  · rw [Ltp.outTail, if_pos (by omega), hslice]

end Harness

end Fstest
