import Fstest.Fsx.Lockstep

/-!
# Mapped reads and the end of the file

A mapping of the last page shows the bytes after the end of the file too, and they have to be zero.
`domapread` looks for others among the bytes that it was asked for, and those end before the end of
the file (`checkPastEof_same`). So it notices no dirt, and `domapread_catches_iff` says for which
mappings that makes no difference.
-/

namespace Fstest.Fsx

variable {σ : Type} {K : Kernel σ} {s : Fsx σ} {offset size : Nat}

/-- The start of the page that contains the end of the file. -/
def eofPage (s : Fsx σ) : Nat := s.fileSize - s.fileSize % s.pageSize

/-- A byte of that page, at or after the end of the file, is not zero. -/
def DirtyPastEof (K : Kernel σ) (s : Fsx σ) : Prop :=
  ∃ i, s.fileSize ≤ i ∧ i < eofPage s + s.pageSize ∧ K.load s.fd i ≠ 0

/-- Where a mapped read starts. -/
def readStart (s : Fsx σ) (offset : Nat) : Nat := offset - offset % max s.a.readbdy 1

/-- The bytes that are read are those of the shadow. -/
def MapMatches (K : Kernel σ) (s : Fsx σ) (offset size : Nat) : Prop :=
  ∀ i < size, K.load s.fd (readStart s offset + i) = byteAt s.goodBuf (readStart s offset + i)

/-- What a read that reaches the last page has to report: dirt behind the end of the file, and
nothing if there is none and the data is right. -/
def CatchesDirt (K : Kernel σ) (s s' : Fsx σ) (offset size : Nat) : Prop :=
  eofPage s < readStart s offset + size →
    (DirtyPastEof K s → s'.failure ≠ none) ∧
    (¬ DirtyPastEof K s → MapMatches K s offset size → s'.failure = none)

/-- A comparison with the shadow records a failure exactly if there is a difference. -/
theorem checkBuffers_failure {buf : Bytes} (hok : s.failure = none) (hbuf : buf.length = size)
    (h : offset + size ≤ s.goodBuf.length) : ∃ s', s.checkBuffers buf offset size = some s' ∧
      (s'.failure = none ↔ ∀ i < size, byteAt buf i = byteAt s.goodBuf (offset + i)) := by
  have hgot : slice buf 0 size = some buf := by
    rw [slice_of (by omega) (by omega), List.drop_zero, List.take_of_length_le (by omega)]
  have hgood : slice s.goodBuf offset (offset + size) = some ((s.goodBuf.drop offset).take size) := by
    rw [slice_of (by omega) h, Nat.add_sub_cancel_left]
  have hiff : buf = (s.goodBuf.drop offset).take size ↔
      ∀ i < size, byteAt buf i = byteAt s.goodBuf (offset + i) := by
    constructor
    · intro heq i hi
      rw [heq, byteAt_drop_take, if_pos hi]
    · intro hall
      refine ext_byteAt (by simp; omega) fun i hi => ?_
      rw [byteAt_drop_take, if_pos (by omega), hall i (by omega)]
  unfold checkBuffers
  simp only [hgot, hgood, Option.bind_eq_bind, Option.bind_some]
  split
  · rename_i heq
    exact ⟨s, rfl, by rw [hok]; exact iff_of_true rfl (hiff.mp heq)⟩
  · rename_i hne
    refine ⟨_, rfl, iff_of_false ?_ fun hall => hne (hiff.mpr hall)⟩
    rw [fail, if_pos (by simp [hok])]
    exact nofun

/-- A mapped read inside the file records a failure exactly if its data is wrong. -/
theorem domapread_failure (hs : s.Sized) (hok : s.failure = none)
    (hmap : ∀ len off, 0 < len → K.mmap s.fd len off = .ok ()) (h : offset + size ≤ s.fileSize) :
    ∃ s', s.domapread K offset size = some s' ∧
      (s'.failure = none ↔ MapMatches K s offset size) := by
  have hcap := hs.cap
  have hgood := hs.goodBuf
  have hfs := hs.fileSize
  have hstart : readStart s offset ≤ offset := Nat.sub_le ..
  unfold readStart at hstart
  simp only [domapread, MapMatches, readStart]
  generalize offset - offset % max s.a.readbdy 1 = o at hstart ⊢
  by_cases hz : size = 0
  · subst hz
    exact ⟨_, rfl, iff_of_true hok fun i hi => absurd hi (Nat.not_lt_zero i)⟩
  rw [if_neg hz, addU64_of (by unfold u64Size isizeMax at *; omega)]
  simp only [Option.bind_eq_bind, Option.bind_some]
  rw [if_neg (show ¬ s.fileSize < o + size by omega)]
  have hpage : o &&& s.pageMask ≤ o := Nat.and_le_left
  rw [show (s.log4 .mapRead o size false).pageMask = s.pageMask from rfl,
    show (s.log4 .mapRead o size false).fd = s.fd from rfl, hmap _ _ (by omega)]
  simp only []
  rw [checkPastEof_same (s := s.log4 .mapRead o size false)
    (show o - (o &&& s.pageMask) + ((o &&& s.pageMask) + size) ≤ s.fileSize by omega), ite_self,
    show o - (o &&& s.pageMask) + (o &&& s.pageMask) = o by omega]
  have hlen : ((List.range size).map fun i => K.load s.fd (o + i)).length = size := by simp
  obtain ⟨s', hrun, hiff⟩ := checkBuffers_failure (s := s.log4 .mapRead o size false) hok hlen
    (show o + size ≤ s.goodBuf.length by omega)
  refine ⟨s', hrun, hiff.trans (forall₂_congr fun i hi => ?_)⟩
  rw [byteAt_of_lt (by simpa using hi), List.getElem_map, List.getElem_range]
  exact Iff.rfl

/-- **When a mapped read reports what it has to**: it misses dirt behind the end of the file unless
the data is wrong as well. -/
theorem domapread_catches_iff (hs : s.Sized) (hok : s.failure = none)
    (hmap : ∀ len off, 0 < len → K.mmap s.fd len off = .ok ()) (h : offset + size ≤ s.fileSize) :
    ∃ s', s.domapread K offset size = some s' ∧
      (CatchesDirt K s s' offset size ↔ (eofPage s < readStart s offset + size →
        DirtyPastEof K s → ¬ MapMatches K s offset size)) := by
  obtain ⟨s', hrun, hiff⟩ := domapread_failure hs hok hmap h
  refine ⟨s', hrun, ?_⟩
  unfold CatchesDirt
  rw [ne_eq, hiff]
  exact ⟨fun hc hreach hd => (hc hreach).1 hd, fun hc hreach => ⟨hc hreach, fun _ hm => hm⟩⟩

/-- A file whose mapping shows the byte `dirt` behind the end, to the end of the page. -/
def mappedFile (dirt : UInt8) : Kernel Bytes :=
  { ramFile with load := fun fd off => if off < fd.length then byteAt fd off else dirt }

/-- The shadow of two zero bytes, on that file. -/
def mappedState : Fsx Bytes :=
  { initial { flen := 16, oplen := 8 } [0, 0] 4096 (fun _ => 0) (fun _ => true) (List.replicate 25 0) with
    fileSize := 2 }

theorem mappedState_sized : mappedState.Sized where
  goodBuf := by decide
  originalBuf := by decide
  cap := by decide
  fileSize := by decide

/-- Nothing is behind the end of the file, and the read of the last byte reports nothing. -/
theorem clean_page_catches : ∃ s', mappedState.domapread (mappedFile 0) 1 1 = some s' ∧
    CatchesDirt (mappedFile 0) mappedState s' 1 1 := by
  obtain ⟨s', hrun, hiff⟩ := domapread_catches_iff (K := mappedFile 0) mappedState_sized rfl
    (fun _ _ _ => rfl) (show 1 + 1 ≤ mappedState.fileSize by decide)
  have hclean : ¬ DirtyPastEof (mappedFile 0) mappedState := by
    rintro ⟨i, hi, -, hne⟩
    have hload : (mappedFile 0).load mappedState.fd i = 0 := if_neg (Nat.not_lt.mpr hi)
    exact hne hload
  exact ⟨s', hrun, hiff.mpr fun _ hdirty => absurd hdirty hclean⟩

/-- The byte behind the end of the file is 5, and the read of the last byte reports nothing. -/
theorem dirty_page_missed : ∃ s', mappedState.domapread (mappedFile 5) 1 1 = some s' ∧
    s'.failure = none ∧ DirtyPastEof (mappedFile 5) mappedState ∧
    ¬ CatchesDirt (mappedFile 5) mappedState s' 1 1 := by
  have hdirty : DirtyPastEof (mappedFile 5) mappedState := ⟨2, by decide, by decide, by decide⟩
  have hdata : MapMatches (mappedFile 5) mappedState 1 1 := fun i hi => by
    obtain rfl : i = 0 := by omega
    rfl
  obtain ⟨s', hrun, hiff⟩ := domapread_failure (K := mappedFile 5) mappedState_sized rfl
    (fun _ _ _ => rfl) (show 1 + 1 ≤ mappedState.fileSize by decide)
  have hquiet := hiff.mpr hdata
  exact ⟨s', hrun, hquiet, hdirty, fun hc => (hc (by decide)).1 hdirty hquiet⟩

end Fstest.Fsx
