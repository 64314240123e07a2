import Fstest.Fsmark.Threads

/-!
# What is on the disk after an iteration

The threads of an iteration may come across each other, for nothing keeps the names of two of them apart.
All the same, when all have ended without an error, each file is as long as it should be, and with a sync
method that syncs at all it is on the disk (`kept_after`). If the files are not kept, none is left
(`removed_after`).

Each of these is a debt: a thread that creates a file owes its contents, its flush and its removal.
-/

namespace Fstest.Fsmark

open Threads

/-! ## Calls -/

/-- The call changes what the calls see of the file, but does not remove it. -/
def Touches (path : String) : Call → Prop
  | .create path' => path' = path
  | .write path' _ _ => path' = path
  | _ => False

def Creates (path : String) : Call → Prop
  | .create path' => path' = path
  | _ => False

def Zero (b : Bytes) : Prop := ∀ i, byteAt b i = 0

/-- What the threads of an iteration and the kernel may call. -/
def FileParams.Allowed (p : FileParams) : Call → Prop
  | .write _ pos data => Zero data ∧ pos + data.length ≤ p.fileSize
  | .unlink _ => p.keepFiles = false
  | _ => True

def IsWriteback : Call → Prop
  | .writeback _ => True
  | _ => False

theorem Creates.touches {path : String} {c : Call} (h : Creates path c) : Touches path c := by
  cases c with
  | create path' => exact h
  | _ => exact h.elim

theorem Zero.take {b : Bytes} (h : Zero b) (n : ℕ) : Zero (b.take n) := by
  intro i
  rw [byteAt_take, h i, ite_self]

theorem Zero.overwrite {b data : Bytes} (hb : Zero b) (hdata : Zero data) (pos : ℕ) :
    Zero (overwrite b pos data) := by
  intro i
  rw [byteAt_overwrite, hb, hdata, ite_self]

theorem Zero.eq_replicate {b : Bytes} (h : Zero b) : b = List.replicate b.length 0 := by
  refine ext_byteAt List.length_replicate.symm fun i _ => ?_
  rw [h, byteAt_replicate_zero]

section Kernel

variable {d : Disk} {mood : Mood} {c : Call} {path : String}

theorem file_put (d : Disk) (path path' : String) (pos : ℕ) (data : Bytes) :
    (d.put path' pos data).file path =
      if path = path' then (d.file path).map (overwrite · pos data) else d.file path := by
  rw [Disk.put]
  by_cases h : path = path'
  · subst h
    simp
  · simp [h]

/-- **What a call does to a file** that it does not remove. -/
theorem file_apply (h : c ≠ .unlink path) :
    (d.apply mood c).2.file path = d.file path ∨
      (Creates path c ∧ (d.apply mood c).2.file path = some []) ∨
      ∃ pos data n, c = .write path pos data ∧
        (d.apply mood c).2.file path = (d.file path).map (overwrite · pos (data.take n)) ∧
        ((d.apply mood c).1.isOk → data.take n = data) := by
  cases c with
  | create path' =>
    cases hmood : mood.failure with
    | some e => exact .inl (by rw [Disk.apply, hmood]; rfl)
    | none =>
      by_cases hpath : path = path'
      · subst hpath
        exact .inr (.inl ⟨rfl, by rw [Disk.apply, hmood]; exact Function.update_self ..⟩)
      · exact .inl (by rw [Disk.apply, hmood]; exact Function.update_of_ne hpath _ _)
  | write path' pos data =>
    by_cases hpath : path = path'
    · subst hpath
      refine .inr (.inr ?_)
      cases hmood : mood.failure with
      | some e =>
        refine ⟨pos, data, mood.kept, rfl, ?_, fun hok => ?_⟩
        · rw [Disk.apply, hmood]
          exact (file_put ..).trans (if_pos rfl)
        · rw [Disk.apply, hmood] at hok
          cases hok
      | none =>
        refine ⟨pos, data, data.length, rfl, ?_, fun _ => List.take_length⟩
        rw [Disk.apply, hmood, List.take_length]
        exact (file_put ..).trans (if_pos rfl)
    · refine .inl ?_
      rw [Disk.apply]
      split
      · exact (file_put ..).trans (if_neg hpath)
      · exact (file_put ..).trans (if_neg hpath)
  | unlink path' =>
    have hpath : path ≠ path' := fun heq => h (heq ▸ rfl)
    refine .inl ?_
    rw [Disk.apply]
    split
    · rfl
    · rw [Disk.perform]
      split
      · exact Function.update_of_ne hpath _ _
      · rfl
  | _ =>
    refine .inl ?_
    rw [Disk.apply]
    split <;> rfl

/-- A call that flushes the file, or may do so. -/
def Flushes (path : String) (c : Call) (r : Except IoError ℕ) : Prop :=
  match c with
  | .fsync path' => path' = path ∧ r.isOk
  | .sync => True
  | _ => False

/-- **What a call does to a file on the disk**: nothing, or it becomes what the calls see. -/
theorem durable_apply (d : Disk) (mood : Mood) (c : Call) (path : String) :
    ((d.apply mood c).2.durable path = d.durable path ∨
      (d.apply mood c).2.durable path = d.file path ∧ (d.apply mood c).2.file path = d.file path) ∧
      (Flushes path c (d.apply mood c).1 →
        (d.apply mood c).2.durable path = d.file path ∧ (d.apply mood c).2.file path = d.file path) := by
  have hupdate : ∀ path', Function.update d.durable path' (d.file path') path = d.durable path ∨
      Function.update d.durable path' (d.file path') path = d.file path := by
    intro path'
    by_cases hpath : path = path'
    · subst hpath
      exact .inr (Function.update_self ..)
    · exact .inl (Function.update_of_ne hpath _ _)
  cases c with
  | fsync path' =>
    rw [Disk.apply]
    split
    · exact ⟨.inl rfl, fun h => nomatch h.2⟩
    · refine ⟨(hupdate path').imp_right fun h => ⟨h, rfl⟩, fun h => ?_⟩
      obtain ⟨rfl, -⟩ := h
      exact ⟨Function.update_self .., rfl⟩
  | writeback path' =>
    rw [Disk.apply]
    split
    · exact ⟨(hupdate path').imp_right fun h => ⟨h, rfl⟩, False.elim⟩
    · exact ⟨(hupdate path').imp_right fun h => ⟨h, rfl⟩, False.elim⟩
  | sync =>
    rw [Disk.apply]
    split
    · exact ⟨.inr ⟨rfl, rfl⟩, fun _ => ⟨rfl, rfl⟩⟩
    · exact ⟨.inr ⟨rfl, rfl⟩, fun _ => ⟨rfl, rfl⟩⟩
  | unlink path' =>
    refine ⟨.inl ?_, False.elim⟩
    rw [Disk.apply]
    split
    · rfl
    · rw [Disk.perform]
      split <;> rfl
  | _ =>
    refine ⟨.inl ?_, False.elim⟩
    rw [Disk.apply]
    split <;> rfl

/-- A call that may flush a file. -/
def CanFlush : Call → Prop
  | .fsync _ | .sync | .writeback _ => True
  | _ => False

theorem durable_apply_of_not (h : ¬ CanFlush c) : (d.apply mood c).2.durable = d.durable := by
  rw [Disk.apply]
  cases c with
  | fsync path => exact absurd trivial h
  | sync => exact absurd trivial h
  | writeback path => exact absurd trivial h
  | unlink path =>
    split
    · rfl
    · rw [Disk.perform]
      split <;> rfl
  | _ => split <;> rfl

theorem create_apply (hc : Creates path c) (h : (d.apply mood c).1.isOk) :
    (d.apply mood c).2.file path = some [] := by
  cases c with
  | create path' =>
    cases hc
    rw [Disk.apply] at h ⊢
    split at h
    · cases h
    · exact Function.update_self ..
  | _ => exact hc.elim

theorem unlink_apply (h : (d.apply mood (.unlink path)).1.isOk) :
    (d.apply mood (.unlink path)).2.file path = none := by
  rw [Disk.apply] at h ⊢
  split at h
  · cases h
  · rw [Disk.perform] at h ⊢
    split at h
    · rw [if_pos ‹_›]
      exact Function.update_self ..
    · cases h

theorem write_apply {pos : ℕ} {data : Bytes} (h : (d.apply mood (.write path pos data)).1.isOk) :
    (d.apply mood (.write path pos data)).2.file path = (d.file path).map (overwrite · pos data) := by
  rw [Disk.apply] at h ⊢
  split at h
  · cases h
  · exact (file_put ..).trans (if_pos rfl)

theorem file_unlink_eq_none (h : d.file path = none) : (d.apply mood (.unlink path)).2.file path = none := by
  rw [Disk.apply]
  split
  · exact h
  · rw [Disk.perform]
    split
    · exact Function.update_self ..
    · exact h

end Kernel

/-! ## What the threads owe -/

section Debts

variable {p : FileParams} {path : String}

/-- What is there already under the name is not longer than the files, and consists of zeros. -/
def Plain (p : FileParams) (path : String) (m : Machine) : Prop :=
  ∀ b, m.file path = some b → Zero b ∧ b.length ≤ p.fileSize

def Present (path : String) (m : Machine) : Prop := m.file path ≠ none

def Whole (p : FileParams) (path : String) (m : Machine) : Prop :=
  ∀ b, m.file path = some b → b.length = p.fileSize

def Flushed (path : String) (m : Machine) : Prop := m.durable path = m.file path

def Gone (path : String) (m : Machine) : Prop := m.file path = none

def Makes (path : String) (c : Call) (r : Reply) : Prop := Creates path c ∧ r.isOk

/-- The call that completes a file. -/
def Fills (p : FileParams) (path : String) (c : Call) (r : Reply) : Prop :=
  r.isOk ∧ ((Creates path c ∧ p.fileSize = 0) ∨
    ∃ pos data, c = .write path pos data ∧ pos + data.length = p.fileSize)

def Syncs (path : String) (c : Call) (r : Reply) : Prop := Flushes path c r.result

def Removes (path : String) (c : Call) (r : Reply) : Prop := c = .unlink path ∧ r.isOk

theorem FileParams.Allowed.ne_unlink {c : Call} (h : p.Allowed c) (hkeep : p.keepFiles = true) :
    c ≠ .unlink path := by
  rintro rfl
  rw [FileParams.Allowed, hkeep] at h
  cases h

theorem file_eff {c : Call} (m : Machine) (h : c ≠ .unlink path) :
    (eff c m).2.file path = m.file path ∨
      (Creates path c ∧ (eff c m).2.file path = some []) ∨
      ∃ pos data n, c = .write path pos data ∧
        (eff c m).2.file path = (m.file path).map (overwrite · pos (data.take n)) ∧
        ((eff c m).1.isOk → data.take n = data) :=
  file_apply h

theorem settling_present (hkeep : p.keepFiles = true) :
    Settling (Makes path) p.Allowed (fun _ => False) eff (fun _ => True) (Present path) where
  inv _ _ _ _ := trivial
  keeps c m hc _ _ hp := by
    rcases file_eff m (hc.ne_unlink hkeep : c ≠ .unlink path) with
      hsame | ⟨-, hempty⟩ | ⟨pos, data, n, -, hwrite, -⟩
    · exact hsame.trans_ne hp
    · exact hempty.trans_ne (Option.some_ne_none _)
    · refine hwrite.trans_ne ?_
      rw [Ne, Option.map_eq_none_iff]
      exact hp
  settled c m _ _ h := (create_apply h.1 h.2).trans_ne (Option.some_ne_none _)

theorem settling_whole (hkeep : p.keepFiles = true) :
    Settling (Fills p path) p.Allowed (fun c => Creates path c ∧ 0 < p.fileSize) eff (Plain p path)
      (Whole p path) where
  inv c m hc hplain b hb := by
    rcases file_eff m (hc.ne_unlink hkeep : c ≠ .unlink path) with
      hsame | ⟨-, hempty⟩ | ⟨pos, data, n, rfl, hwrite, -⟩
    · exact hplain b (hsame.symm.trans hb)
    · cases hempty.symm.trans hb
      exact ⟨fun i => byteAt_of_le (Nat.zero_le i), Nat.zero_le _⟩
    · obtain ⟨a, ha, rfl⟩ := Option.map_eq_some_iff.mp (hwrite.symm.trans hb)
      obtain ⟨hzero, hlen⟩ := hplain a ha
      obtain ⟨hdata, hend⟩ := hc
      refine ⟨hzero.overwrite (hdata.take n) pos, ?_⟩
      rw [length_overwrite, List.length_take]
      omega
  keeps c m hc hspoils _ hwhole b hb := by
    rcases file_eff m (hc.ne_unlink hkeep : c ≠ .unlink path) with
      hsame | ⟨hcreate, hempty⟩ | ⟨pos, data, n, rfl, hwrite, -⟩
    · exact hwhole b (hsame.symm.trans hb)
    · cases hempty.symm.trans hb
      have hzero : ¬ 0 < p.fileSize := fun hpos => hspoils ⟨hcreate, hpos⟩
      rw [List.length_nil]
      omega
    · obtain ⟨a, ha, rfl⟩ := Option.map_eq_some_iff.mp (hwrite.symm.trans hb)
      have hlen := hwhole a ha
      obtain ⟨-, hend⟩ := hc
      rw [length_overwrite, List.length_take]
      omega
  settled c m hc hplain h b hb := by
    obtain ⟨hok, ⟨hcreate, hzero⟩ | ⟨pos, data, rfl, hend⟩⟩ := h
    · cases (create_apply hcreate hok).symm.trans hb
      exact hzero.symm
    · obtain ⟨a, ha, rfl⟩ := Option.map_eq_some_iff.mp ((write_apply hok).symm.trans hb)
      rw [length_overwrite]
      have hlen := (hplain a ha).2
      omega

theorem settling_flushed (hkeep : p.keepFiles = true) :
    Settling (Syncs path) p.Allowed (Touches path) eff (fun _ => True) (Flushed path) where
  inv _ _ _ _ := trivial
  keeps c m hc htouch _ hflushed := by
    have hfile : (eff c m).2.file path = m.file path := by
      rcases file_eff m (hc.ne_unlink hkeep : c ≠ .unlink path) with
        hsame | ⟨hcreate, -⟩ | ⟨pos, data, n, rfl, -, -⟩
      · exact hsame
      · exact absurd hcreate.touches htouch
      · exact absurd rfl htouch
    rcases (durable_apply m.toDisk (m.moods m.calls) c path).1 with hsame | ⟨hnow, -⟩
    · exact hsame.trans (hflushed.trans hfile.symm)
    · exact hnow.trans hfile.symm
  settled c m _ _ h := by
    obtain ⟨hdurable, hfile⟩ := (durable_apply m.toDisk (m.moods m.calls) c path).2 h
    exact hdurable.trans hfile.symm

theorem settling_gone :
    Settling (Removes path) p.Allowed (Creates path) eff (fun _ => True) (Gone path) where
  inv _ _ _ _ := trivial
  keeps c m _ hcreate _ hgone := by
    by_cases hunlink : c = .unlink path
    · subst hunlink
      exact file_unlink_eq_none hgone
    · rcases file_eff m hunlink with hsame | ⟨hc, -⟩ | ⟨pos, data, n, -, hwrite, -⟩
      · exact hsame.trans hgone
      · exact absurd hc hcreate
      · refine hwrite.trans ?_
        rw [show m.file path = none from hgone, Option.map_none]
  settled c m _ _ h := by
    obtain ⟨rfl, hok⟩ := h
    exact unlink_apply hok

end Debts

/-! ## What the programs do -/

section Programs

variable {settles : Call → Reply → Prop} {safe spoils P : Call → Prop} {c : Call} {R : Reply → Prop}
  {p : FileParams} {path q : String}

theorem sys_only (h : P c) : OnlyX P (sys c) := by
  refine (OnlyX.ask h).bind fun r => ?_
  split
  · exact .pure
  · exact .throw

theorem sys_pays (h : ∀ r, r.isOk → ¬ settles c r → R r) : PaysX settles R (sys c) := by
  refine .bind (.ask fun r hr => ?_)
  split
  · rename_i hok
    exact .pure (h r (by simp only [Reply.isOk, hok, Except.isOk, Except.toBool]) hr)
  · exact .throw

theorem sys_careful (hc : safe c) (h : spoils c → ∀ r, R r) : CarefulX settles safe spoils R (sys c) := by
  by_cases hs : spoils c
  · exact .of_all (sys_only hc) (h hs)
  · exact .of_quiet (sys_only ⟨hc, hs⟩)

theorem us_only {x : Thread Reply} (h : OnlyX P x) : OnlyX P (Reply.us <$> x) := h.bind fun _ => .pure

theorem us_pays {R : ℕ → Prop} {x : Thread Reply} (h : PaysX settles (fun r => R r.us) x) :
    PaysX settles R (Reply.us <$> x) := .bind (h.imp fun _ hr => .pure hr)

/-- Neither makes nor changes nor removes a file, and flushes none without a sync method. -/
def Bare (p : FileParams) : Call → Prop
  | .create _ | .write _ _ _ | .unlink _ | .writeback _ => False
  | .fsync _ | .sync => p.syncBits ≠ 0
  | _ => True

def WriteCall (p : FileParams) (path : String) (c : Call) : Prop :=
  p.Allowed c ∧ ∃ pos data, c = .write path pos data

/-- A call for the file `path`, until it is closed. -/
def FileCall (p : FileParams) (path : String) (c : Call) : Prop := Bare p c ∨ (p.Allowed c ∧ Touches path c)

def EndCall (p : FileParams) (c : Call) : Prop := Bare p c ∨ (p.keepFiles = false ∧ ∃ path, c = .unlink path)

theorem Bare.allowed (h : Bare p c) : p.Allowed c := by
  cases c <;> trivial

theorem Bare.not_canFlush (h : Bare p c) (hzero : p.syncBits = 0) : ¬ CanFlush c := by
  intro hc
  cases c with
  | fsync path => exact h hzero
  | sync => exact h hzero
  | writeback path => exact h
  | _ => exact hc

theorem Bare.not_touches (h : Bare p c) : ¬ Touches path c := by
  cases c <;> first | exact h.elim | exact fun ht => ht

theorem WriteCall.fileCall (h : WriteCall p path c) : FileCall p path c := by
  obtain ⟨hallowed, pos, data, rfl⟩ := h
  exact .inr ⟨hallowed, rfl⟩

theorem FileCall.allowed (h : FileCall p path c) : p.Allowed c := h.elim Bare.allowed And.left

theorem FileCall.not_touches (h : FileCall p path c) (hne : path ≠ q) : ¬ Touches q c := by
  rcases h with hbare | ⟨-, htouch⟩
  · exact hbare.not_touches
  · intro hq
    cases c with
    | create path' => exact hne (htouch.symm.trans hq)
    | write path' pos data => exact hne (htouch.symm.trans hq)
    | _ => exact htouch

theorem EndCall.allowed (h : EndCall p c) : p.Allowed c := by
  rcases h with hbare | ⟨hkeep, path, rfl⟩
  · exact hbare.allowed
  · exact hkeep

theorem EndCall.not_touches (h : EndCall p c) : ¬ Touches q c := by
  rcases h with hbare | ⟨-, path, rfl⟩
  · exact hbare.not_touches
  · exact fun ht => ht

theorem unixNanos_only : OnlyX (Bare p) unixNanos := (sys_only trivial).bind fun _ => .pure

theorem unixSecs_only : OnlyX (Bare p) unixSecs := unixNanos_only.bind fun _ => .pure

theorem mkdirEexist_only (dir : String) : OnlyX (Bare p) (mkdirEexist dir) := by
  refine (OnlyX.ask trivial).bind fun r => ?_
  split
  · exact .pure
  · exact .pure
  · exact .throw

theorem setupFileName_only (st : ThreadState) : OnlyX (Bare p) (p.setupFileName st) :=
  unixSecs_only.bind fun _ => (mkdirEexist_only _).bind fun _ => .pure

theorem postFsync_only (hbits : p.syncBits ≠ 0) (path : String) : OnlyX (Bare p) (postFsync path) :=
  (sys_only trivial).bind fun _ => (sys_only hbits).bind fun _ => (OnlyX.ask trivial).bind fun _ => .pure

theorem timesOf_only {f : String → Thread ℕ} (hf : ∀ path, OnlyX P (f path)) (names : List String) :
    OnlyX P (timesOf f names) := by
  induction names with
  | nil => exact .pure
  | cons path rest ih => exact (hf path).bind fun _ => ih.bind fun _ => .pure

theorem provided_only {α : Type} {b : Prop} [Decidable b] {x : Thread α} {a : α} (h : b → OnlyX P x) :
    OnlyX P (provided b x a) := by
  rw [provided]
  split
  · exact h ‹_›
  · exact .pure

theorem bits_ne_zero {mask : ℕ} (h : p.syncBits &&& mask ≠ 0) : p.syncBits ≠ 0 := fun hzero =>
  h (by rw [hzero, Nat.zero_and])

theorem flush_only (names : List String) : OnlyX (Bare p) (p.flush names) :=
  (provided_only fun h => us_only (sys_only (bits_ne_zero h))).bind fun _ =>
    (provided_only fun h => timesOf_only (postFsync_only (bits_ne_zero h)) _).bind fun _ =>
      (provided_only fun h => timesOf_only (postFsync_only (bits_ne_zero h)) _).bind fun _ =>
        (provided_only fun h => postFsync_only (bits_ne_zero h) _).bind fun _ => .pure

theorem finish_only (loopStart : ℕ) (files : List (String × FileTimes)) :
    OnlyX (EndCall p) (p.finish loopStart files) := by
  refine ((flush_only _).imp fun c hc => .inl hc).bind fun _ => ?_
  refine (unixNanos_only.imp fun c hc => .inl hc).bind fun _ => ?_
  refine (provided_only fun hkeep => timesOf_only (fun path => us_only (sys_only ?_)) _).bind fun _ => .pure
  exact .inr ⟨hkeep, path, rfl⟩

theorem Zero.ioBuffer (p : FileParams) : Zero p.ioBuffer := fun i => byteAt_replicate_zero _ i

theorem writeFile_only (fuel : ℕ) {pos left : ℕ} (hend : pos + left ≤ p.fileSize) :
    OnlyX (WriteCall p path) (FileParams.writeFile path p.ioBuffer fuel pos left) := by
  induction fuel generalizing pos left with
  | zero => exact .pure
  | succ fuel ih =>
    rw [FileParams.writeFile]
    split
    · exact .pure
    · have hle : FileParams.chunk p.ioBuffer left ≤ left := by
        rw [FileParams.chunk]
        split <;> omega
      have hchunk := List.length_take_le (FileParams.chunk p.ioBuffer left) p.ioBuffer
      have hwrite :
          WriteCall p path (.write path pos (p.ioBuffer.take (FileParams.chunk p.ioBuffer left))) :=
        ⟨⟨(Zero.ioBuffer p).take _, by omega⟩, _, _, rfl⟩
      exact (sys_only hwrite).bind fun _ => (ih (by omega)).bind fun _ => .pure

theorem makeFile_only (path : String) : OnlyX (FileCall p path) (p.makeFile path) :=
  (sys_only (.inr ⟨trivial, rfl⟩)).bind fun _ =>
    ((writeFile_only _ (Nat.zero_add _).le).imp fun _ hc => hc.fileCall).bind fun _ =>
      (provided_only fun h => us_only (sys_only (.inl (bits_ne_zero h)))).bind fun _ =>
        (OnlyX.ask (.inl trivial)).bind fun _ => .pure

/-! ## Careful threads -/

/-- What the calls of a round must be like for the debts on the file `q`. -/
structure Covers (p : FileParams) (q : String) (settles : Call → Reply → Prop) (spoils : Call → Prop) :
  Prop where
  touches : ∀ c, spoils c → Touches q c
  writeback : ∀ path r, ¬ settles (.writeback path) r
  /-- The debts are settled before the file is closed, or else at the end of the thread. -/
  settled : (CarefulX settles p.Allowed spoils (fun _ => False) (p.makeFile q) ∧
      PaysX settles (fun _ => False) (p.makeFile q)) ∨
    ∀ loopStart files, q ∈ files.map Prod.fst → PaysX settles (fun _ => False) (p.finish loopStart files)

theorem OnlyX.careful {α : Type} {x : Thread α} {Q : α → Prop} (h : OnlyX (Bare p) x)
    (hspoils : ∀ c, spoils c → Touches q c) : CarefulX settles p.Allowed spoils Q x :=
  .of_quiet (h.imp fun c hc => ⟨hc.allowed, fun hs => hc.not_touches (hspoils c hs)⟩)

theorem makeFiles_careful {R : List (String × FileTimes) → Prop} (hspoils : ∀ c, spoils c → Touches q c)
    (h : CarefulX settles p.Allowed spoils (fun _ => False) (p.makeFile q) ∨
      ∀ files, q ∈ files.map Prod.fst → R files) (n : ℕ) (st : ThreadState) :
    CarefulX settles p.Allowed spoils R (p.makeFiles n st) := by
  induction n generalizing st R with
  | zero => exact .pure
  | succ n ih =>
    refine (OnlyX.careful (setupFileName_only st) hspoils).bind fun ⟨path, st⟩ => ?_
    refine CarefulX.bind ?_ fun times => ?_
    · by_cases hq : path = q
      · subst hq
        rcases h with hself | hall
        · exact hself.imp fun _ => False.elim
        · refine .of_all ((makeFile_only path).imp fun c hc => hc.allowed) fun times => ?_
          exact .bind (.of_all fun rest => .pure (hall _ List.mem_cons_self))
      · exact .of_quiet ((makeFile_only path).imp fun c hc =>
          ⟨hc.allowed, fun hs => hc.not_touches hq (hspoils c hs)⟩)
    · refine CarefulX.bind (ih (h.imp_right fun hall files hmem => ?_) st) fun rest => .pure
      exact .pure (hall _ (List.mem_cons_of_mem _ hmem))

/-- A file that is among those that have been made is settled with them. -/
theorem makeFiles_pays (h : PaysX settles (fun _ => False) (p.makeFile q)) (n : ℕ) (st : ThreadState) :
    PaysX settles (fun files => q ∉ files.map Prod.fst) (p.makeFiles n st) := by
  induction n generalizing st with
  | zero => exact .pure List.not_mem_nil
  | succ n ih =>
    refine .bind (.of_all fun ⟨path, st⟩ => ?_)
    by_cases hq : path = q
    · subst hq
      exact .bind (h.imp fun _ => False.elim)
    · refine .bind (.of_all fun times => .bind ((ih st).imp fun rest hrest => .pure fun hmem => ?_))
      rcases List.mem_cons.mp hmem with heq | hmem
      · exact hq heq.symm
      · exact hrest hmem

theorem finish_names {loopStart : ℕ} {files : List (String × FileTimes)} {R : ThreadRun → Prop}
    (h : ∀ run, run.names = files.map Prod.fst → R run) : PaysX settles R (p.finish loopStart files) :=
  .bind (.of_all fun _ => .bind (.of_all fun _ => .bind (.of_all fun _ => .pure (h _ rfl))))

theorem finish_careful {R : ThreadRun → Prop} (hspoils : ∀ c, spoils c → Touches q c) (loopStart : ℕ)
    (files : List (String × FileTimes)) : CarefulX settles p.Allowed spoils R (p.finish loopStart files) :=
  .of_quiet ((finish_only loopStart files).imp fun c hc =>
    ⟨hc.allowed, fun hs => hc.not_touches (hspoils c hs)⟩)

theorem Covers.careful (h : Covers p q settles spoils) (i : ℕ) :
    CarefulX settles p.Allowed spoils (fun _ => False) (p.runThread i) := by
  refine (OnlyX.careful (mkdirEexist_only _) h.touches).bind fun _ => ?_
  refine (OnlyX.careful (sys_only (show Bare p (.statfs _) from trivial)) h.touches).bind fun _ => ?_
  refine (OnlyX.careful (provided_only fun _ => .throw) h.touches).bind fun _ => ?_
  refine (OnlyX.careful unixNanos_only h.touches).bind fun _ => ?_
  refine (OnlyX.careful unixSecs_only h.touches).bind fun _ => ?_
  refine (OnlyX.careful unixNanos_only h.touches).bind fun loopStart => ?_
  refine (makeFiles_careful h.touches ?_ _ _).bind fun files => finish_careful h.touches _ _
  exact h.settled.imp And.left fun hend files hmem => hend _ files hmem

theorem Covers.pays (h : Covers p q settles spoils) (i : ℕ) :
    PaysX settles (fun run => q ∉ run.names) (p.runThread i) := by
  refine .bind (.of_all fun _ => .bind (.of_all fun _ => ?_))
  refine .bind (.of_all fun _ => .bind (.of_all fun _ => ?_))
  refine .bind (.of_all fun _ => .bind (.of_all fun loopStart => .bind ?_))
  rcases h.settled with ⟨-, hself⟩ | hend
  · refine (makeFiles_pays hself _ _).imp fun files hnot => finish_names fun run hrun => ?_
    rwa [hrun]
  · refine .of_all fun files => ?_
    by_cases hmem : q ∈ files.map Prod.fst
    · exact (hend _ files hmem).imp fun _ => False.elim
    · refine finish_names fun run hrun => ?_
      rwa [hrun]

/-! ### The debts of fsmark -/

theorem provided_pays {α : Type} {b : Prop} [Decidable b] {x : Thread α} {a : α} {R : α → Prop} (hb : b)
    (h : PaysX settles R x) : PaysX settles R (provided b x a) := by
  rwa [provided, if_pos hb]

theorem timesOf_pays {f : String → Thread ℕ} {names : List String} (hmem : q ∈ names)
    (hf : PaysX settles (fun _ => False) (f q)) : PaysX settles (fun _ => False) (timesOf f names) := by
  induction names with
  | nil => exact absurd hmem List.not_mem_nil
  | cons path rest ih =>
    by_cases hq : path = q
    · subst hq
      exact .bind (hf.imp fun _ => False.elim)
    · refine .bind (.of_all fun us => .bind ((ih ?_).imp fun _ => False.elim))
      exact (List.mem_cons.mp hmem).resolve_left fun heq => hq heq.symm

theorem covers_present (p : FileParams) (q : String) : Covers p q (Makes q) fun _ => False where
  touches _ := False.elim
  writeback _ _ h := h.1
  settled := .inl ⟨.of_quiet ((makeFile_only q).imp fun _ hc => ⟨hc.allowed, fun h => h⟩),
    .bind (sys_pays fun _ hok hnot => absurd ⟨rfl, hok⟩ hnot)⟩

/-- The last write fills the file. -/
theorem writeFile_pays (p : FileParams) (q : String) (fuel : ℕ) {pos left : ℕ}
    (hend : pos + left = p.fileSize)
    (hleft : 0 < left) (hfuel : left ≤ fuel) :
    PaysX (Fills p q) (fun _ => False) (FileParams.writeFile q p.ioBuffer fuel pos left) := by
  induction fuel generalizing pos left with
  | zero => omega
  | succ fuel ih =>
    have hbuf : 0 < p.ioBuffer.length := by
      rw [FileParams.ioBuffer, List.length_replicate]
      exact p.ioSize_pos
    rw [FileParams.writeFile, if_neg (by omega)]
    by_cases hlast : p.ioBuffer.length < left
    · have hchunk : FileParams.chunk p.ioBuffer left = p.ioBuffer.length := if_pos hlast
      rw [hchunk]
      exact .bind (.of_all fun _ => .bind ((ih (by omega) (by omega) (by omega)).imp fun _ => False.elim))
    · have hchunk : FileParams.chunk p.ioBuffer left = left := if_neg hlast
      rw [hchunk]
      refine .bind (sys_pays fun r hok hnot => absurd ⟨hok, .inr ⟨pos, _, rfl, ?_⟩⟩ hnot)
      rw [List.length_take]
      omega

theorem covers_whole (p : FileParams) (q : String) :
    Covers p q (Fills p q) fun c => Creates q c ∧ 0 < p.fileSize where
  touches _ h := h.1.touches
  writeback _ _ h := by
    obtain ⟨-, ⟨h, -⟩ | ⟨pos, data, h, -⟩⟩ := h
    · exact h
    · cases h
  settled := by
    have hfull : ∀ {α : Type} {f : List ℕ → Thread α}, 0 < p.fileSize → PaysX (Fills p q) (fun _ => False)
        (FileParams.writeFile q p.ioBuffer p.fileSize 0 p.fileSize >>= f) := fun hpos =>
      .bind ((writeFile_pays p q _ (Nat.zero_add _) hpos le_rfl).imp fun _ => False.elim)
    refine .inl ⟨(sys_careful trivial fun hs _ => hfull hs.2).bind fun _ => ?_, ?_⟩
    · refine CarefulX.bind (.of_quiet ((writeFile_only _ (Nat.zero_add _).le).imp fun c hc => ?_))
        fun _ => ?_
      · obtain ⟨hallowed, pos, data, rfl⟩ := hc
        exact ⟨hallowed, fun h => h.1⟩
      · have hbare : ∀ c, Bare p c → p.Allowed c ∧ ¬ (Creates q c ∧ 0 < p.fileSize) := fun c hc =>
          ⟨hc.allowed, fun h => hc.not_touches h.1.touches⟩
        refine CarefulX.bind
          (.of_quiet (provided_only fun h => us_only (sys_only (hbare _ (bits_ne_zero h))))) fun _ => ?_
        exact CarefulX.bind (.of_quiet (.ask (hbare _ trivial))) fun _ => .pure
    · rcases Nat.eq_zero_or_pos p.fileSize with hzero | hpos
      · exact .bind (sys_pays fun _ hok hnot => absurd ⟨hok, .inl ⟨rfl, hzero⟩⟩ hnot)
      · exact .bind (.of_all fun _ => hfull hpos)

theorem postFsync_pays (q : String) : PaysX (Syncs q) (fun _ => False) (postFsync q) :=
  .bind (.of_all fun _ => .bind (sys_pays fun _ hok hnot => absurd ⟨rfl, hok⟩ hnot))

/-- A file is flushed before it is closed, or at the end. -/
theorem covers_flushed {p : FileParams} (hsync : p.syncType ≠ 0) (q : String) :
    Covers p q (Syncs q) (Touches q) where
  touches _ h := h
  writeback _ _ h := h
  settled := by
    have hbits : p.syncBits &&& fsyncBeforeClose ≠ 0 ∨ p.syncBits &&& fsyncSyncSyscall ≠ 0 ∨
        p.syncBits &&& fsyncPostInOrder ≠ 0 ∨ p.syncBits &&& fsyncPostReverse ≠ 0 := by
      rw [p.syncBits_eq]
      revert hsync
      generalize p.syncType = t
      revert t
      decide
    rcases hbits with hclose | hsys | horder | hreverse
    · have hrest : ∀ {α : Type} {f : ℕ → Thread α}, PaysX (Syncs q) (fun _ => False)
          (provided (p.syncBits &&& fsyncBeforeClose ≠ 0) (Reply.us <$> sys (.fsync q)) 0 >>= f) :=
        fun {_ _} =>
        .bind (provided_pays hclose (us_pays (sys_pays fun _ hok hnot => absurd ⟨rfl, hok⟩ hnot)))
      have hquiet : ∀ c, Bare p c → p.Allowed c ∧ ¬ Touches q c := fun c hc => ⟨hc.allowed, hc.not_touches⟩
      refine .inl ⟨?_, .bind (.of_all fun _ => .bind (.of_all fun _ => hrest))⟩
      refine CarefulX.bind (.of_all (sys_only trivial) fun _ => .bind (.of_all fun _ => hrest)) fun _ => ?_
      refine CarefulX.bind (.of_all ((writeFile_only _ (Nat.zero_add _).le).imp fun _ hc => hc.1)
        fun _ => hrest)
        fun _ => ?_
      refine CarefulX.bind
        (.of_quiet (provided_only fun h => us_only (sys_only (hquiet _ (bits_ne_zero h))))) fun _ => ?_
      exact CarefulX.bind (.of_quiet (.ask (hquiet _ trivial))) fun _ => .pure
    · refine .inr fun _ files hmem =>
        .bind (.bind (provided_pays hsys (us_pays (sys_pays fun _ _ hnot => ?_))))
      exact absurd trivial hnot
    · refine .inr fun _ files hmem => .bind (.bind (.of_all fun _ => .bind (provided_pays horder ?_)))
      exact (timesOf_pays hmem (postFsync_pays q)).imp fun _ => False.elim
    · refine .inr fun _ files hmem => .bind (.bind (.of_all fun _ => .bind (.of_all fun _ => .bind ?_)))
      refine provided_pays hreverse ?_
      exact (timesOf_pays (List.mem_reverse.mpr hmem) (postFsync_pays q)).imp fun _ => False.elim

theorem covers_gone {p : FileParams} (hkeep : p.keepFiles = false) (q : String) :
    Covers p q (Removes q) (Creates q) where
  touches _ h := h.touches
  writeback _ _ h := nomatch h.1
  settled := by
    refine .inr fun _ files hmem => .bind (.of_all fun _ => .bind (.of_all fun _ => .bind ?_))
    refine provided_pays hkeep ((timesOf_pays hmem ?_).imp fun _ => False.elim)
    exact us_pays (sys_pays fun _ hok hnot => absurd ⟨rfl, hok⟩ hnot)

/-- Without a sync method nothing is flushed. -/
theorem runThread_only (hzero : p.syncBits = 0) (i : ℕ) : OnlyX (fun c => ¬ CanFlush c) (p.runThread i) := by
  have hbare : ∀ c, Bare p c → ¬ CanFlush c := fun _ hc => hc.not_canFlush hzero
  have hfile : ∀ path c, FileCall p path c → ¬ CanFlush c := by
    rintro path c (hc | ⟨-, htouch⟩)
    · exact hbare c hc
    · cases c <;> first | exact htouch.elim | exact fun h => h
  have hfiles : ∀ n st, OnlyX (fun c => ¬ CanFlush c) (p.makeFiles n st) := by
    intro n
    induction n with
    | zero => exact fun _ => .pure
    | succ n ih =>
      exact fun st => ((setupFileName_only st).imp hbare).bind fun _ =>
        ((makeFile_only _).imp (hfile _)).bind fun _ => (ih _).bind fun _ => .pure
  refine ((mkdirEexist_only _).imp hbare).bind fun _ => ?_
  refine (OnlyX.imp (sys_only (show Bare p (.statfs _) from trivial)) hbare).bind fun _ => ?_
  refine (provided_only fun _ => .throw).bind fun _ => (unixNanos_only.imp hbare).bind fun _ => ?_
  refine (unixSecs_only.imp hbare).bind fun _ => (unixNanos_only.imp hbare).bind fun loopStart => ?_
  refine (hfiles _ _).bind fun files => (finish_only _ _).imp fun c hc => ?_
  rcases hc with hc | ⟨-, path, rfl⟩
  · exact hbare c hc
  · exact fun h => h

/-- A thread that ends well has made as many files as it should. -/
theorem length_names (p : FileParams) (i : ℕ) :
    PaysX (fun _ _ => False) (fun run => run.names.length = p.numFiles) (p.runThread i) := by
  have hfiles : ∀ n st, PaysX (fun _ _ => False) (fun files => files.length = n) (p.makeFiles n st) := by
    intro n
    induction n with
    | zero => exact fun _ => .pure rfl
    | succ n ih =>
      refine fun st => .bind (.of_all fun a => .bind (.of_all fun times => ?_))
      refine .bind ((ih _).imp fun rest hrest => ?_)
      exact .pure (congrArg (· + 1) hrest)
  refine .bind (.of_all fun _ => .bind (.of_all fun _ => ?_))
  refine .bind (.of_all fun _ => .bind (.of_all fun _ => ?_))
  refine .bind (.of_all fun _ => .bind (.of_all fun loopStart => ?_))
  refine .bind ((hfiles _ _).imp fun files hlen => ?_)
  refine finish_names fun run hrun => ?_
  rw [hrun, List.length_map, hlen]

end Programs

/-! ## Iterations -/

section Iterations

variable {p : FileParams} {q : String} {settles : Call → Reply → Prop} {spoils : Call → Prop}
  {J G : Machine → Prop} {kernel : Prog Call Reply (Except RunErr ThreadRun)} {m : Machine}
  {s : Threads.State (Option (Fin p.threads)) Call Reply (Except RunErr ThreadRun) Machine}
  {runs : Fin p.threads → ThreadRun}

/-- **What is owed is settled** when all threads of an iteration have ended without an error. -/
theorem iteration_settled (hG : Settling settles p.Allowed spoils eff J G) (h : Covers p q settles spoils)
    (hJ : J m) (hk : Only IsWriteback kernel) (hr : Reaches eff (p.start kernel m) s)
    (hend : ∀ t, (s.progs (some t)).result? = some (.ok (runs t))) {t : Fin p.threads}
    (hq : q ∈ (runs t).names) :
    J s.mem ∧ G s.mem := by
  -- the thread of the file is excused if the file is not among its names
  let excused : Option (Fin p.threads) → Except RunErr ThreadRun → Prop
    | none, _ => False
    | some u, r => ∀ run, r = .ok run → u = t ∧ q ∉ run.names
  have hstart : Solvent settles p.Allowed spoils excused J G (p.start kernel m) := by
    refine ⟨hJ, fun u => ?_, .inr ⟨some t, ?_⟩⟩
    · cases u with
      | some u => exact Careful.imp (h.careful u) fun r hr run hrun => (hr run hrun).elim
      | none =>
        refine Careful.of_quiet (hk.imp fun c hc => ?_)
        cases c with
        | writeback path => exact ⟨trivial, fun hs => h.touches _ hs⟩
        | _ => exact hc.elim
    · exact Pays.imp (h.pays t) fun r hr run hrun => ⟨rfl, hr run hrun⟩
  have hrun := hstart.run hG hr
  refine ⟨hrun.inv, hrun.settled fun u hu => ?_⟩
  cases u with
  | some u =>
    refine ⟨_, hend u, fun hexcused => ?_⟩
    obtain ⟨rfl, hnot⟩ := hexcused _ rfl
    exact hnot hq
  | none =>
    have honly : Only IsWriteback (s.progs none) :=
      progs_invariant (I := Only IsWriteback) (fun c k r hc => hc.2 r) (fun k hc => hc) hk hr
    refine absurd hu (@not_pays_of_only _ _ _ _ _ ⟨⟨.ok 0, 0⟩⟩ (honly.imp fun c hc r => ?_))
    cases c with
    | writeback path => exact h.writeback path r
    | _ => exact hc.elim

theorem iteration_names (hr : Reaches eff (p.start kernel m) s)
    (hend : ∀ t, (s.progs (some t)).result? = some (.ok (runs t))) (t : Fin p.threads) :
    (runs t).names.length = p.numFiles := by
  have hpays : Pays (fun _ _ => False) (fun r => ∀ run, r = .ok run → run.names.length = p.numFiles)
      (s.progs (some t)) :=
    progs_invariant (s := p.start kernel m) (fun c k r hc => hc r fun hf => hf) (fun k hc => hc)
      (length_names p t) hr
  have ht := hend t
  cases hp : s.progs (some t) with
  | done b =>
    rw [hp] at hpays ht
    cases ht
    exact hpays _ rfl
  | call c k => rw [hp] at ht; cases ht
  | wait k => rw [hp] at ht; cases ht

theorem durable_unsynced (hzero : p.syncType = 0) (hk : Only (fun _ => False) kernel)
    (hr : Reaches eff (p.start kernel m) s) : s.mem.durable = m.durable := by
  have hbits : p.syncBits = 0 := by rw [p.syncBits_eq, hzero]; rfl
  have hG : Settling (fun _ _ => False) (fun c => ¬ CanFlush c) (fun _ => False) eff
      (fun m' : Machine => m'.durable = m.durable) fun _ => True :=
    { inv := fun c m' hc hj => (durable_apply_of_not hc).trans hj
      keeps := fun _ _ _ _ _ _ => trivial
      settled := fun _ _ _ _ => False.elim }
  have hstart : Solvent (fun _ _ => False) (fun c => ¬ CanFlush c) (fun _ => False) (fun _ _ => True)
      (fun m' : Machine => m'.durable = m.durable) (fun _ => True) (p.start kernel m) := by
    refine ⟨rfl, fun u => ?_, .inl trivial⟩
    cases u with
    | some u => exact Careful.of_quiet ((runThread_only hbits u).imp fun c hc => ⟨hc, fun h => h⟩)
    | none => exact Careful.of_quiet (hk.imp fun c hc => hc.elim)
  exact (hstart.run hG hr).inv

/-- **What an iteration leaves** of files that are kept, when all its threads have ended without an error:
each has made its files, these are as long as they should be and there on the disk, whatever the threads and
the kernel have done in which order. Only without a sync method nothing but the kernel brings them there. -/
theorem kept_after (hkeep : p.keepFiles = true) (hk : Only IsWriteback kernel)
    (hr : Reaches eff (p.start kernel m) s) (hend : ∀ t, (s.progs (some t)).result? = some (.ok (runs t))) :
    (∀ t, (runs t).names.length = p.numFiles ∧ ∀ path ∈ (runs t).names,
      s.mem.file path ≠ none ∧
      (Plain p path m → s.mem.file path = some (List.replicate p.fileSize 0)) ∧
      (p.syncType ≠ 0 → s.mem.durable path = s.mem.file path)) ∧
    (p.syncType = 0 → Only (fun _ => False) kernel → s.mem.durable = m.durable) := by
  refine ⟨fun t => ⟨iteration_names hr hend t, fun path hpath => ⟨?_, fun hplain => ?_, fun hsync => ?_⟩⟩,
    fun hzero hsilent => ?_⟩
  · exact (iteration_settled (settling_present hkeep) (covers_present p path) trivial hk hr hend hpath).2
  · obtain ⟨-, hpresent⟩ :=
      iteration_settled (settling_present hkeep) (covers_present p path) trivial hk hr hend hpath
    obtain ⟨hzero, hwhole⟩ :=
      iteration_settled (settling_whole hkeep) (covers_whole p path) hplain hk hr hend hpath
    obtain ⟨b, hb⟩ := Option.ne_none_iff_exists'.mp hpresent
    rw [hb, ← hwhole b hb, ← (hzero b hb).1.eq_replicate]
  · exact (iteration_settled (settling_flushed hkeep) (covers_flushed hsync path) trivial hk hr hend hpath).2
  · exact durable_unsynced hzero hsilent hr

/-- **Nothing is left** of files that are not kept. -/
theorem removed_after (hkeep : p.keepFiles = false) (hk : Only IsWriteback kernel)
    (hr : Reaches eff (p.start kernel m) s) (hend : ∀ t, (s.progs (some t)).result? = some (.ok (runs t)))
    (t : Fin p.threads) :
    (runs t).names.length = p.numFiles ∧ ∀ path ∈ (runs t).names, s.mem.file path = none :=
  ⟨iteration_names hr hend t, fun path hpath =>
    (iteration_settled settling_gone (covers_gone hkeep path) trivial hk hr hend hpath).2⟩

end Iterations

/-! ### A single file -/

def emptyMachine : Machine where
  file _ := none
  durable _ := none
  moods _ := { free := 10 }

abbrev OneFile (keepFiles : Bool) : Type :=
  Threads.State (Option (Fin (oneFile keepFiles).threads)) Call Reply (Except RunErr ThreadRun) Machine

def idle : Prog Call Reply (Except RunErr ThreadRun) := .done (.error (.io ""))

theorem only_idle {P : Call → Prop} : Only P idle := trivial

def oneStart (keepFiles : Bool) : OneFile keepFiles := (oneFile keepFiles).start idle emptyMachine

def endsWith (keepFiles : Bool) (path : String) (s : OneFile keepFiles) : Bool :=
  (List.finRange (oneFile keepFiles).threads).all fun t =>
    ((s.progs (some t)).result?.bind Except.toOption).any fun run => run.names == [path]

theorem runs_of_endsWith {keepFiles : Bool} {path : String} {s : OneFile keepFiles}
    (h : endsWith keepFiles path s = true) :
    ∃ runs : Fin (oneFile keepFiles).threads → ThreadRun,
      ∀ t, (s.progs (some t)).result? = some (.ok (runs t)) ∧ (runs t).names = [path] := by
  have hall : ∀ t : Fin (oneFile keepFiles).threads, ∃ run : ThreadRun,
      (s.progs (some t)).result? = some (.ok run) ∧ run.names = [path] := by
    intro t
    have ht := List.all_eq_true.mp h t (List.mem_finRange t)
    rw [Option.any_eq_true] at ht
    obtain ⟨run, hrun, hname⟩ := ht
    obtain ⟨r, hr, hok⟩ := Option.bind_eq_some_iff.mp hrun
    cases r with
    | error e => cases hok
    | ok run' =>
      cases hok
      exact ⟨run, hr, eq_of_beq hname⟩
  choose runs hruns using hall
  exact ⟨runs, hruns⟩

theorem kept_after_one : ∃ s, Reaches eff (oneStart true) s ∧ s.mem.durable "/mnt/0K" = some [0] := by
  have hsteps : ((List.replicate 12 (some (some ⟨0, Nat.one_pos⟩))).foldlM (Threads.step eff)
      (oneStart true)).any (endsWith true "/mnt/0K") = true := by decide +kernel
  obtain ⟨s, hr, hcheck⟩ := exists_reaches_of_schedule hsteps
  obtain ⟨runs, hruns⟩ := runs_of_endsWith hcheck
  have hkept := kept_after (p := oneFile true) rfl only_idle hr fun t => (hruns t).1
  obtain ⟨-, hfiles⟩ := hkept.1 ⟨0, Nat.one_pos⟩
  rw [(hruns _).2] at hfiles
  obtain ⟨-, hwhole, hdurable⟩ := hfiles "/mnt/0K" List.mem_cons_self
  exact ⟨s, hr, (hdurable (by decide)).trans (hwhole fun b hb => nomatch hb)⟩

theorem removed_after_one : ∃ s, Reaches eff (oneStart false) s ∧ s.mem.file "/mnt/0K" = none := by
  have hsteps : ((List.replicate 13 (some (some ⟨0, Nat.one_pos⟩))).foldlM (Threads.step eff)
      (oneStart false)).any (endsWith false "/mnt/0K") = true := by decide +kernel
  obtain ⟨s, hr, hcheck⟩ := exists_reaches_of_schedule hsteps
  obtain ⟨runs, hruns⟩ := runs_of_endsWith hcheck
  have hgone := removed_after (p := oneFile false) rfl only_idle hr (fun t => (hruns t).1) ⟨0, Nat.one_pos⟩
  rw [(hruns _).2] at hgone
  exact ⟨s, hr, hgone.2 "/mnt/0K" List.mem_cons_self⟩

end Fstest.Fsmark
