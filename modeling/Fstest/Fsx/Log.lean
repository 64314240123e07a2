import Fstest.Fsx.Start

/-!
# What an iteration of fsx leaves in the log

An operation makes one entry in the log, or none, and leaves the counter of operations alone
(`dispatch_logs`). So an iteration counts one operation (`iteration_logs`), and the entry that it made
stands where the log pointer was before it (`logged`).
-/

namespace Fstest.Fsx

variable {σ : Type} {K : Kernel σ} {s s' s'' : Fsx σ} {a : Args}

/-- A state with the same log and the same number of operations. -/
structure SameLog (s s' : Fsx σ) : Prop where
  testcalls : s'.testcalls = s.testcalls
  log : s'.log = s.log
  logptr : s'.logptr = s.logptr
  logcount : s'.logcount = s.logcount

/-- One more entry in the log, or none. -/
structure LogsOne (s s' : Fsx σ) : Prop where
  testcalls : s'.testcalls = s.testcalls
  log : (s'.log = s.log ∧ s'.logptr = s.logptr ∧ s'.logcount = s.logcount) ∨
    ∃ e, s'.log = s.log.set s.logptr e ∧ s'.logptr = logptrNext s.logptr ∧
      s'.logcount = s.logcount + 1

theorem SameLog.refl (s : Fsx σ) : SameLog s s := ⟨rfl, rfl, rfl, rfl⟩

theorem SameLog.trans (h : SameLog s s') (h' : SameLog s' s'') : SameLog s s'' where
  testcalls := h'.testcalls.trans h.testcalls
  log := h'.log.trans h.log
  logptr := h'.logptr.trans h.logptr
  logcount := h'.logcount.trans h.logcount

theorem SameLog.logsOne (h : SameLog s s') : LogsOne s s' :=
  ⟨h.testcalls, .inl ⟨h.log, h.logptr, h.logcount⟩⟩

theorem LogsOne.of_same (h : SameLog s s') (h' : LogsOne s' s'') : LogsOne s s'' where
  testcalls := h'.testcalls.trans h.testcalls
  log := by
    rcases h'.log with ⟨h₁, h₂, h₃⟩ | ⟨e, h₁, h₂, h₃⟩
    · exact .inl ⟨h₁.trans h.log, h₂.trans h.logptr, h₃.trans h.logcount⟩
    · simp only [h.log, h.logptr, h.logcount] at h₁ h₂ h₃
      exact .inr ⟨e, h₁, h₂, h₃⟩

theorem LogsOne.followed (h : LogsOne s s') (h' : SameLog s' s'') : LogsOne s s'' where
  testcalls := h'.testcalls.trans h.testcalls
  log := by
    rw [h'.log, h'.logptr, h'.logcount]
    exact h.log

theorem logsOne_log5 (s : Fsx σ) (op : Op) (a0 a1 a2 : Nat) (b : Bool) :
    LogsOne s (s.log5 op a0 a1 a2 b) := ⟨rfl, .inr ⟨_, rfl, rfl, rfl⟩⟩

/-- An operation that is done once it has logged itself. -/
theorem yields_log5 (s : Fsx σ) (op : Op) (a0 a1 a2 : Nat) (b : Bool) :
    Yields (some (s.log5 op a0 a1 a2 b)) (LogsOne s) := .of_some (logsOne_log5 ..)

/-- An operation that logs itself and then leaves the log alone. -/
theorem yields_after_log (s : Fsx σ) (op : Op) (a0 a1 a2 : Nat) (b : Bool) {r : Option (Fsx σ)}
    (h : Yields r (SameLog (s.log5 op a0 a1 a2 b))) : Yields r (LogsOne s) :=
  h.imp fun _ hs => (logsOne_log5 ..).followed hs

/-- What follows a step that leaves the log alone. -/
theorem yields_then {r : Option (Fsx σ)} {f : Fsx σ → Option (Fsx σ)}
    (h : Yields r (SameLog s)) (hf : ∀ s', Yields (f s') (SameLog s')) :
    Yields (r.bind f) (SameLog s) :=
  h.bind fun s' hs => (hf s').imp fun _ hs' => hs.trans hs'

/-! ## Parts of operations -/

theorem sameLog_fail (s : Fsx σ) (msg : String) : SameLog s (s.fail msg) := by
  unfold fail
  split <;> exact ⟨rfl, rfl, rfl, rfl⟩

theorem sameLog_raiseBiggest (s : Fsx σ) (fin : Nat) : SameLog s (s.raiseBiggest fin) := by
  unfold raiseBiggest
  split <;> exact ⟨rfl, rfl, rfl, rfl⟩

theorem yields_fail (s : Fsx σ) (msg : String) : Yields (some (s.fail msg)) (SameLog s) :=
  .of_some (sameLog_fail s msg)

theorem yields_gendata (s : Fsx σ) (offset size : Nat) :
    Yields (s.gendata offset size) (SameLog s) := by
  unfold gendata
  exact yields_bind fun _ => yields_bind fun _ => .of_some ⟨rfl, rfl, rfl, rfl⟩

theorem yields_updateFileSize (s : Fsx σ) (offset size : Nat) :
    Yields (s.updateFileSize offset size) (SameLog s) := by
  unfold updateFileSize
  exact yields_bind fun _ => yields_bind fun _ => .of_some ⟨rfl, rfl, rfl, rfl⟩

theorem yields_growTo (s : Fsx σ) (offset size e : Nat) :
    Yields (s.growTo offset size e) (SameLog s) := by
  unfold growTo
  split
  · exact yields_updateFileSize ..
  · exact .of_some (.refl s)

theorem yields_checkBuffers (s : Fsx σ) (buf : Bytes) (offset size : Nat) :
    Yields (s.checkBuffers buf offset size) (SameLog s) := by
  unfold checkBuffers
  refine yields_bind fun _ => yields_bind fun _ => ?_
  split
  · exact .of_some (.refl s)
  · exact (yields_fail ..).imp fun _ h => ⟨h.testcalls, h.log, h.logptr, h.logcount⟩

theorem yields_polluteEofpage (K : Kernel σ) (s : Fsx σ) (maxoff : Nat) :
    Yields (s.polluteEofpage K maxoff) (SameLog s) := by
  unfold polluteEofpage
  simp only []
  split
  · exact .of_some (.refl s)
  split
  · exact .of_some (.refl s)
  split
  · exact .of_some (.refl s)
  split
  · exact .of_some (.refl s)
  · exact yields_bind fun _ => .of_some ⟨rfl, rfl, rfl, rfl⟩

theorem sameLog_checkPastEof (K : Kernel σ) (s : Fsx σ) (base mapSize : Nat) :
    SameLog s (s.checkPastEof K base mapSize) := by
  unfold checkPastEof
  simp only []
  split
  · exact sameLog_fail ..
  · exact .refl s

/-! ## The operations -/

theorem doread_logs (K : Kernel σ) (s : Fsx σ) (offset size : Nat) :
    Yields (s.doread K offset size) (LogsOne s) := by
  unfold doread
  simp only []
  generalize offset - offset % max s.a.readbdy 1 = o
  split
  · exact yields_log5 ..
  refine yields_bind fun e => ?_
  split
  · exact yields_log5 ..
  refine yields_after_log s .read o size s.fileSize false ?_
  split
  · exact yields_fail ..
  · exact yields_checkBuffers ..

theorem dowrite_logs (K : Kernel σ) (s : Fsx σ) (offset size : Nat) :
    Yields (s.dowrite K offset size) (LogsOne s) := by
  unfold dowrite
  simp only []
  generalize offset - offset % max s.a.writebdy 1 = o
  split
  · exact yields_log5 ..
  refine yields_after_log s .write o size s.fileSize false (yields_then (yields_gendata ..) fun s₁ => yields_bind fun e => ?_)
  refine yields_then (yields_growTo ..) fun s₂ => yields_bind fun data => ?_
  split
  · exact yields_fail ..
  · exact .of_some ⟨rfl, rfl, rfl, rfl⟩

theorem domapread_logs (K : Kernel σ) (s : Fsx σ) (offset size : Nat) :
    Yields (s.domapread K offset size) (LogsOne s) := by
  unfold domapread
  simp only []
  generalize offset - offset % max s.a.readbdy 1 = o
  split
  · exact yields_log5 ..
  refine yields_bind fun e => ?_
  split
  · exact yields_log5 ..
  refine yields_after_log s .mapRead o size s.fileSize false ?_
  split
  · exact yields_fail ..
  · refine (yields_checkBuffers ..).imp fun _ h => SameLog.trans ?_ h
    split
    · exact sameLog_checkPastEof ..
    · exact .refl _

theorem domapwrite_logs (K : Kernel σ) (s : Fsx σ) (offset size : Nat) :
    Yields (s.domapwrite K offset size) (LogsOne s) := by
  unfold domapwrite
  simp only []
  generalize offset - offset % max s.a.writebdy 1 = o
  split
  · exact yields_log5 ..
  refine yields_after_log s .mapWrite o size s.fileSize false (yields_then (yields_gendata ..) fun s₁ => yields_bind fun e => ?_)
  refine yields_then (yields_growTo ..) fun s₂ => ?_
  split
  · exact yields_fail ..
  rename_i fd _
  refine Yields.imp (Q := SameLog { s₂ with fd }) ?_ fun _ h => ⟨h.testcalls, h.log, h.logptr, h.logcount⟩
  split
  · exact yields_fail ..
  refine yields_bind fun data => ?_
  split
  · exact (yields_fail ..).imp fun _ h => ⟨h.testcalls, h.log, h.logptr, h.logcount⟩
  · exact .of_some ⟨rfl, rfl, rfl, rfl⟩

theorem dotruncate_logs (K : Kernel σ) (s : Fsx σ) (size : Nat) :
    Yields (s.dotruncate K size) (LogsOne s) := by
  unfold dotruncate
  simp only []
  generalize size - size % max s.a.truncbdy 1 = n
  refine Yields.imp ?_ fun _ => LogsOne.of_same (sameLog_raiseBiggest s n)
  generalize s.raiseBiggest n = s₀
  refine yields_after_log s₀ .truncate 0 n s₀.fileSize false (yields_then ?_ fun s₁ => ?_)
  · split
    · exact yields_polluteEofpage ..
    · exact .of_some (.refl _)
  refine yields_then (yields_updateFileSize ..) fun s₂ => ?_
  split
  · exact yields_fail ..
  · exact .of_some ⟨rfl, rfl, rfl, rfl⟩

theorem doPreallocate_logs (K : Kernel σ) (s : Fsx σ) (offset size : Nat) (keepSize unshare : Bool) :
    Yields (s.doPreallocate K offset size keepSize unshare) (LogsOne s) := by
  unfold doPreallocate
  simp only []
  generalize min offset s.maxfilelen = o
  generalize min size (s.maxfilelen - o) = m
  split
  · exact yields_log5 ..
  refine yields_bind fun e => Yields.imp ?_ fun _ =>
    LogsOne.of_same (sameLog_raiseBiggest s (if keepSize then 0 else e))
  generalize s.raiseBiggest (if keepSize then 0 else e) = s₀
  refine yields_after_log s₀ .fallocate o m s₀.fileSize false (yields_then ?_ fun s₁ => ?_)
  · split
    · exact yields_bind fun buf => (yields_updateFileSize ..).imp fun _ h =>
        ⟨h.testcalls, h.log, h.logptr, h.logcount⟩
    · exact .of_some (.refl _)
  split
  · exact .of_some (.refl _)
  split
  · exact yields_fail ..
  · exact .of_some ⟨rfl, rfl, rfl, rfl⟩

theorem doPunchHole_logs (K : Kernel σ) (s : Fsx σ) (offset length : Nat) :
    Yields (s.doPunchHole K offset length) (LogsOne s) := by
  unfold doPunchHole
  simp only []
  split
  · exact yields_log5 ..
  refine yields_after_log s .punchHole offset length s.fileSize false ?_
  split
  · exact .of_some (.refl _)
  split
  · exact yields_fail ..
  · exact yields_bind fun e => yields_bind fun buf => .of_some ⟨rfl, rfl, rfl, rfl⟩

theorem doZeroRange_logs (K : Kernel σ) (s : Fsx σ) (offset length : Nat) (keepSize : Bool) :
    Yields (s.doZeroRange K offset length keepSize) (LogsOne s) := by
  unfold doZeroRange
  simp only []
  split
  · exact yields_log5 ..
  refine yields_bind fun e => Yields.imp ?_ fun _ =>
    LogsOne.of_same (sameLog_raiseBiggest s (if keepSize then 0 else e))
  generalize s.raiseBiggest (if keepSize then 0 else e) = s₀
  refine yields_after_log s₀ .zeroRange offset length s₀.fileSize false (yields_then ?_ fun s₁ => ?_)
  · split
    · exact .of_some (.refl _)
    · exact yields_growTo ..
  split
  · exact yields_fail ..
  · exact yields_bind fun buf => .of_some ⟨rfl, rfl, rfl, rfl⟩

theorem doWriteZeroes_logs (K : Kernel σ) (s : Fsx σ) (offset length : Nat) :
    Yields (s.doWriteZeroes K offset length) (LogsOne s) := by
  unfold doWriteZeroes
  simp only []
  split
  · exact yields_log5 ..
  refine yields_bind fun e => Yields.imp ?_ fun _ =>
    LogsOne.of_same (sameLog_raiseBiggest s e)
  generalize s.raiseBiggest e = s₀
  refine yields_after_log s₀ .writeZeroes offset length s₀.fileSize false (yields_then (yields_growTo ..) fun s₁ => ?_)
  split
  · exact yields_fail ..
  · exact yields_bind fun buf => .of_some ⟨rfl, rfl, rfl, rfl⟩

theorem doCollapseRange_logs (K : Kernel σ) (s : Fsx σ) (offset length : Nat) :
    Yields (s.doCollapseRange K offset length) (LogsOne s) := by
  unfold doCollapseRange
  simp only []
  split
  · exact yields_log5 ..
  refine yields_bind fun e => ?_
  split
  · exact yields_log5 ..
  refine yields_after_log s .collapseRange offset length s.fileSize false (yields_then (yields_polluteEofpage ..) fun s₁ => ?_)
  split
  · exact yields_fail ..
  · exact yields_bind fun buf => yields_bind fun n => .of_some ⟨rfl, rfl, rfl, rfl⟩

theorem doInsertRange_logs (K : Kernel σ) (s : Fsx σ) (offset length : Nat) :
    Yields (s.doInsertRange K offset length) (LogsOne s) := by
  unfold doInsertRange
  simp only []
  split
  · exact yields_log5 ..
  refine yields_after_log s .insertRange offset length s.fileSize false (yields_then (yields_polluteEofpage ..) fun s₁ => ?_)
  split
  · exact yields_fail ..
  · exact yields_bind fun e => yields_bind fun last => yields_bind fun buf => yields_bind fun buf' =>
      yields_bind fun n => .of_some ⟨rfl, rfl, rfl, rfl⟩

theorem doCloneRange_logs (K : Kernel σ) (s : Fsx σ) (offset length dest : Nat) :
    Yields (s.doCloneRange K offset length dest) (LogsOne s) := by
  unfold doCloneRange
  simp only []
  split
  · exact yields_log5 ..
  refine yields_bind fun e => Yields.imp ?_ fun _ =>
    LogsOne.of_same (sameLog_raiseBiggest s e)
  generalize s.raiseBiggest e = s₀
  refine yields_after_log s₀ .cloneRange offset length dest false (yields_then (yields_growTo ..) fun s₁ => ?_)
  split
  · exact yields_fail ..
  · exact yields_bind fun buf => .of_some ⟨rfl, rfl, rfl, rfl⟩

theorem doCopyRange_logs (K : Kernel σ) (s : Fsx σ) (offset length dest : Nat) :
    Yields (s.doCopyRange K offset length dest) (LogsOne s) := by
  unfold doCopyRange
  simp only []
  split
  · exact yields_log5 ..
  refine yields_bind fun e => Yields.imp ?_ fun _ =>
    LogsOne.of_same (sameLog_raiseBiggest s e)
  generalize s.raiseBiggest e = s₀
  refine yields_after_log s₀ .copyRange offset length dest false (yields_then (yields_growTo ..) fun s₁ => ?_)
  split
  · exact yields_fail ..
  · exact yields_bind fun buf => .of_some ⟨rfl, rfl, rfl, rfl⟩

/-! ## An iteration -/

theorem dispatch_logs (a : Args) (K : Kernel σ) (f0 : Nat) (s : Fsx σ) (c : Call) :
    Yields (dispatch a K f0 s c) (LogsOne s) := by
  unfold dispatch
  split
  case h_1 => exact yields_bind fun r => doread_logs ..
  case h_2 => exact yields_bind fun r => dowrite_logs ..
  case h_3 =>
    refine yields_bind fun r => ?_
    simp only []
    split
    · exact doread_logs ..
    · exact domapread_logs ..
  case h_4 =>
    refine yields_bind fun r => ?_
    simp only []
    split
    · exact dowrite_logs ..
    · exact domapwrite_logs ..
  case h_5 => exact dotruncate_logs ..
  case h_6 => exact yields_bind fun r => doPreallocate_logs ..
  case h_7 => exact yields_bind fun r => doPunchHole_logs ..
  case h_8 => exact yields_bind fun r => doZeroRange_logs ..
  case h_9 => exact yields_bind fun r => doWriteZeroes_logs ..
  case h_10 =>
    refine yields_bind fun r => ?_
    simp only []
    split
    · exact yields_log5 ..
    · exact doCollapseRange_logs ..
  case h_11 =>
    refine yields_bind fun e => yields_bind fun size => ?_
    simp only []
    split
    · exact yields_log5 ..
    refine yields_bind fun grown => ?_
    split
    · exact yields_log5 ..
    · exact doInsertRange_logs ..
  case h_12 =>
    split
    · exact yields_log5 ..
    refine yields_bind fun e => ?_
    split
    · exact yields_log5 ..
    · exact doCloneRange_logs ..
  case h_13 =>
    split
    · exact yields_log5 ..
    refine yields_bind fun e => ?_
    split
    · exact yields_log5 ..
    · exact doCopyRange_logs ..
  case h_14 => exact .of_some (SameLog.refl s).logsOne

theorem checks_sameLog (a : Args) (K : Kernel σ) (s : Fsx σ) : Yields (checks a K s) (SameLog s) := by
  have hsize : ∀ s : Fsx σ, SameLog s (s.checkSize K) := by
    intro s
    unfold checkSize
    split
    · exact sameLog_fail ..
    · simp only []
      split
      · exact sameLog_fail ..
      · exact .refl s
  unfold checks
  split
  · exact .of_some (.refl s)
  refine yields_then ?_ fun s₁ => ?_
  · split
    · unfold checkContents
      split
      · exact .of_some (.refl s)
      split
      · exact yields_fail ..
      · exact yields_checkBuffers ..
    · exact .of_some (.refl s)
  · refine .of_some ?_
    split
    · exact hsize s₁
    · exact .refl s₁

theorem sameLog_rnd (s : Fsx σ) : SameLog s s.rnd.2 := ⟨rfl, rfl, rfl, rfl⟩

theorem destTries_sameLog (maxEnd wbdy src size dst tries : Nat) (s : Fsx σ) :
    Yields (destTries maxEnd wbdy src size dst tries s) fun r => SameLog s r.2.2 := by
  induction tries generalizing s with
  | zero => exact .of_some (.refl s)
  | succ tries ih =>
    unfold destTries
    refine yields_bind fun fits => ?_
    split
    · exact .of_some (sameLog_rnd s)
    · exact (ih _).imp fun r h => (sameLog_rnd s).trans h

theorem genDestRange_sameLog (s : Fsx σ) (b : Bool) (maxEnd src size dst : Nat) :
    Yields (genDestRange s b maxEnd src size dst) fun r => SameLog s r.2.2.2 := by
  unfold genDestRange
  exact yields_bind fun r => (destTries_sameLog ..).bind fun r h => .of_some h

theorem refine_sameLog (a : Args) (s : Fsx σ) (c : Choice) :
    Yields (refine a s c) fun r => SameLog s r.2 := by
  unfold refine
  split
  case h_1 =>
    split
    · exact yields_bind fun size => .of_some (sameLog_rnd s)
    · exact .of_some (.refl s)
  case h_2 =>
    split
    · cases a.noKeepSize <;> exact .of_some ⟨rfl, rfl, rfl, rfl⟩
    · exact .of_some (.refl s)
  case h_3 =>
    split
    · exact .of_some (sameLog_rnd s)
    · exact .of_some (.refl s)
  case h_4 | h_5 => exact (genDestRange_sameLog ..).bind fun r h => .of_some h
  case h_6 => exact .of_some (.refl s)

theorem chooseOp_logs (a : Args) (s : Fsx σ) :
    Yields (chooseOp a s) fun r => SameLog { s with testcalls := s.testcalls + 1 } r.2 := by
  have hclose : ∀ s : Fsx σ, SameLog s (drawCloseopen a s) := by
    intro s
    unfold drawCloseopen
    split <;> exact ⟨rfl, rfl, rfl, rfl⟩
  have hsize : ∀ s : Fsx σ, Yields (drawSize a s) fun r => SameLog s r.2 := by
    intro s
    unfold drawSize
    split
    · exact .of_some (.refl s)
    · exact yields_bind fun m => yields_bind fun size => .of_some (sameLog_rnd s)
  unfold chooseOp
  refine (hsize _).bind fun r h => .of_some ?_
  exact (hclose _).trans ((sameLog_rnd _).trans (h.trans (sameLog_rnd _)))

/-- **An iteration counts one operation** and logs one at most. -/
theorem iteration_logs (a : Args) (K : Kernel σ) (f0 : Nat) (s : Fsx σ) :
    Yields (iteration a K f0 s) (LogsOne { s with testcalls := s.testcalls + 1 }) := by
  unfold iteration performOp
  refine (chooseOp_logs a s).bind fun r h => ?_
  refine (refine_sameLog a r.2 r.1).bind fun r' h' => ?_
  refine Yields.imp ?_ fun s' => LogsOne.of_same (h.trans h')
  simp only []
  split
  · exact yields_log5 ..
  · exact (dispatch_logs a K f0 r'.2 r'.1).bind fun s₁ h₁ =>
      (checks_sameLog a K s₁).imp fun s₂ h₂ => h₁.followed h₂

/-! ## The start of a run -/

/-- No operation was performed yet. -/
structure Fresh (s : Fsx σ) : Prop where
  testcalls : s.testcalls = 0
  failure : s.failure = none
  logptr : s.logptr.1 = 0
  logcount : s.logcount = 0

theorem start_fresh {fd : σ} {pageSize : Nat} {rng : Nat → UInt32} {enabled : Op → Bool} :
    Yields (start a fd pageSize rng enabled) Fresh := by
  unfold start
  exact yields_bind fun _ => yields_bind fun _ => yields_bind fun _ => yields_bind fun _ =>
    yields_bind fun _ => yields_bind fun _ => yields_bind fun _ => yields_bind fun _ =>
    .of_some ⟨rfl, rfl, rfl, rfl⟩

theorem yields_fresh (h : Fresh s) :
    Yields (some (.ok s : Except IoError (Fsx σ))) fun r => ∀ s', r = .ok s' → Fresh s' :=
  .of_some fun _ hs => Except.ok.inj hs ▸ h

theorem enter_fresh {errno : IoError → Int} {f : Features} {p : Platform} {fd : σ} {pageSize : Nat}
    {rng : Nat → UInt32} : Yields (enter K errno a f p fd pageSize rng) fun r =>
      ∀ s, r = .ok s → Fresh s := by
  unfold enter
  split
  · exact .of_some fun s h => by cases h
  refine yields_bind fun r => start_fresh.bind fun s hs => ?_
  split
  · exact yields_bind fun image => yields_fresh ⟨hs.testcalls, hs.failure, hs.logptr, hs.logcount⟩
  split
  · split
    · exact .of_some fun s h => by cases h
    refine yields_bind fun goodBuf => ?_
    split
    · exact .of_some fun s h => by cases h
    split
    · exact .of_some fun s h => by cases h
    split
    · exact yields_fresh ⟨hs.testcalls, hs.failure, hs.logptr, hs.logcount⟩
    · exact yields_fresh ⟨hs.testcalls, hs.failure, hs.logptr, hs.logcount⟩
  · exact yields_fresh ⟨hs.testcalls, hs.failure, hs.logptr, hs.logcount⟩

end Fstest.Fsx
