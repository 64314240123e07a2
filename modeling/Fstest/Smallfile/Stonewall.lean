import Fstest.Smallfile.Naming

/-!
# The stonewall of smallfile

The first thread that is done with its files raises a flag, and the other threads look at it before
every so many files (`filesBetweenChecks`). `doAnotherFile` and `endTest` keep the counters of a thread,
and `opLoop` is the loop that all operations have around their work on one file. The flag of the other
threads is visible to a thread from some moment on, which is given by the number of files that the
thread has done by then.

`opLoop_stops` says where the loop ends: at the first look that finds the flag, or behind the last
file. That is in time exactly if the files are not so large that the interval between two looks wraps
around (`stopsInTime_iff`). The arithmetic on `u32` wraps around here, as in a build without overflow
checks, unlike in the other modules on smallfile; with them, the thread of a large file panics before
its first one.
-/

namespace Fstest.Smallfile

/-- The parameters of a single operation. -/
structure OpParams extends SuiteParams where
  stonewall : Bool
  finishAllRq : Bool
  totalSzKb_lt : totalSzKb < u32Size

/-- What a thread counts. -/
structure Counters where
  filenum : ℕ
  rq : ℕ
  ended : Bool
  filenumFinal : Option ℕ
  rqFinal : Option ℕ
  status : Bool
  deriving DecidableEq, Repr

/-- The counters of `Workload::new`. -/
def Counters.new : Counters := ⟨0, 0, false, none, none, true⟩

namespace OpParams

variable (p : OpParams)

def filesBetweenChecks : ℕ :=
  if 0 < p.totalSzKb then max ((100 + u32Size - p.totalSzKb / 100) % u32Size) 10 else 20

/-- `end_test`, with the stonewall flag. -/
def endTest (c : Counters) (flag : Bool) : Counters × Bool :=
  if c.ended then (c, flag)
  else
    ({ c with rqFinal := some c.rq, filenumFinal := some c.filenum, ended := true },
      flag || decide (p.iterations ≤ c.filenum))

/-- The look at the flag before the next file. -/
def looks (c : Counters) : Bool :=
  p.stonewall && (c.filenum + 1) % u32Size % p.filesBetweenChecks == 0

def doAnotherFile (c : Counters) (flag : Bool) : Bool × Counters × Bool :=
  let (c, flag) := if p.looks c && flag then p.endTest c flag else (c, flag)
  if !p.finishAllRq && c.ended then (false, c, flag)
  else if !c.status then (false, p.endTest c flag)
  else if p.iterations ≤ c.filenum then (false, p.endTest c flag)
  else (true, { c with filenum := c.filenum + 1 }, flag)

/-- The loop of an operation whose files make no errors, with the files that it has done. The work on
file `n` counts `rqs n` requests. The flag of the other threads is seen once `moment` files are
done. -/
def opLoop (moment : ℕ) (rqs : ℕ → ℕ) :
    ℕ → Counters → Bool → List ℕ → Option (List ℕ × Counters × Bool)
  | 0, _, _, _ => none
  | rounds + 1, c, flag, files =>
    match p.doAnotherFile c (flag || decide (moment ≤ c.filenum)) with
    | (false, c, flag) => some (files, c, flag)
    | (true, c, flag) =>
      opLoop moment rqs rounds { c with rq := c.rq + rqs c.filenum } flag (files ++ [c.filenum])

/-- The files that a thread does, and how many its `Outcome` reports. -/
def runThread (moment : ℕ) (rqs : ℕ → ℕ) : Option (List ℕ × ℕ) := do
  let (files, c, flag) ← p.opLoop moment rqs (p.iterations + 1) .new false []
  pure (files, (p.endTest c flag).1.filenumFinal.getD 0)

/-- The thread does consecutive files, no more than 100 of them after the flag becomes visible, and
reports as many as it has done. The file in work at the moment counts as one that comes after it. -/
def StopsInTime : Prop :=
  ∀ moment rqs, ∃ k, p.runThread moment rqs = some (List.range' 1 k, k) ∧ k ≤ moment - 1 + 100

/-! ## Where the loop ends -/

/-- A look that finds the flag. -/
def Stops (moment n : ℕ) : Prop :=
  moment ≤ n ∧ (n + 1) % u32Size % p.filesBetweenChecks = 0

variable {p}

/-- The counters after `n` files. -/
def running (n rq : ℕ) : Counters := ⟨n, rq, false, none, none, true⟩

/-- The counters once the test has ended for the thread. -/
def stopped (n rq : ℕ) : Counters := ⟨n, rq, true, some n, some rq, true⟩

theorem doAnotherFile_stops (hfinish : p.finishAllRq = false) {n rq : ℕ} {flag : Bool}
    (hlook : (p.looks (running n rq) && flag) = true) :
    ∃ flag', p.doAnotherFile (running n rq) flag = (false, stopped n rq, flag') := by
  rw [running] at hlook ⊢
  simp only [doAnotherFile, if_pos hlook, endTest, hfinish]
  exact ⟨_, rfl⟩

theorem doAnotherFile_last {n rq : ℕ} {flag : Bool} (hlook : ¬ (p.looks (running n rq) && flag) = true)
    (hn : p.iterations ≤ n) :
    ∃ flag', p.doAnotherFile (running n rq) flag = (false, stopped n rq, flag') := by
  rw [running] at hlook ⊢
  simp only [doAnotherFile, if_neg hlook, endTest, Bool.and_false, Bool.not_true, Bool.false_eq_true,
    if_false, if_pos hn]
  exact ⟨_, rfl⟩

theorem doAnotherFile_next {n rq : ℕ} {flag : Bool} (hlook : ¬ (p.looks (running n rq) && flag) = true)
    (hn : n < p.iterations) :
    p.doAnotherFile (running n rq) flag = (true, running (n + 1) rq, flag) := by
  rw [running] at hlook ⊢
  simp only [doAnotherFile, if_neg hlook, Bool.and_false, Bool.not_true, Bool.false_eq_true, if_false,
    if_neg (Nat.not_le.mpr hn)]
  rfl

theorem looks_iff (hstone : p.stonewall = true) (n rq moment : ℕ) :
    (p.looks (running n rq) && decide (moment ≤ n)) = true ↔ p.Stops moment n := by
  rw [Bool.and_eq_true, looks, hstone, Bool.true_and, beq_iff_eq, decide_eq_true_iff, and_comm]
  rfl

/-- **The loop ends at the first look that finds the flag**, or behind the last file. -/
theorem opLoop_stops (hstone : p.stonewall = true) (hfinish : p.finishAllRq = false) (moment : ℕ)
    (rqs : ℕ → ℕ) {left n : ℕ} (rq : ℕ) (flag : Bool) (hleft : n + left = p.iterations)
    (hflag : flag = true → moment ≤ n) :
    ∃ k rq' flag', (k = p.iterations ∨ p.Stops moment k) ∧ k ≤ p.iterations ∧
      (∀ j, n ≤ j → j < k → ¬ p.Stops moment j) ∧
      p.opLoop moment rqs (left + 1) (running n rq) flag (List.range' 1 n) =
        some (List.range' 1 k, stopped k rq', flag') := by
  have hseen : (flag || decide (moment ≤ n)) = decide (moment ≤ n) := by
    cases flag with
    | false => rfl
    | true => rw [decide_eq_true (hflag rfl)]; rfl
  induction left generalizing n rq flag with
  | zero =>
    have hdone : ∃ flag', p.doAnotherFile (running n rq) (decide (moment ≤ n)) =
        (false, stopped n rq, flag') := by
      by_cases hstop : p.Stops moment n
      · exact doAnotherFile_stops hfinish ((looks_iff hstone n rq moment).mpr hstop)
      · exact doAnotherFile_last (mt (looks_iff hstone n rq moment).mp hstop) hleft.ge
    obtain ⟨flag', hrun⟩ := hdone
    refine ⟨n, rq, flag', .inl hleft, hleft.le, fun j hj hlt => absurd hlt (Nat.not_lt.mpr hj), ?_⟩
    rw [opLoop, show (running n rq).filenum = n from rfl, hseen, hrun]
  | succ left ih =>
    by_cases hstop : p.Stops moment n
    · obtain ⟨flag', hrun⟩ := doAnotherFile_stops hfinish ((looks_iff hstone n rq moment).mpr hstop)
      refine ⟨n, rq, flag', .inr hstop, by omega, fun j hj hlt => absurd hlt (Nat.not_lt.mpr hj), ?_⟩
      rw [opLoop, show (running n rq).filenum = n from rfl, hseen, hrun]
    · have hrun := doAnotherFile_next (p := p) (mt (looks_iff hstone n rq moment).mp hstop) (by omega)
      have hnext : decide (moment ≤ n) = true → moment ≤ n + 1 := fun h =>
        (of_decide_eq_true h).trans (Nat.le_succ n)
      have hseen' : (decide (moment ≤ n) || decide (moment ≤ n + 1)) = decide (moment ≤ n + 1) := by
        rw [← Bool.decide_or]
        exact decide_eq_decide.mpr ⟨fun h => h.elim (Nat.le_succ_of_le) id, .inr⟩
      obtain ⟨k, rq', flag', hend, hle, hnot, hloop⟩ :=
        ih (n := n + 1) (rq + rqs (n + 1)) _ (by omega) hnext hseen'
      refine ⟨k, rq', flag', hend, hle, fun j hj hlt => ?_, ?_⟩
      · rcases Nat.eq_or_lt_of_le hj with rfl | hj
        · exact hstop
        · exact hnot j hj hlt
      · rw [opLoop, show (running n rq).filenum = n from rfl, hseen, hrun]
        rw [List.range'_1_concat, Nat.add_comm 1 n] at hloop
        exact hloop

/-- A thread does the files up to where its loop ends, and reports that number. -/
theorem runThread_stops (hstone : p.stonewall = true) (hfinish : p.finishAllRq = false) (moment : ℕ)
    (rqs : ℕ → ℕ) : ∃ k, (k = p.iterations ∨ p.Stops moment k) ∧ k ≤ p.iterations ∧
      (∀ j < k, ¬ p.Stops moment j) ∧ p.runThread moment rqs = some (List.range' 1 k, k) := by
  obtain ⟨k, rq', flag', hend, hle, hnot, hloop⟩ :=
    opLoop_stops hstone hfinish moment rqs 0 false (Nat.zero_add _) nofun
  refine ⟨k, hend, hle, fun j => hnot j (Nat.zero_le j), ?_⟩
  rw [runThread]
  exact congrArg (fun r => r >>= _) hloop

/-! ## The interval between two looks -/

theorem filesBetweenChecks_small (h : p.totalSzKb < 10100) :
    0 < p.filesBetweenChecks ∧ p.filesBetweenChecks ≤ 100 := by
  rw [filesBetweenChecks, show u32Size = 4294967296 from rfl]
  split <;> omega

/-- Files of 10100 KB and more make the interval wrap around. -/
theorem filesBetweenChecks_large (h : 10100 ≤ p.totalSzKb) : 2 ^ 31 < p.filesBetweenChecks := by
  have hlt := p.totalSzKb_lt
  rw [show u32Size = 4294967296 from rfl] at hlt
  rw [filesBetweenChecks, show u32Size = 4294967296 from rfl]
  split <;> omega

/-- Among any hundred numbers of files there is one at which the thread looks. -/
theorem exists_stop (h : p.totalSzKb < 10100) (moment k : ℕ) (hk : moment + 100 ≤ k)
    (hlt : k < u32Size) : ∃ j, j < k ∧ p.Stops moment j := by
  obtain ⟨hpos, hle⟩ := filesBetweenChecks_small h
  -- The first multiple of the interval above the moment.
  have hbelow := Nat.div_mul_le_self (moment + p.filesBetweenChecks) p.filesBetweenChecks
  have habove := Nat.lt_div_mul_add hpos (a := moment + p.filesBetweenChecks)
  refine ⟨(moment + p.filesBetweenChecks) / p.filesBetweenChecks * p.filesBetweenChecks - 1, by omega,
    by omega, ?_⟩
  have hfit : (moment + p.filesBetweenChecks) / p.filesBetweenChecks * p.filesBetweenChecks < u32Size := by
    omega
  rw [Nat.sub_add_cancel (by omega), Nat.mod_eq_of_lt hfit, Nat.mul_mod_left]

theorem stopsInTime_of_small (hstone : p.stonewall = true) (hfinish : p.finishAllRq = false)
    (h : p.totalSzKb < 10100) : p.StopsInTime := by
  intro moment rqs
  obtain ⟨k, -, hle, hnot, hrun⟩ := runThread_stops hstone hfinish moment rqs
  refine ⟨k, hrun, Nat.not_lt.mp fun hlate => ?_⟩
  have hlt := p.iterations_lt
  obtain ⟨j, hj, hstop⟩ := exists_stop h moment k (by omega) (by omega)
  exact hnot j hj hstop

theorem stopsInTime_of_few (hstone : p.stonewall = true) (hfinish : p.finishAllRq = false)
    (h : p.iterations ≤ 100) : p.StopsInTime := by
  intro moment rqs
  obtain ⟨k, -, hle, -, hrun⟩ := runThread_stops hstone hfinish moment rqs
  exact ⟨k, hrun, by omega⟩

/-- With a flag that is up from the start, a thread of large files does all its files. -/
theorem not_stopsInTime (hstone : p.stonewall = true) (hfinish : p.finishAllRq = false)
    (hlarge : 10100 ≤ p.totalSzKb) (hmany : 100 < p.iterations) : ¬ p.StopsInTime := by
  intro h
  obtain ⟨k, hend, -, -, hrun⟩ := runThread_stops hstone hfinish 0 fun _ => 0
  obtain ⟨k', hrun', hle⟩ := h 0 fun _ => 0
  rw [hrun, Option.some.injEq, Prod.mk.injEq] at hrun'
  obtain ⟨-, rfl⟩ := hrun'
  rcases hend with rfl | ⟨-, hmod⟩
  · omega
  · have hfbc := filesBetweenChecks_large hlarge
    have hfit : k + 1 < u32Size := Nat.lt_of_le_of_lt (Nat.succ_le_succ hle) (by decide)
    rw [Nat.mod_eq_of_lt hfit, Nat.mod_eq_of_lt (by omega)] at hmod
    cases hmod

/-- **A thread stops in time exactly if its files are below 10100 KB**, or it has no more than 100. -/
theorem stopsInTime_iff (hstone : p.stonewall = true) (hfinish : p.finishAllRq = false) :
    p.StopsInTime ↔ p.totalSzKb < 10100 ∨ p.iterations ≤ 100 := by
  refine ⟨fun h => ?_, fun h => h.elim (stopsInTime_of_small hstone hfinish)
    (stopsInTime_of_few hstone hfinish)⟩
  by_contra hnot
  obtain ⟨hlarge, hmany⟩ := not_or.mp hnot
  exact not_stopsInTime hstone hfinish (Nat.not_lt.mp hlarge) (Nat.not_le.mp hmany) h

/-- A thread with some files of one size, under the stonewall. -/
def walled (files totalSzKb : ℕ) (hfiles : 0 < files) (hlt : files < u32Size)
    (htotal : totalSzKb < u32Size) : OpParams where
  opname := .create
  iterations := files
  threads := 2
  filesPerDir := 100
  filePrefix := ""
  fileSuffix := ""
  hashToDir := false
  isSharedDir := false
  top := ["mnt"]
  host := "host"
  recordSzKb := 0
  totalSzKb := totalSzKb
  filesizeDistr := .fixed
  dirsPerDir := 10
  verifyRead := true
  draws := fun _ _ => 0
  stonewall := true
  finishAllRq := false
  iterations_pos := hfiles
  iterations_lt := hlt
  threads_pos := Nat.two_pos
  filesPerDir_pos := defaultFilesPerDir_pos
  dirsPerDir_pos := defaultDirsPerDir_pos
  recordSzKb_le := .inl (Nat.zero_le _)
  filePrefix_name := defaultAffix_name
  fileSuffix_name := defaultAffix_name
  totalSzKb_lt := htotal

/-- 200 files of 64 KB. -/
theorem default_stopsInTime : (walled 200 64 (by decide) (by decide) (by decide)).StopsInTime :=
  (stopsInTime_iff (p := walled 200 64 (by decide) (by decide) (by decide)) rfl rfl).mpr (.inl (by decide))

/-- 200 files of 10 MB each. -/
theorem large_not_stopsInTime : ¬ (walled 200 10240 (by decide) (by decide) (by decide)).StopsInTime :=
  not_stopsInTime rfl rfl (by decide) (by decide)

end OpParams

end Fstest.Smallfile
