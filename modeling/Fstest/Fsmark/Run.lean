import Fstest.Fsmark.Report

/-!
# The iterations of fsmark

An iteration runs all the threads. A thread finds too little space, or a call of it fails, and only the
latter makes the status `failed`. Either ends the run, so with the status `ok` a run has made all its files
unless its first trouble is a lack of space alone (`ok_means_done_iff`).
-/

namespace Fstest.Fsmark

/-- Why a thread gives up. -/
inductive RunErr where
  | spaceFull (dir : String)
  | io (e : String)
  deriving DecidableEq, Repr

/-- What a thread comes to in an iteration. -/
abbrev Outcome := Except RunErr ThreadTimes

inductive Status where
  | ok
  | failed
  deriving DecidableEq, Repr

structure IterationRow where
  iteration : ℕ
  filesWritten : ℕ
  times : Times
  thread : List Times
  deriving Repr

/-- The variables of `run`, but for the rates. Its report has them all. -/
structure RunState where
  filesWritten : ℕ := 0
  iterationRows : List IterationRow := []
  status : Status := .ok
  fsFull : Bool := false
  loopsDone : ℕ := 0
  deriving Repr

/-- The loop over the results. -/
def RunState.takeResult (x : RunState × List Row) (r : Except RunErr Row) : RunState × List Row :=
  match r with
  | .ok row => (x.1, x.2 ++ [row])
  | .error (.spaceFull _) => ({ x.1 with fsFull := true }, x.2)
  | .error (.io _) => ({ x.1 with status := .failed }, x.2)

/-- What `run` does with the rows of an iteration. -/
def RunState.addRows (p : Params) (st : RunState) (rows : List Row) : RunState :=
  let a := aggregate rows p.threads
  let filesWritten := st.filesWritten + a.fileCount
  let row : IterationRow := {
    iteration := st.loopsDone + 1
    filesWritten
    times := iterationJson a p
    thread := rows.map (rowJson · p) }
  { st with
    filesWritten
    iterationRows := st.iterationRows ++ [row]
    loopsDone := st.loopsDone + 1 }

/-- Whether the loop ends behind an iteration with rows. -/
def RunState.last (p : Params) (st : RunState) : Bool :=
  st.fsFull || decide (st.status = .failed) || !(p.fillFs || decide (st.loopsDone < p.loopCount))

/-- An iteration, and whether another one follows. -/
def Params.iterate (p : Params) (st : RunState) (outcomes : List Outcome) : RunState × Bool :=
  let (st, rows) := (outcomes.map (·.map p.runThread)).foldl RunState.takeResult (st, [])
  if rows.isEmpty then (st, false)
  else
    let st := st.addRows p rows
    (st, !st.last p)

/-- The loop of `run`. The threads of iteration `k` come to `outcomes k`. -/
def Params.runLoop (p : Params) (outcomes : ℕ → List Outcome) : ℕ → RunState → Option RunState
  | 0, _ => none
  | fuel + 1, st =>
    match p.iterate st (outcomes st.loopsDone) with
    | (st, true) => p.runLoop outcomes fuel st
    | (st, false) => some st

/-! ## One iteration -/

/-- All threads have succeeded. -/
def Clean (os : List Outcome) : Prop := ∀ o ∈ os, ∃ t, o = .ok t

/-- A call of some thread has failed. -/
def Broken (os : List Outcome) : Prop := ∃ e, .error (.io e) ∈ os

theorem Clean.not_broken {os : List Outcome} (h : Clean os) : ¬ Broken os := by
  rintro ⟨e, he⟩
  obtain ⟨t, ht⟩ := h _ he
  cases ht

/-- The rows of the threads that have succeeded. -/
def Params.rows (p : Params) (os : List Outcome) : List Row := os.filterMap fun o => (o.map p.runThread).toOption

variable {p : Params} {os : List Outcome} {st : RunState}

theorem foldl_takeResult (p : Params) (os : List Outcome) (st : RunState) (rows : List Row) :
    ∃ st', (os.map (·.map p.runThread)).foldl RunState.takeResult (st, rows) = (st', rows ++ p.rows os) ∧
      st'.filesWritten = st.filesWritten ∧ st'.loopsDone = st.loopsDone ∧
      (st'.status = .ok ↔ st.status = .ok ∧ ¬ Broken os) ∧
      (st'.fsFull = false ↔ st.fsFull = false ∧ ∀ dir, .error (.spaceFull dir) ∉ os) := by
  induction os generalizing st rows with
  | nil => exact ⟨st, by simp [Params.rows], rfl, rfl, by simp [Broken], by simp⟩
  | cons o os ih =>
    rw [List.map_cons, List.foldl_cons]
    cases o with
    | ok t =>
      obtain ⟨st', heq, hfiles, hloops, hstatus, hfull⟩ := ih st (rows ++ [p.runThread t])
      refine ⟨st', ?_, hfiles, hloops, ?_, ?_⟩
      · simpa [Params.rows, Except.map, Except.toOption, RunState.takeResult] using heq
      · simpa [Broken] using hstatus
      · simpa using hfull
    | error e =>
      cases e with
      | spaceFull dir =>
        obtain ⟨st', heq, hfiles, hloops, hstatus, hfull⟩ := ih { st with fsFull := true } rows
        refine ⟨st', ?_, hfiles, hloops, ?_, ?_⟩
        · simpa [Params.rows, Except.map, Except.toOption, RunState.takeResult] using heq
        · simpa [Broken] using hstatus
        · simp only [Bool.true_eq_false, false_and, iff_false] at hfull
          refine ⟨fun h => absurd h hfull, fun h => absurd (List.mem_cons_self ..) (h.2 dir)⟩
      | io e =>
        obtain ⟨st', heq, hfiles, hloops, hstatus, hfull⟩ := ih { st with status := .failed } rows
        refine ⟨st', ?_, hfiles, hloops, ?_, ?_⟩
        · simpa [Params.rows, Except.map, Except.toOption, RunState.takeResult] using heq
        · simp only [reduceCtorEq, false_and, iff_false] at hstatus
          refine ⟨fun h => absurd h hstatus, fun h => absurd ⟨e, List.mem_cons_self ..⟩ h.2⟩
        · simpa using hfull

theorem fileCount_aggregate (p : Params) (os : List Outcome) :
    (aggregate (p.rows os) p.threads).fileCount = (p.rows os).length * p.numFiles := by
  have hrun : ∀ (rows : List Row) (a : Agg), (∀ r ∈ rows, r.fileCount = p.numFiles) →
      (rows.foldl Agg.addRow a).fileCount = a.fileCount + rows.length * p.numFiles := by
    intro rows
    induction rows with
    | nil => intro a _; simp
    | cons r rows ih =>
      intro a h
      have hr : (a.addRow r).fileCount = a.fileCount + p.numFiles := by
        rw [← h r (List.mem_cons_self ..)]
        rfl
      rw [List.foldl_cons, ih _ fun r' hr' => h r' (List.mem_cons_of_mem _ hr'), hr, List.length_cons,
        Nat.add_mul, Nat.one_mul]
      omega
  have hrows : ∀ r ∈ p.rows os, r.fileCount = p.numFiles := by
    intro r hr
    obtain ⟨o, -, ho⟩ := List.mem_filterMap.mp hr
    cases o with
    | error e => cases ho
    | ok t =>
      cases ho
      rfl
  simp only [aggregate, apply_ite Agg.fileCount, ite_self, hrun _ {} hrows, Nat.zero_add]

theorem Params.length_rows_of_clean (p : Params) (h : Clean os) : (p.rows os).length = os.length := by
  induction os with
  | nil => rfl
  | cons o os ih =>
    obtain ⟨t, rfl⟩ := h o (List.mem_cons_self ..)
    rw [List.length_cons, ← ih fun o' ho' => h o' (List.mem_cons_of_mem _ ho')]
    rfl

theorem Params.length_rows_lt (p : Params) (h : ¬ Clean os) : (p.rows os).length < os.length := by
  induction os with
  | nil => exact absurd (fun o ho => absurd ho List.not_mem_nil) h
  | cons o os ih =>
    cases o with
    | ok t =>
      have htail : ¬ Clean os := fun hclean => h fun o ho => by
        rcases List.mem_cons.mp ho with rfl | ho
        · exact ⟨t, rfl⟩
        · exact hclean o ho
      exact Nat.succ_lt_succ (ih htail)
    | error e =>
      exact Nat.lt_succ_of_le (List.length_filterMap_le _ os)

/-- Whether an iteration follows if there is no trouble. -/
def Params.more (p : Params) (loopsDone : ℕ) : Bool := p.fillFs || decide (loopsDone < p.loopCount)

theorem broken_or_full (h : ¬ Clean os) : Broken os ∨ ∃ dir, .error (.spaceFull dir) ∈ os := by
  rw [Clean, not_forall] at h
  obtain ⟨o, ho⟩ := h
  obtain ⟨hmem, hne⟩ := Classical.not_imp.mp ho
  cases o with
  | ok t => exact absurd ⟨t, rfl⟩ hne
  | error e =>
    cases e with
    | io e => exact .inl ⟨e, hmem⟩
    | spaceFull dir => exact .inr ⟨dir, hmem⟩

/-- **An iteration**: what it does to a state without trouble. -/
theorem Params.iterate_spec (p : Params) (hlen : os.length = p.threads) (hok : st.status = .ok)
    (hfull : st.fsFull = false) :
    ∃ st' goes, p.iterate st os = (st', goes) ∧ (st'.status = .ok ↔ ¬ Broken os) ∧
      (Clean os → st'.fsFull = false ∧ st'.loopsDone = st.loopsDone + 1 ∧
        st'.filesWritten = st.filesWritten + p.threads * p.numFiles ∧ goes = p.more (st.loopsDone + 1)) ∧
      (¬ Clean os → st'.filesWritten < st.filesWritten + p.threads * p.numFiles ∧
        st'.loopsDone ≤ st.loopsDone + 1 ∧ goes = false) := by
  obtain ⟨st', hfold, hfiles, hloops, hstatus, hspace⟩ := foldl_takeResult p os st []
  rw [List.nil_append] at hfold
  have hstatus' : st'.status = .ok ↔ ¬ Broken os := by rw [hstatus, hok, eq_self, true_and]
  have hspace' : st'.fsFull = false ↔ ∀ dir, .error (.spaceFull dir) ∉ os := by
    rw [hspace, hfull, eq_self, true_and]
  have hpos : 0 < p.threads * p.numFiles := Nat.mul_pos p.threads_pos p.numFiles_pos
  by_cases hrows : p.rows os = []
  · -- no thread has succeeded
    have hdirty : ¬ Clean os := by
      intro hclean
      have hlength := p.length_rows_of_clean hclean
      rw [hrows, hlen] at hlength
      exact absurd hlength (Nat.ne_of_lt p.threads_pos)
    refine ⟨st', false, ?_, hstatus', fun hclean => absurd hclean hdirty, fun _ => ⟨?_, ?_, rfl⟩⟩
    · simp only [iterate, hfold, hrows, List.isEmpty_nil, if_true]
    · omega
    · omega
  · have hwritten : (st'.addRows p (p.rows os)).filesWritten =
        st.filesWritten + (p.rows os).length * p.numFiles := by
      rw [← hfiles, ← fileCount_aggregate]
      rfl
    have hdone : (st'.addRows p (p.rows os)).loopsDone = st.loopsDone + 1 := by
      rw [← hloops]
      rfl
    refine ⟨st'.addRows p (p.rows os), !(st'.addRows p (p.rows os)).last p, ?_, hstatus', ?_, ?_⟩
    · simp only [iterate, hfold, List.isEmpty_iff, hrows, if_false]
    · intro hclean
      have hnotFull : st'.fsFull = false := hspace'.mpr fun dir hmem => by
        obtain ⟨t, ht⟩ := hclean _ hmem
        cases ht
      refine ⟨hnotFull, hdone, ?_, ?_⟩
      · rw [hwritten, p.length_rows_of_clean hclean, hlen]
      · have hgood : st'.status = .ok := hstatus'.mpr hclean.not_broken
        rw [RunState.last, hdone, Params.more]
        change (!(st'.fsFull || decide (st'.status = .failed) || _)) = _
        rw [hnotFull, hgood]
        simp
    · intro hdirty
      have hshort : (p.rows os).length * p.numFiles < p.threads * p.numFiles :=
        Nat.mul_lt_mul_of_pos_right (hlen ▸ p.length_rows_lt hdirty) p.numFiles_pos
      refine ⟨by omega, hdone.le, ?_⟩
      rw [RunState.last]
      change (!(st'.fsFull || decide (st'.status = .failed) || _)) = false
      rcases broken_or_full hdirty with hbroken | ⟨dir, hdir⟩
      · have hfailed : st'.status = .failed := by
          cases hcase : st'.status with
          | failed => rfl
          | ok => exact absurd hbroken (hstatus'.mp hcase)
        simp [hfailed]
      · have hset : st'.fsFull = true := by
          by_contra hunset
          exact hspace'.mp (Bool.eq_false_iff.mpr hunset) dir hdir
        simp [hset]

/-! ## The loop -/

/-- All the files that the options ask for have been made. -/
def Complete (p : Params) (st : RunState) : Prop :=
  st.loopsDone = max 1 p.loopCount ∧ st.filesWritten = st.loopsDone * p.threads * p.numFiles

/-- In the first iteration with trouble a call has failed. -/
def TroubleShows (p : Params) (outcomes : ℕ → List Outcome) : Prop :=
  ∀ k < max 1 p.loopCount, (∀ j < k, Clean (outcomes j)) → ¬ Clean (outcomes k) → Broken (outcomes k)

/-- The state in front of iteration `k`. -/
structure Going (p : Params) (outcomes : ℕ → List Outcome) (k : ℕ) (st : RunState) : Prop where
  loopsDone : st.loopsDone = k
  filesWritten : st.filesWritten = k * p.threads * p.numFiles
  status : st.status = .ok
  fsFull : st.fsFull = false
  clean : ∀ j < k, Clean (outcomes j)
  lt : k < max 1 p.loopCount

variable {outcomes : ℕ → List Outcome} {k : ℕ}

theorem Going.clean_upto (h : Going p outcomes k st) (hclean : Clean (outcomes k)) :
    ∀ j < k + 1, Clean (outcomes j) := by
  intro j hj
  rcases Nat.lt_succ_iff_lt_or_eq.mp hj with hlt | rfl
  · exact h.clean j hlt
  · exact hclean

/-- The first iteration with trouble decides. -/
theorem Going.troubleShows_iff (h : Going p outcomes k st) (hall : ¬Clean (outcomes k)) :
    TroubleShows p outcomes ↔ Broken (outcomes k) := by
  refine ⟨fun hshows => hshows k h.lt h.clean hall, fun hbroken j _ hbefore hnot => ?_⟩
  rcases Nat.lt_trichotomy j k with hlt | rfl | hgt
  · exact absurd (h.clean j hlt) hnot
  · exact hbroken
  · exact absurd (hbefore k hgt) hall

theorem Going.run (hfill : p.fillFs = false) (hlen : ∀ k, (outcomes k).length = p.threads) {fuel : ℕ}
    (h : Going p outcomes k st) (hfuel : max 1 p.loopCount ≤ k + fuel) :
    ∃ st', p.runLoop outcomes fuel st = some st' ∧
      ((st'.status = .ok → Complete p st') ↔ TroubleShows p outcomes) := by
  induction fuel generalizing k st with
  | zero => exact absurd h.lt (by omega)
  | succ fuel ih =>
    obtain ⟨st', goes, hiter, hstatus, hclean, hdirty⟩ := p.iterate_spec (hlen k) h.status h.fsFull
    rw [← h.loopsDone] at hiter
    rw [Params.runLoop, hiter]
    have hmul : (k + 1) * p.threads * p.numFiles = k * p.threads * p.numFiles + p.threads * p.numFiles := by
      rw [Nat.add_mul, Nat.add_mul, Nat.one_mul]
    by_cases hall : Clean (outcomes k)
    · obtain ⟨hfull, hloops, hfiles, hgoes⟩ := hclean hall
      rw [h.loopsDone] at hloops hgoes
      rw [h.filesWritten, ← hmul] at hfiles
      rw [Params.more, hfill, Bool.false_or] at hgoes
      by_cases hnext : k + 1 < p.loopCount
      · rw [decide_eq_true hnext] at hgoes
        subst hgoes
        exact ih ⟨hloops, hfiles, hstatus.mpr hall.not_broken, hfull, h.clean_upto hall, by omega⟩ (by omega)
      · rw [decide_eq_false hnext] at hgoes
        subst hgoes
        have hlast : k + 1 = max 1 p.loopCount := by
          have hlt := h.lt
          omega
        refine ⟨st', rfl, fun _ j hj _ hnot => absurd (h.clean_upto hall j (hlast ▸ hj)) hnot, fun _ _ => ?_⟩
        exact ⟨hloops.trans hlast, by rw [hfiles, hloops]⟩
    · obtain ⟨hfiles, hloops, rfl⟩ := hdirty hall
      rw [h.filesWritten] at hfiles
      rw [h.loopsDone] at hloops
      refine ⟨st', rfl, ?_⟩
      rw [h.troubleShows_iff hall]
      refine ⟨fun hcomplete => ?_, fun hbroken hok => absurd hbroken (hstatus.mp hok)⟩
      by_contra hquiet
      obtain ⟨hdone, hwritten⟩ := hcomplete (hstatus.mpr hquiet)
      -- the last iteration has to be this one, and it has made too few files
      have hk : st'.loopsDone = k + 1 := by
        have hlt := h.lt
        omega
      rw [hwritten, hk, hmul] at hfiles
      exact lt_irrefl _ hfiles

/-- **A run that reports `ok` has made all its files** if and only if in its first iteration with trouble
some call has failed; a lack of space alone is not counted as a failure. -/
theorem ok_means_done_iff (p : Params) (outcomes : ℕ → List Outcome) (hfill : p.fillFs = false)
    (hlen : ∀ k, (outcomes k).length = p.threads) {fuel : ℕ} (hfuel : max 1 p.loopCount ≤ fuel) :
    ∃ st, p.runLoop outcomes fuel {} = some st ∧
      ((st.status = .ok → Complete p st) ↔ TroubleShows p outcomes) := by
  have hstart : Going p outcomes 0 {} := by
    refine ⟨rfl, ?_, rfl, rfl, fun j hj => absurd hj (Nat.not_lt_zero j), by omega⟩
    rw [Nat.zero_mul, Nat.zero_mul]
  exact hstart.run hfill hlen (by omega)

/-- A run without trouble, of one iteration. -/
theorem ok_means_done_solo :
    ∃ st, (soloParams 1 Nat.one_pos).runLoop (fun _ => [.ok soloTimes]) 1 {} = some st ∧
      st.status = .ok ∧ Complete (soloParams 1 Nat.one_pos) st := by
  have hclean : Clean [.ok soloTimes] := fun o ho => ⟨soloTimes, List.mem_singleton.mp ho⟩
  obtain ⟨st, hrun, hiff⟩ := ok_means_done_iff (soloParams 1 Nat.one_pos) (fun _ => [.ok soloTimes]) rfl
    (fun _ => rfl) (le_refl 1)
  have hok : st.status = .ok := by
    cases hrun
    rfl
  exact ⟨st, hrun, hok, hiff.mpr (fun k _ _ hnot => absurd hclean hnot) hok⟩

/-- The file system is full from the start. -/
theorem ok_without_files :
    ∃ st, (soloParams 1 Nat.one_pos).runLoop (fun _ => [.error (.spaceFull "/mnt")]) 1 {} = some st ∧
      st.status = .ok ∧ st.loopsDone = 0 ∧ st.filesWritten = 0 ∧
      ¬ Complete (soloParams 1 Nat.one_pos) st :=
  ⟨_, rfl, rfl, rfl, rfl, fun h => absurd h.1 (by decide)⟩

end Fstest.Fsmark
