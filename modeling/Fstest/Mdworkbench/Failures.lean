import Fstest.Lib.Attempt
import Fstest.Mdworkbench.WearOut

/-!
# What the error counter of mdworkbench says

Each function of a phase with its early returns, over a pattern that says what becomes of every
operation. Beside the counters of the source, `Progress` keeps the operations that have been tried,
and for how many objects all of them have succeeded. Most failures are counted. The errors that the
source passes on with `?`, in the precreation and of a write in the benchmark, are only logged by the
caller (`failures_reported_iff`).
-/

namespace Fstest.Mdworkbench.Failures

open Stonewall

/-- What becomes of the creation of a data set. -/
inductive Mkdir where
  | made
  | present
  | error
  deriving DecidableEq, Repr

/-- What becomes of opening an object and writing to it. -/
inductive Put where
  | full
  | short
  | writeError
  | openError
  deriving DecidableEq, Repr

/-- What becomes of reading an object. -/
inductive Got where
  | equal
  | differs
  | short
  | openError
  deriving DecidableEq, Repr

/-- What becomes of the removal of an object in the cleanup. -/
inductive Unlink where
  | removed
  | absent
  | error
  deriving DecidableEq, Repr

/-- What becomes of the operations, by the rank and the variables of its loops, and to how many
iterations the stonewall timer lets a rank come. -/
structure Pattern where
  mkdir (rank d : ℕ) : Mkdir
  precreate (rank f d : ℕ) : Put
  stat (it rank f d : ℕ) : Bool
  read (it rank f d : ℕ) : Got
  delete (it rank f d : ℕ) : Bool
  create (it rank f d : ℕ) : Put
  unlink (rank d f : ℕ) : Unlink
  removeDset (rank d : ℕ) : Bool
  rounds (it rank : ℕ) : ℕ

/-- An operation that has been tried. -/
inductive Event where
  | mkdir (o : Mkdir)
  | precreate (o : Put)
  | stat (ok : Bool)
  | read (ok : Bool)
  | delete (ok : Bool)
  | create (o : Put)
  | unlink (o : Unlink)
  | removeDset (ok : Bool)
  deriving DecidableEq, Repr

/-- The operation has failed. A data set may be there before, and an object be gone, and of the
removal of a data set only the attempt counts. -/
def Event.fails : Event → Bool
  | .mkdir o => o == .error
  | .precreate o | .create o => o != .full
  | .stat ok | .read ok | .delete ok => !ok
  | .unlink o => o == .error
  | .removeDset _ => false

/-- The error is passed on to the caller, without being counted. -/
def Event.passedOn : Event → Bool
  | .precreate o => o == .openError || o == .writeError
  | .create o => o == .writeError
  | _ => false

def Event.counted (e : Event) : Bool := e.fails && !e.passedOn

/-- The counters of a rank in a phase, the operations that it has tried, and the number of objects for
which all of them have succeeded. -/
structure Progress where
  stat : PhaseStat := {}
  trace : List Event := []
  done : ℕ := 0

namespace Progress

/-- An operation, and what is counted for it. -/
def tries (s : Progress) (e : Event) (f : PhaseStat → PhaseStat) : Progress :=
  { s with stat := f s.stat, trace := s.trace ++ [e] }

/-- An operation that is counted as an error. -/
def error (s : Progress) (e : Event) : Progress := s.tries e fun c => { c with errors := c.errors + 1 }

/-- An operation that is counted as done, or as an error. -/
def counts (s : Progress) (ok : Bool) (e : Bool → Event) (f : PhaseStat → PhaseStat) : Progress :=
  if ok then s.tries (e true) f else s.error (e false)

def complete (s : Progress) (ok : Bool) : Progress := if ok then { s with done := s.done + 1 } else s

end Progress

/-! ## The phases -/

variable (p : TimerParams) (w : Pattern)

def createDset (rank : ℕ) (s : Progress) (d : ℕ) : Except Progress Progress :=
  match w.mkdir rank d with
  | .made => .ok (s.tries (.mkdir .made) fun c => { c with dsetCreate := c.dsetCreate + 1 })
  | .present => .ok (s.tries (.mkdir .present) id)
  | .error => .error (s.error (.mkdir .error))

def precreateObject (rank : ℕ) (s : Progress) (o : ℕ × ℕ) : Except Progress Progress :=
  match w.precreate rank o.1 o.2 with
  | .openError => .error (s.tries (.precreate .openError) id)
  | .writeError => .error (s.tries (.precreate .writeError) id)
  | .short => .ok (s.error (.precreate .short))
  | .full => .ok ((s.tries (.precreate .full) fun c => { c with objCreate := c.objCreate + 1 }).complete true)

/-- The objects that the loops over `f` and `d` come to. -/
def objects (fs : List ℕ) : List (ℕ × ℕ) := fs.flatMap fun f => (List.range p.dsetCount).map fun d => (f, d)

/-- `run_precreate_rank`. -/
def runPrecreateRank (rank : ℕ) : Except Progress Progress := do
  let s ← (List.range p.dsetCount).foldlM (createDset w rank) {}
  (objects p (List.range' p.startItem (p.precreate - p.startItem))).foldlM (precreateObject w rank) s

/-- Whether a read leads to an error. Nothing is read of empty objects. -/
def readFails : Got → Bool
  | .openError => true
  | .short => decide (0 < p.fileSize)
  | .differs => p.verifyRead && decide (0 < p.fileSize)
  | .equal => false

def benchmarkObject (it rank : ℕ) (s : Progress) (o : ℕ × ℕ) : Except Progress Progress :=
  if !w.stat it rank o.1 o.2 then .ok (s.error (.stat false))
  else
    let s := s.tries (.stat true) fun c => { c with objStat := c.objStat + 1 }
    let readOk := !readFails p (w.read it rank o.1 o.2)
    let s := s.counts readOk .read fun c => { c with objRead := c.objRead + 1 }
    if p.readOnly then .ok (s.complete readOk)
    else
      let deleted := w.delete it rank o.1 o.2
      let s := s.counts deleted .delete fun c => { c with objDelete := c.objDelete + 1 }
      match w.create it rank o.1 o.2 with
      | .openError => .ok (s.error (.create .openError))
      | .writeError => .error (s.tries (.create .writeError) id)
      | .short => .ok (s.error (.create .short))
      | .full =>
        let s := s.tries (.create .full) fun c => { c with objCreate := c.objCreate + 1 }
        .ok (s.complete (readOk && deleted))

/-- The iterations of the loop of a rank: all, or as many as the timer lets it do. -/
def rounds (it rank : ℕ) : ℕ := if p.armed then w.rounds it rank else p.num

/-- `run_benchmark_rank`. -/
def runBenchmarkRank (it rank : ℕ) : Except Progress Progress :=
  (objects p (List.range (rounds p w it rank))).foldlM (benchmarkObject p w it rank) {}

def unlinkObject (rank d : ℕ) (s : Progress) (f : ℕ) : Progress :=
  match w.unlink rank d f with
  | .removed =>
    (s.tries (.unlink .removed) fun c => { c with objDelete := c.objDelete + 1 }).complete true
  | .absent => (s.tries (.unlink .absent) id).complete true
  | .error => s.error (.unlink .error)

def removeDset (rank : ℕ) (s : Progress) (d : ℕ) : Progress :=
  s.tries (.removeDset (w.removeDset rank d)) fun c => { c with dsetDelete := c.dsetDelete + 1 }

/-- `run_cleanup_rank`. -/
def runCleanupRank (rank : ℕ) : Except Progress Progress :=
  .ok ((List.range p.dsetCount).foldl (fun s d =>
    removeDset w rank ((List.range p.precreate).foldl (unlinkObject w rank d) s) d) {})

/-! ## The report -/

/-- A call of a rank to the function of a phase. -/
inductive Call where
  | precreate (rank : ℕ)
  | benchmark (it rank : ℕ)
  | cleanup (rank : ℕ)
  deriving DecidableEq, Repr

def calls : List Call :=
  (if p.phasePrecreate then (List.range p.threads).map .precreate else []) ++
  (if p.phaseBenchmark then
    (List.range p.iterations).flatMap fun it => (List.range p.threads).map (.benchmark it)
  else []) ++
  if p.phaseCleanup then (List.range p.threads).map .cleanup else []

def Call.run : Call → Except Progress Progress
  | .precreate rank => runPrecreateRank p w rank
  | .benchmark it rank => runBenchmarkRank p w it rank
  | .cleanup rank => runCleanupRank p w rank

/-- The number of objects that a call is to go through. -/
def Call.asked : Call → ℕ
  | .precreate _ => (p.precreate - p.startItem) * p.dsetCount
  | .benchmark it rank => rounds p w it rank * p.dsetCount
  | .cleanup _ => p.dsetCount * p.precreate

/-- What the rank pushes for the phase: an error that is passed on is logged and forgotten. -/
def Call.progress (c : Call) : Progress := either (c.run p w)

def totalErrors : ℕ := ((calls p).map fun c => (c.progress p w).stat.errors).sum

inductive Status where
  | ok
  | failed
  deriving DecidableEq, Repr

def status : Status := if 0 < totalErrors p w then .failed else .ok

/-! ## What a call comes to -/

/-- The rank leaves the function. -/
def Event.stops (e : Event) : Bool := e == .mkdir .error || e.passedOn

/-- What the rank tries on an object of the benchmark. -/
def objectEvents (it rank : ℕ) (o : ℕ × ℕ) : List Event :=
  if !w.stat it rank o.1 o.2 then [.stat false]
  else
    [.stat true, .read (!readFails p (w.read it rank o.1 o.2))] ++
      if p.readOnly then [] else [.delete (w.delete it rank o.1 o.2), .create (w.create it rank o.1 o.2)]

/-- The rounds of a loop, up to the first in which the rank leaves the function. -/
def loopEvents {β : Type} (events : β → List Event) (l : List β) : List Event :=
  (tried (fun b => (events b).all fun e => !e.stops) l).flatMap events

/-- The operations that a call comes to, read off the pattern. -/
def Call.comesTo : Call → List Event
  | .precreate rank =>
    loopEvents (fun d => [.mkdir (w.mkdir rank d)]) (List.range p.dsetCount) ++
      if (List.range p.dsetCount).all fun d => !(Event.mkdir (w.mkdir rank d)).stops then
        loopEvents (fun o => [.precreate (w.precreate rank o.1 o.2)])
          (objects p (List.range' p.startItem (p.precreate - p.startItem)))
      else []
  | .benchmark it rank => loopEvents (objectEvents p w it rank) (objects p (List.range (rounds p w it rank)))
  | .cleanup rank =>
    (List.range p.dsetCount).flatMap fun d =>
      (List.range p.precreate).map (fun f => .unlink (w.unlink rank d f)) ++
        [.removeDset (w.removeDset rank d)]

/-! ## What is counted -/

namespace Progress

variable {s : Progress} {e : Event} {f : PhaseStat → PhaseStat} {k : ℕ} {ok : Bool}

/-- None of the operations that have been tried has failed. -/
def Clean (s : Progress) : Prop := ∀ e ∈ s.trace, e.fails = false

/-- The errors are those of the operations that are counted. -/
def Accounts (s : Progress) : Prop := s.stat.errors = s.trace.countP Event.counted

@[simp] theorem clean_tries : (s.tries e f).Clean ↔ s.Clean ∧ e.fails = false := by
  simp [Clean, tries, or_imp, forall_and]

theorem not_clean_error (he : e.counted = true) : ¬ (s.error e).Clean := by
  intro h
  have hfails := (clean_tries.mp h).2
  rw [Event.counted, hfails] at he
  cases he

theorem Accounts.tries (h : s.Accounts) (he : e.counted = false)
    (hf : (f s.stat).errors = s.stat.errors) : (s.tries e f).Accounts := by
  change (f s.stat).errors = (s.trace ++ [e]).countP Event.counted
  rw [hf, h, List.countP_append, List.countP_singleton, he]
  rfl

theorem Accounts.error (h : s.Accounts) (he : e.counted = true) : (s.error e).Accounts := by
  change s.stat.errors + 1 = (s.trace ++ [e]).countP Event.counted
  rw [h, List.countP_append, List.countP_singleton, he]
  rfl

/-- In the midst of an object, after `k` complete ones; `ok` says whether all of its operations have
succeeded so far. -/
def Going (k : ℕ) (ok : Bool) (s : Progress) : Prop :=
  s.Accounts ∧ (s.Clean → ok = true ∧ s.done = k)

theorem Going.tries (h : Going k ok s) (he : e.fails = false) (hf : (f s.stat).errors = s.stat.errors) :
    Going k ok (s.tries e f) :=
  ⟨h.1.tries (by rw [Event.counted, he]; rfl) hf, fun hclean => h.2 (clean_tries.mp hclean).1⟩

theorem Going.error (h : Going k ok s) (he : e.counted = true) : Going k false (s.error e) :=
  ⟨h.1.error he, fun hclean => absurd hclean (not_clean_error he)⟩

theorem Going.counts {e : Bool → Event} (h : Going k ok s) (b : Bool) (htrue : (e true).fails = false)
    (hfalse : (e false).counted = true) (hf : (f s.stat).errors = s.stat.errors) :
    Going k (ok && b) (s.counts b e f) := by
  cases b with
  | true =>
    rw [Bool.and_true]
    exact h.tries htrue hf
  | false =>
    rw [Bool.and_false]
    exact h.error hfalse

end Progress

/-- What is known after a function, or a part of it, that was to complete `k` objects. -/
def Kept (k : ℕ) : Except Progress Progress → Prop
  | .ok s => s.Going k true
  | .error s => s.Accounts ∧ ¬ s.Clean

section

variable {p w} {s : Progress} {e : Event} {k : ℕ} {ok : Bool}

theorem kept_complete (h : s.Going k ok) : Kept (k + 1) (.ok (s.complete ok)) := by
  cases ok with
  | true => exact ⟨h.1, fun hclean => ⟨rfl, congrArg (· + 1) (h.2 hclean).2⟩⟩
  | false => exact ⟨h.1, fun hclean => absurd (h.2 hclean).1 Bool.false_ne_true⟩

theorem kept_error (h : s.Going k ok) (he : e.counted = true) (k' : ℕ) : Kept k' (.ok (s.error e)) :=
  ⟨h.1.error he, fun hclean => absurd hclean (Progress.not_clean_error he)⟩

/-- An error that is passed on is one of the failures. -/
theorem kept_passedOn (h : s.Going k ok) (hfails : e.fails = true) (he : e.passedOn = true) (k' : ℕ) :
    Kept k' (.error (s.tries e id)) := by
  refine ⟨h.1.tries (by rw [Event.counted, he, hfails]; rfl) rfl, fun hclean => ?_⟩
  rw [(Progress.clean_tries.mp hclean).2] at hfails
  cases hfails

theorem createDset_kept (rank d : ℕ) (h : Kept k (.ok s)) : Kept k (createDset w rank s d) := by
  rw [createDset]
  split
  · exact h.tries rfl rfl
  · exact h.tries rfl rfl
  · exact ⟨h.1.error rfl, Progress.not_clean_error rfl⟩

theorem precreateObject_kept (rank : ℕ) (o : ℕ × ℕ) (h : Kept k (.ok s)) :
    Kept (k + 1) (precreateObject w rank s o) := by
  rw [precreateObject]
  split
  · exact kept_passedOn h rfl rfl _
  · exact kept_passedOn h rfl rfl _
  · exact kept_error h rfl _
  · exact kept_complete (h.tries rfl rfl)

/-- **An object of the benchmark**: after its stat it is gone through to the end, or a write fails. -/
theorem benchmarkObject_kept (it rank : ℕ) (o : ℕ × ℕ) (h : Kept k (.ok s)) :
    Kept (k + 1) (benchmarkObject p w it rank s o) := by
  unfold benchmarkObject
  split
  · exact kept_error h rfl _
  · have hstat : (s.tries (.stat true) fun c => { c with objStat := c.objStat + 1 }).Going k true :=
      h.tries rfl rfl
    have hread := hstat.counts (e := .read) (f := fun c => { c with objRead := c.objRead + 1 })
      (!readFails p (w.read it rank o.1 o.2)) rfl rfl rfl
    split
    · exact kept_complete hread
    · have hdelete := hread.counts (e := .delete) (f := fun c => { c with objDelete := c.objDelete + 1 })
        (w.delete it rank o.1 o.2) rfl rfl rfl
      simp only []
      split
      · exact kept_error hdelete rfl _
      · exact kept_passedOn hdelete rfl rfl _
      · exact kept_error hdelete rfl _
      · exact kept_complete (hdelete.tries rfl rfl)

theorem kept_start : Kept 0 (.ok {}) := ⟨rfl, fun _ => ⟨rfl, rfl⟩⟩

theorem kept_error_any {k k' : ℕ} (s : Progress) (h : Kept k (.error s)) : Kept k' (.error s) := h

/-- The loops over the objects, each of which is completed. -/
theorem foldlM_objects_kept {f : Progress → ℕ × ℕ → Except Progress Progress}
    (hstep : ∀ (o : ℕ × ℕ) (k : ℕ) (s : Progress), Kept k (.ok s) → Kept (k + 1) (f s o)) (fs : List ℕ)
    (h : Kept k (.ok s)) : Kept (k + fs.length * p.dsetCount) ((objects p fs).foldlM f s) := by
  have hkept := foldlM_counted (K := Kept) (fun _ => 1) (objects p fs) (fun o _ k s hs => hstep o k s hs)
    (fun _ _ s hs => kept_error_any s hs) h
  have hlen : ((objects p fs).map fun _ => 1).sum = fs.length * p.dsetCount := by
    rw [List.map_const', List.sum_replicate_nat, Nat.mul_one, objects, List.length_flatMap]
    simp only [List.length_map, List.length_range, List.map_const', List.sum_replicate_nat]
  rwa [hlen] at hkept

theorem runPrecreateRank_kept (rank : ℕ) :
    Kept ((p.precreate - p.startItem) * p.dsetCount) (runPrecreateRank p w rank) := by
  have hdsets := foldlM_counted (K := Kept) (fun _ => 0) (List.range p.dsetCount)
    (fun d _ k s hs => createDset_kept (w := w) rank d hs) (fun _ _ s hs => kept_error_any s hs) kept_start
  have hnone : ((List.range p.dsetCount).map fun _ => 0).sum = 0 := by simp
  rw [hnone] at hdsets
  rw [runPrecreateRank]
  cases hrun : (List.range p.dsetCount).foldlM (createDset w rank) {} with
  | error s =>
    rw [hrun] at hdsets
    exact hdsets
  | ok s =>
    rw [hrun] at hdsets
    have hobjects := foldlM_objects_kept (p := p) (fun o k s hs => precreateObject_kept (w := w) rank o hs)
      (List.range' p.startItem (p.precreate - p.startItem)) hdsets
    rw [List.length_range', Nat.zero_add] at hobjects
    exact hobjects

theorem runBenchmarkRank_kept (it rank : ℕ) :
    Kept (rounds p w it rank * p.dsetCount) (runBenchmarkRank p w it rank) := by
  have hobjects := foldlM_objects_kept (p := p)
    (fun o k s hs => benchmarkObject_kept (p := p) (w := w) it rank o hs)
    (List.range (rounds p w it rank)) kept_start
  rw [List.length_range, Nat.zero_add] at hobjects
  exact hobjects

theorem unlinkObject_kept (rank d f : ℕ) (h : Kept k (.ok s)) :
    Kept (k + 1) (.ok (unlinkObject w rank d s f)) := by
  rw [unlinkObject]
  split
  · exact kept_complete (h.tries rfl rfl)
  · exact kept_complete (h.tries rfl rfl)
  · exact kept_error h rfl _

theorem runCleanupRank_kept (rank : ℕ) :
    Kept (p.dsetCount * p.precreate) (runCleanupRank p w rank) := by
  have hunlinks : ∀ d (fs : List ℕ) k s, Kept k (.ok s) →
      Kept (k + fs.length) (.ok (fs.foldl (unlinkObject w rank d) s)) := by
    intro d fs
    induction fs with
    | nil => exact fun k s h => h
    | cons f fs ih =>
      intro k s h
      have hrest := ih _ _ (unlinkObject_kept (w := w) rank d f h)
      rwa [Nat.add_assoc, Nat.add_comm 1] at hrest
  have hdsets : ∀ (ds : List ℕ) k s, Kept k (.ok s) →
      Kept (k + ds.length * p.precreate) (.ok (ds.foldl (fun s d =>
        removeDset w rank ((List.range p.precreate).foldl (unlinkObject w rank d) s) d) s)) := by
    intro ds
    induction ds with
    | nil =>
      intro k s h
      rwa [List.length_nil, Nat.zero_mul, Nat.add_zero]
    | cons d ds ih =>
      intro k s h
      have hobjects := hunlinks d (List.range p.precreate) k s h
      have hrest := ih _ (removeDset w rank ((List.range p.precreate).foldl (unlinkObject w rank d) s) d)
        (Progress.Going.tries hobjects rfl rfl)
      rwa [List.length_range, Nat.add_assoc, Nat.add_comm p.precreate, ← Nat.succ_mul] at hrest
  have hrun := hdsets (List.range p.dsetCount) 0 {} kept_start
  rwa [List.length_range, Nat.zero_add] at hrun

/-- **What is known after each call.** -/
theorem run_kept (c : Call) : Kept (c.asked p w) (c.run p w) := by
  cases c with
  | precreate rank => exact runPrecreateRank_kept rank
  | benchmark it rank => exact runBenchmarkRank_kept it rank
  | cleanup rank => exact runCleanupRank_kept rank

theorem errors_eq (c : Call) :
    (c.progress p w).stat.errors = (c.progress p w).trace.countP Event.counted := by
  have h := run_kept (p := p) (w := w) c
  rw [Call.progress]
  cases hrun : c.run p w with
  | ok s | error s =>
    rw [hrun] at h
    exact h.1

/-- **A call without a failure completes all objects.** -/
theorem done_of_clean (c : Call) (h : (c.progress p w).Clean) : (c.progress p w).done = c.asked p w := by
  have hkept := run_kept (p := p) (w := w) c
  rw [Call.progress] at h ⊢
  cases hrun : c.run p w with
  | ok s =>
    rw [hrun] at hkept h
    exact (hkept.2 h).2
  | error s =>
    rw [hrun] at hkept h
    exact absurd h hkept.2

end

/-! ## What is tried -/

theorem foldlM_trace {β : Type} {f : Progress → β → Except Progress Progress} {events : β → List Event}
    (h : ∀ s b, (either (f s b)).trace = s.trace ++ events b ∧
      (f s b).isOk = (events b).all fun e => !e.stops) (l : List β) (s : Progress) :
    (either (l.foldlM f s)).trace = s.trace ++ loopEvents events l ∧
      (l.foldlM f s).isOk = l.all fun b => (events b).all fun e => !e.stops :=
  foldlM_tried (fun s b => (h s b).1) (fun s b => (h s b).2) l s

section

variable (s : Progress) (rank : ℕ)

theorem createDset_trace (d : ℕ) :
    (either (createDset w rank s d)).trace = s.trace ++ [.mkdir (w.mkdir rank d)] ∧
      (createDset w rank s d).isOk = [Event.mkdir (w.mkdir rank d)].all fun e => !e.stops := by
  rw [createDset]
  cases w.mkdir rank d <;> exact ⟨rfl, rfl⟩

theorem precreateObject_trace (o : ℕ × ℕ) :
    (either (precreateObject w rank s o)).trace = s.trace ++ [.precreate (w.precreate rank o.1 o.2)] ∧
      (precreateObject w rank s o).isOk =
        [Event.precreate (w.precreate rank o.1 o.2)].all fun e => !e.stops := by
  rw [precreateObject]
  cases w.precreate rank o.1 o.2 <;> exact ⟨rfl, rfl⟩

@[simp] theorem Progress.complete_trace (ok : Bool) : (s.complete ok).trace = s.trace := by
  cases ok <;> rfl

@[simp] theorem Progress.counts_trace (ok : Bool) (e : Bool → Event) (f : PhaseStat → PhaseStat) :
    (s.counts ok e f).trace = s.trace ++ [e ok] := by
  cases ok <;> rfl

theorem benchmarkObject_trace (it : ℕ) (o : ℕ × ℕ) :
    (either (benchmarkObject p w it rank s o)).trace = s.trace ++ objectEvents p w it rank o ∧
      (benchmarkObject p w it rank s o).isOk = (objectEvents p w it rank o).all fun e => !e.stops := by
  rw [benchmarkObject, objectEvents]
  split
  · exact ⟨rfl, rfl⟩
  · split
    · simp [either, Progress.tries, Except.isOk, Except.toBool, Event.stops, Event.passedOn]
    · cases w.create it rank o.1 o.2 <;>
        simp [either, Progress.tries, Progress.error, Except.isOk, Except.toBool, Event.stops, Event.passedOn]

theorem unlinkObject_trace (d f : ℕ) :
    (unlinkObject w rank d s f).trace = s.trace ++ [.unlink (w.unlink rank d f)] := by
  rw [unlinkObject]
  cases w.unlink rank d f <;> rfl

end

theorem foldl_trace {β : Type} {f : Progress → β → Progress} {events : β → List Event}
    (h : ∀ s b, (f s b).trace = s.trace ++ events b) (l : List β) (s : Progress) :
    (l.foldl f s).trace = s.trace ++ l.flatMap events := by
  induction l generalizing s with
  | nil => exact (List.append_nil _).symm
  | cons b l ih => rw [List.foldl_cons, ih, h, List.flatMap_cons, List.append_assoc]

theorem runPrecreateRank_trace (rank : ℕ) :
    (either (runPrecreateRank p w rank)).trace = (Call.precreate rank).comesTo p w := by
  obtain ⟨hdsets, hok⟩ := foldlM_trace (fun s d => createDset_trace w s rank d) (List.range p.dsetCount) {}
  rw [Call.comesTo, runPrecreateRank]
  cases hrun : (List.range p.dsetCount).foldlM (createDset w rank) {} with
  | error s =>
    rw [hrun] at hdsets hok
    rw [if_neg (by simpa [Except.isOk, Except.toBool] using hok), List.append_nil]
    exact hdsets
  | ok s =>
    rw [hrun] at hdsets hok
    rw [if_pos (by simpa [Except.isOk, Except.toBool] using hok)]
    have hobjects := (foldlM_trace (fun s o => precreateObject_trace w s rank o)
      (objects p (List.range' p.startItem (p.precreate - p.startItem))) s).1
    change (either (List.foldlM _ s _)).trace = _
    rw [hobjects]
    exact congrArg (· ++ _) hdsets

theorem runCleanupRank_trace (rank : ℕ) :
    (either (runCleanupRank p w rank)).trace = (Call.cleanup rank).comesTo p w := by
  refine foldl_trace (fun s d => ?_) (List.range p.dsetCount) {}
  change ((List.range p.precreate).foldl (unlinkObject w rank d) s).trace ++ _ = _
  rw [foldl_trace (fun s f => unlinkObject_trace w s rank d f), List.append_assoc, List.map_eq_flatMap]

/-- **The trace of a call is what it comes to by the pattern.** -/
theorem trace_eq (c : Call) : (c.progress p w).trace = c.comesTo p w := by
  cases c with
  | precreate rank => exact runPrecreateRank_trace p w rank
  | benchmark it rank =>
    exact (foldlM_trace (fun s o => benchmarkObject_trace p w s rank it o)
      (objects p (List.range (rounds p w it rank))) {}).1
  | cleanup rank => exact runCleanupRank_trace p w rank

/-! ## The verdict -/

/-- The report tells of every failure: without an error in it, no operation has failed, and every rank has
completed all objects of every phase. -/
def FailuresReported : Prop :=
  status p w = .ok → totalErrors p w = 0 →
    ∀ c ∈ calls p, (∀ e ∈ (c.progress p w).trace, e.fails = false) ∧ (c.progress p w).done = c.asked p w

/-- **When every failure is reported**: if no rank comes to an error that is passed on, or some rank comes
to one that is counted. -/
theorem failures_reported_iff (p : TimerParams) (w : Pattern) :
    FailuresReported p w ↔
      (∀ c ∈ calls p, ∀ e ∈ c.comesTo p w, e.passedOn = false) ∨
      ∃ c ∈ calls p, ∃ e ∈ c.comesTo p w, e.counted = true := by
  simp only [← trace_eq]
  have hzero : totalErrors p w = 0 ↔ ¬ ∃ c ∈ calls p, ∃ e ∈ (c.progress p w).trace, e.counted = true := by
    rw [totalErrors, List.sum_eq_zero_iff]
    simp only [List.mem_map, forall_exists_index, and_imp, forall_apply_eq_imp_iff₂, errors_eq,
      List.countP_eq_zero, not_exists, not_and]
  have hok : status p w = .ok ↔ totalErrors p w = 0 := by
    rw [status]
    split
    · rename_i hpos
      exact iff_of_false (fun h => by cases h) hpos.ne'
    · rename_i hle
      exact iff_of_true rfl (by omega)
  constructor
  · intro h
    by_cases hcounted : ∃ c ∈ calls p, ∃ e ∈ (c.progress p w).trace, e.counted = true
    · exact .inr hcounted
    · refine .inl fun c hc e he => ?_
      have hnone := hzero.mpr hcounted
      have hfails := (h (hok.mpr hnone) hnone c hc).1 e he
      revert hfails
      cases e with
      | precreate o | create o => cases o <;> decide
      | mkdir o | stat o | read o | delete o | unlink o | removeDset o => exact fun _ => rfl
  · rintro (hnone | hcounted) _ hzero' c hc
    · have hclean : (c.progress p w).Clean := by
        intro e he
        have hcount : e.counted = false := by
          by_contra hcount
          exact hzero.mp hzero' ⟨c, hc, e, he, (Bool.not_eq_false _).mp hcount⟩
        rw [Event.counted, hnone c hc e he, Bool.not_false, Bool.and_true] at hcount
        exact hcount
      exact ⟨hclean, done_of_clean c hclean⟩
    · exact absurd hcounted (hzero.mp hzero')

/-- All operations succeed, except the write to the first object of rank 0. -/
def firstWriteFails : Pattern where
  mkdir _ _ := .made
  precreate rank f _ := if rank = 0 ∧ f = 0 then .writeError else .full
  stat _ _ _ _ := true
  read _ _ _ _ := .equal
  delete _ _ _ _ := true
  create _ _ _ _ := .full
  unlink _ _ _ := .removed
  removeDset _ _ := true
  rounds _ _ := 3

/-- **The precreation of a rank ends at its first object, and the report is without an error.** -/
theorem write_error_unreported :
    status { twoRanks with phaseBenchmark := false, phaseCleanup := false } firstWriteFails = .ok ∧
    ((Call.precreate 0).progress { twoRanks with phaseBenchmark := false, phaseCleanup := false }
      firstWriteFails).done = 0 ∧
    ¬ FailuresReported { twoRanks with phaseBenchmark := false, phaseCleanup := false } firstWriteFails := by
  refine ⟨by decide, by decide, fun h => ?_⟩
  have hdone := (h (by decide) (by decide) (.precreate 0) (by decide)).2
  revert hdone
  decide

end Fstest.Mdworkbench.Failures
