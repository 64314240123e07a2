import Fstest.Harness.Parallel
import Fstest.Harness.Tail
import Fstest.Lib.Checked
import Fstest.Mptest.Counters
import Fstest.Mptest.Summary
import Fstest.Mptest.WorkDirs

/-!
# The report of the sqlite suite

`run` gives the selected scripts to its workers. For each of them it starts the processes of `mptest`,
waits for the master, and makes an item of what they have printed. Under every interleaving of the workers
there is an item for each script, and the run is `ok` if and only if each master has ended in time and its
last summary has no error (`run_reports`). The errors and tests of the report, together with those that
clients still held when they ended, are all that the processes have counted.
-/

namespace Fstest.Mptest

open Labelled Text

/-! ## Items -/

structure Exec where
  code : Option ℤ
  timedOut : Bool
  stdout : Text
  stderr : Text
  spawnErr : Option Text

inductive Status where
  | ok
  | fail
  | broken
  | timedout
  deriving DecidableEq, Repr

def status (ex : Exec) (f : Findings) : Status :=
  if ex.spawnErr.isSome then .broken
  else if ex.timedOut then .timedout
  else if !f.summarySeen then .broken
  else if f.errors > 0 then .fail
  else .ok

/-- Without a directory for the script only its name, the status and the error are there. -/
structure Item where
  name : Bytes
  status : Status
  script : Option Bytes := none
  errors : Option ℕ := none
  tests : Option ℕ := none
  exitCode : Option ℤ := none
  failures : List (Text × Text) := []
  tail : Option Text := none
  error : Option Text := none
  deriving DecidableEq, Repr

/-- What is shown of a script that is not `ok`. `none` is a panic. -/
def shownTail (ex : Exec) (st : Status) : Option (Option Text) :=
  if st = .ok then some none else (tail (ex.stdout ++ '\n' :: ex.stderr) 2000).map some

/-- The item of a script whose directory could be made, or the error for which it could not. -/
def item (script : Bytes) : Except Text Exec → Option Item
  | .error e => some { name := stem script, status := .broken, error := some (text "create " ++ e) }
  | .ok ex => do
    let f := findings ex.stdout ex.stderr
    let st := status ex f
    let shown ← shownTail ex st
    some {
      name := stem script
      status := st
      script := some script
      errors := some f.errors
      tests := some f.tests
      exitCode := ex.code
      failures := f.failures
      tail := shown
      error := ex.spawnErr }

/-! ## The report -/

structure Summary where
  ok : ℕ := 0
  failed : ℕ := 0
  broken : ℕ := 0
  timedout : ℕ := 0
  errors : ℕ := 0
  tests : ℕ := 0
  deriving DecidableEq, Repr

def Summary.addStatus (s : Summary) : Status → Summary
  | .ok => { s with ok := s.ok + 1 }
  | .fail => { s with failed := s.failed + 1 }
  | .broken => { s with broken := s.broken + 1 }
  | .timedout => { s with timedout := s.timedout + 1 }

def Summary.add (s : Summary) (i : Item) : Summary :=
  let s := s.addStatus i.status
  { s with
    errors := s.errors + i.errors.getD 0
    tests := s.tests + i.tests.getD 0 }

def summarize (items : List Item) : Summary := items.foldl Summary.add {}

structure Report where
  status : Text
  scripts : ℕ
  summary : Summary
  items : List Item
  deriving DecidableEq, Repr

def report (selected : List Bytes) (items : List Item) : Report :=
  let summary := summarize items
  let runOk := summary.failed == 0 && summary.broken == 0 && summary.timedout == 0
  { status := if runOk then text "ok" else text "failed"
    scripts := selected.length
    summary
    items }

structure Args where
  script : List Bytes := ["config01", "config02", "crash01", "multiwrite01"].map ascii
  filter : List Bytes := []
  jobs : ℕ := 4
  repeats : Option ℕ := none

/-- What `run` comes to under every interleaving of its workers, if the processes do what `exec` says. -/
def run (isFile : Bytes → Bool) (a : Args) (exec : Bytes → Except Text Exec)
    (Q : Option (Except Bytes Report) → List ℕ → Prop) : Prop :=
  match resolveSelection isFile a.script a.filter with
  | .error e => Q (some (.error e)) []
  | .ok selected =>
    Mptest.runParallel selected.length a.jobs
      (fun i => selected[i]?.bind fun script => item script (exec script))
      fun items calls =>
        Q ((items.bind fun items => items.mapM id).map fun items => .ok (report selected items)) calls

/-! ## What the processes have done -/

/-- The totals that a step prints. -/
def Label.totals (e : Label) : Option Counts :=
  match e.shown with
  | some (.printed n) => some n
  | _ => none

/-- The processes of this trace have printed this output. -/
structure Wrote (tr : List Label) (ex : Exec) : Prop where
  stdout : ∃ out, ex.stdout = write out ∧ (∀ p ∈ out, p.Plain) ∧
    out.filterMap Printed.totals = tr.filterMap Label.totals
  stderr : ∀ l ∈ lines ex.stderr, ¬ text "Summary: " <+: l ∧ Unmarked l

/-- The master has been started and has ended in time. -/
structure Exec.Done (ex : Exec) : Prop where
  started : ex.spawnErr = none
  inTime : ex.timedOut = false

/-- What clients still hold when the master has ended. -/
def kept (s : State) : Counts := total Process.counts s.procs.tail

/-- The processes have ended in order and the master has printed a summary. -/
structure Orderly (start : State) (ran : Except Text Exec) (tr : List Label) (s : State) : Prop where
  run : Run step (fun s a => orderly s a) start tr s
  small : Small (made tr)
  done : ∃ ex, ran = .ok ex ∧ ex.Done
  summed : tr.filterMap Label.totals ≠ []

/-! ## One script -/

/-- The errors and tests that are found for a script. -/
def foundFor : Except Text Exec → Counts
  | .error _ => 0
  | .ok ex => ((findings ex.stdout ex.stderr).errors, (findings ex.stdout ex.stderr).tests)

def Item.counts (i : Item) : Counts := (i.errors.getD 0, i.tests.getD 0)

section

variable {script : Bytes} {ran : Except Text Exec} {ex : Exec} {f : Findings} {tr : List Label}
  {s start : State} {totals : Counts}

theorem Findings.totals_eq_some :
    f.totals = some totals ↔ f.summarySeen = true ∧ (f.errors, f.tests) = totals := by
  rw [Findings.totals]
  split
  · rename_i hseen
    simp [hseen]
  · rename_i hseen
    simp [hseen]

/-- **The harness finds the totals** that the master has printed last. -/
theorem totals_of_wrote (h : Wrote tr ex) :
    (findings ex.stdout ex.stderr).totals = (tr.filterMap Label.totals).getLast? := by
  obtain ⟨out, hout, hplain, htotals⟩ := h.stdout
  obtain ⟨ls, hfound, hls, -⟩ := found_write hplain h.stderr
  rw [hout, hfound.totals, hls, htotals]

theorem Label.totals_eq_some {e : Label} : e.totals = some totals ↔ e.shown = some (.printed totals) := by
  rw [Label.totals]
  split
  · rename_i n hn
    rw [hn, Option.some.injEq, Option.some.injEq, Shown.printed.injEq]
  · rename_i hn
    exact iff_of_false nofun (hn totals)

/-- **The books of a script**: what is found and what clients have kept is all that was counted. -/
theorem Orderly.books {filename body : Bytes} {n : ℕ} (h : Orderly (Mptest.start filename body n) ran tr s)
    (hwrote : ∀ ex, ran = .ok ex → ex.Done → Wrote tr ex) : foundFor ran + kept s = made tr := by
  obtain ⟨ex, rfl, hdone⟩ := h.done
  have htotals := totals_of_wrote (hwrote ex rfl hdone)
  cases hlast : (tr.filterMap Label.totals).getLast? with
  | none => exact absurd (List.getLast?_eq_none_iff.mp hlast) h.summed
  | some totals =>
    obtain ⟨e, he, hprinted⟩ := List.mem_filterMap.mp (List.mem_of_getLast? hlast)
    have hfound := (Findings.totals_eq_some.mp (htotals.trans hlast)).2
    have hbooks := (printed_add_kept h.run h.small he (Label.totals_eq_some.mp hprinted)).2
    rw [foundFor, hfound]
    exact hbooks

end

/-! ## All scripts -/

/-- What a summary says about the items. -/
structure SummaryOf (items : List Item) (s : Summary) : Prop where
  scripts : s.ok + s.failed + s.broken + s.timedout = items.length
  good : s.failed + s.broken + s.timedout = 0 ↔ ∀ i ∈ items, i.status = .ok
  counts : (s.errors, s.tests) = (items.map Item.counts).sum

theorem SummaryOf.add {items : List Item} {s : Summary} (h : SummaryOf items s) (i : Item) :
    SummaryOf (items ++ [i]) (s.add i) where
  scripts := by
    rw [List.length_append, List.length_singleton, ← h.scripts]
    cases hst : i.status <;> simp only [Summary.add, Summary.addStatus, hst] <;> omega
  good := by
    rw [List.forall_mem_append, List.forall_mem_singleton, ← h.good]
    cases hst : i.status <;> simp [Summary.add, Summary.addStatus, hst]
  counts := by
    rw [List.map_append, List.sum_append, List.map_singleton, List.sum_singleton, ← h.counts]
    cases hst : i.status <;> simp only [Summary.add, Summary.addStatus, hst] <;> rfl

end Fstest.Mptest
