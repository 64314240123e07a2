import Fstest.Pjdfstest.Verdict

/-!
# The counters of pjdfstest

Each result line is counted as a test, and as passed or failed (`readLine_balanced`). The results
that a script has declared and not printed are added to the failed ones alone, so the counters of
a script that stops early do not add up, and the number of all that have passed, a difference of two
sums, can be below zero (`consistent_iff`).
-/

namespace Fstest.Pjdfstest

open Text

/-- The counters of the report add up. -/
structure Report.Consistent (r : Report) : Prop where
  files : ∀ f ∈ r.files, f.passed + f.failed = f.tests ∧ f.failed ≤ f.tests
  totals : r.passed + r.failed = r.tests
  /-- Nothing is taken from less. -/
  failed_le : r.failed ≤ r.tests

/-! ## What a file leads to -/

def Outcome.results : Outcome → ℕ
  | .ran stdout _ _ => (printed stdout).results
  | _ => 1

def Outcome.failing : Outcome → ℕ
  | .ran stdout _ _ => (printed stdout).failing
  | _ => 1

/-- The file has ended by itself with fewer results than planned, none of which fails. -/
def Outcome.StopsShort : Outcome → Prop
  | .ran stdout _ timedOut => timedOut = false ∧ (printed stdout).failing = 0 ∧
    ∃ n, (printed stdout).plan = some n ∧ (printed stdout).results < n
  | _ => False

/-- **A line that is counted is counted twice**: as a test, and as passed or failed. -/
theorem readLine_balanced {s : FileResult × Option ℕ} (line : Text)
    (h : s.1.passed + s.1.failed = s.1.tests) :
    (readLine s line).1.passed + (readLine s line).1.failed = (readLine s line).1.tests := by
  obtain ⟨r, plan⟩ := s
  have h : r.passed + r.failed = r.tests := h
  rw [readLine]
  simp only []
  split
  · split <;> exact h
  split
  · exact h
  split
  · exact h
  -- A result.
  split
  · change r.passed + 1 + r.failed = r.tests + 1
    omega
  split
  · change r.passed + 1 + r.failed = r.tests + 1
    omega
  · change r.passed + (r.failed + 1) = r.tests + 1
    omega

theorem foldl_balanced (ls : List Text) {s : FileResult × Option ℕ}
    (h : s.1.passed + s.1.failed = s.1.tests) :
    (ls.foldl readLine s).1.passed + (ls.foldl readLine s).1.failed = (ls.foldl readLine s).1.tests := by
  induction ls generalizing s with
  | nil => exact h
  | cons line ls ih => exact ih (readLine_balanced line h)

theorem checkPlan_counts (r : FileResult) (plan : Option ℕ) :
    (checkPlan r plan).tests = r.tests ∧ (checkPlan r plan).passed = r.passed := by
  cases plan with
  | none => exact ⟨rfl, rfl⟩
  | some n =>
    rw [checkPlan]
    split <;> exact ⟨rfl, rfl⟩

/-- **The counters of a file.** Passed and failing results are all results. -/
theorem runOne_counts (timeout : ℕ) (name : Text) (o : Outcome) :
    (runOne timeout name o).tests = o.results ∧
    (runOne timeout name o).passed + o.failing = o.results := by
  cases o with
  | noScratch e => exact ⟨rfl, rfl⟩
  | noShell e => exact ⟨rfl, rfl⟩
  | ran stdout exitCode timedOut =>
    have hreads := foldl_reads (lines stdout)
      ({ name, exitCode := if timedOut then none else exitCode, timedOut }, none)
    have hbalanced := foldl_balanced (lines stdout)
      (s := ({ name, exitCode := if timedOut then none else exitCode, timedOut }, none)) rfl
    simp only [runOne, Outcome.results, Outcome.failing]
    generalize (lines stdout).foldl readLine _ = s at hreads hbalanced ⊢
    obtain ⟨r, plan⟩ := s
    have htests : r.tests = (printed stdout).results := hreads.tests.trans (Nat.zero_add _)
    have hfailed : r.failed = (printed stdout).failing := hreads.failed.trans (Nat.zero_add _)
    have hbalanced : r.passed + r.failed = r.tests := hbalanced
    obtain ⟨hplanTests, hplanPassed⟩ := checkPlan_counts r plan
    rw [htests] at hplanTests
    rw [hfailed, htests] at hbalanced
    split
    · exact ⟨hplanTests, by rw [← hbalanced, ← hplanPassed]⟩
    · exact ⟨hplanTests, by rw [← hbalanced, ← hplanPassed]⟩

/-- A script that stops short has failed for more than its results. -/
theorem Outcome.faults_eq_failing_iff (o : Outcome) : o.faults = o.failing ↔ ¬ o.StopsShort := by
  cases o with
  | noScratch e | noShell e => exact iff_of_true rfl id
  | ran stdout exitCode timedOut =>
    simp only [Outcome.faults, Outcome.failing, Outcome.StopsShort]
    cases hplan : (printed stdout).plan with
    | none => simp
    | some n =>
      simp only [Option.getD_some, Option.some.injEq, exists_eq_left']
      by_cases hended : (printed stdout).failing = 0 ∧ timedOut = false
      · rw [if_pos hended, hended.1]
        constructor
        · rintro hsum ⟨-, -, hlt⟩
          omega
        · intro hshort
          have hge : ¬ (printed stdout).results < n := fun hlt => hshort ⟨hended.2, rfl, hlt⟩
          omega
      · rw [if_neg hended]
        exact iff_of_true (Nat.add_zero _) fun h => hended ⟨h.2.1, h.1⟩

section

variable {timeout : ℕ} {selected : List (Text × Outcome)}

/-- A total in the report, from what the files lead to. -/
theorem totalOf_run {f : FileResult → ℕ} {g : Outcome → ℕ}
    (h : ∀ s ∈ selected, f (runOne timeout s.1 s.2) = g s.2) :
    totalOf f (selected.map fun s => runOne timeout s.1 s.2) =
      (selected.map fun s => g s.2).sum % 2 ^ 64 := by
  rw [totalOf, List.map_map]
  exact congrArg (fun l : List ℕ => l.sum % 2 ^ 64) (List.map_congr_left h)

/-- The totals add up if nothing is taken from less. -/
theorem totals_iff (tests failed : ℕ) (htests : tests < 2 ^ 64) (hfailed : failed < 2 ^ 64) :
    (tests + 2 ^ 64 - failed) % 2 ^ 64 + failed = tests ↔ failed ≤ tests := by
  constructor
  · intro h
    omega
  · intro h
    omega

/-- **When the counters add up**: if no script stops short, and the number of failing results is not
above that of all results in the words that count them. -/
theorem consistent_iff (timeout : ℕ) (selected : List (Text × Outcome)) :
    (run timeout selected).Consistent ↔ (∀ f ∈ selected, ¬ f.2.StopsShort) ∧
      (selected.map fun f => f.2.failing).sum % 2 ^ 64 ≤
        (selected.map fun f => f.2.results).sum % 2 ^ 64 := by
  have hfile : ∀ f : Text × Outcome, (runOne timeout f.1 f.2).passed + (runOne timeout f.1 f.2).failed =
      (runOne timeout f.1 f.2).tests ↔ ¬ f.2.StopsShort := by
    intro f
    obtain ⟨htests, hpassed⟩ := runOne_counts timeout f.1 f.2
    rw [← f.2.faults_eq_failing_iff, htests, ← hpassed, Nat.add_left_cancel_iff, (runOne_spec ..).1]
  have htests : (run timeout selected).tests = (selected.map fun f => f.2.results).sum % 2 ^ 64 :=
    totalOf_run fun f _ => (runOne_counts timeout f.1 f.2).1
  have hfailed : (∀ f ∈ selected, ¬ f.2.StopsShort) →
      (run timeout selected).failed = (selected.map fun f => f.2.failing).sum % 2 ^ 64 := by
    intro hshort
    refine totalOf_run fun f hf => ?_
    rw [(runOne_spec ..).1]
    exact f.2.faults_eq_failing_iff.mpr (hshort f hf)
  constructor
  · intro h
    have hshort : ∀ f ∈ selected, ¬ f.2.StopsShort := fun f hf =>
      (hfile f).mp (h.files _ (List.mem_map_of_mem hf)).1
    have hle := h.failed_le
    rw [htests, hfailed hshort] at hle
    exact ⟨hshort, hle⟩
  · rintro ⟨hshort, hle⟩
    rw [← htests, ← hfailed hshort] at hle
    refine ⟨fun r hr => ?_, ?_, hle⟩
    · obtain ⟨f, hf, rfl⟩ := List.mem_map.mp hr
      have hsum := (hfile f).mpr (hshort f hf)
      exact ⟨hsum, by omega⟩
    · exact (totals_iff _ _ (Nat.mod_lt _ (by decide)) (Nat.mod_lt _ (by decide))).mpr hle

/-- Below `2 ^ 64` results the words have room. -/
theorem failing_le_results (h : (selected.map fun f => f.2.results).sum < 2 ^ 64) :
    (selected.map fun f => f.2.failing).sum % 2 ^ 64 ≤
      (selected.map fun f => f.2.results).sum % 2 ^ 64 := by
  have hle : (selected.map fun f => f.2.failing).sum ≤ (selected.map fun f => f.2.results).sum := by
    refine List.sum_le_sum fun f _ => ?_
    have := (runOne_counts 0 f.1 f.2).2
    omega
  rw [Nat.mod_eq_of_lt h]
  exact (Nat.mod_le _ _).trans hle

end

/-- A script that ends after one of five results: four of one test have failed. -/
theorem short_script :
    (run 120 [(text "chmod/00.t", .ran (text "1..5\nok 1\n") (some 1) false)]).tests = 1 ∧
    (run 120 [(text "chmod/00.t", .ran (text "1..5\nok 1\n") (some 1) false)]).failed = 4 ∧
    ¬ (run 120 [(text "chmod/00.t", .ran (text "1..5\nok 1\n") (some 1) false)]).Consistent := by
  refine ⟨by decide +kernel, by decide +kernel, fun h => ?_⟩
  have hle := h.failed_le
  revert hle
  decide +kernel

end Fstest.Pjdfstest
