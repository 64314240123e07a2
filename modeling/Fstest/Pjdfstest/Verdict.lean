import Fstest.Lib.Text
import Mathlib.Algebra.Order.BigOperators.Group.List
import Mathlib.Algebra.GroupWithZero.Nat
import Mathlib.Algebra.Order.Group.Nat

/-!
# The verdict of pjdfstest

`runOne` counts what a test file has printed, line by line, and `run` folds the counters of all
files into the report. The purpose of the lines is in `classify`: a file is `Complete` if it has
ended by itself, has not bailed out, and has printed exactly the results of its plan, none of which
fails. `runOne_spec` says what the counters are, in terms of the lines. The report takes a file
that is killed for one that has ended, and one without a plan, or with more results than planned, for
complete (`verdict_sound_iff`).
-/

namespace Fstest.Pjdfstest

open Text

/-- What happens to a test file. -/
inductive Outcome where
  /-- Its directory cannot be created. -/
  | noScratch (error : Text)
  | noShell (error : Text)
  /-- What it prints, how it ends, and whether it is killed. -/
  | ran (stdout : Text) (exitCode : Option ℤ) (timedOut : Bool)
  deriving DecidableEq, Repr

structure FileResult where
  name : Text
  tests : ℕ := 0
  passed : ℕ := 0
  failed : ℕ := 0
  todo : ℕ := 0
  failures : List Text := []
  bail : Bool := false
  exitCode : Option ℤ := none
  timedOut : Bool := false
  deriving DecidableEq, Repr

/-- A result line: whether it is `ok`, and what follows. -/
def resultLine (line : Text) : Option (Bool × Text) :=
  match stripPrefix (text "ok ") line with
  | some rest => some (true, rest)
  | none =>
    match stripPrefix (text "not ok ") line with
    | some rest => some (false, rest)
    | none =>
      if line = text "ok" then some (true, [])
      else if line = text "not ok" then some (false, [])
      else none

def isTodo (rest : Text) : Bool := contains rest (text "# TODO") || contains rest (text "# SKIP")

/-- One line of the output, with the plan that has been declared. -/
def readLine (s : FileResult × Option ℕ) (line : Text) : FileResult × Option ℕ :=
  let (r, plan) := s
  let line := trimEnd line
  match stripPrefix (text "1..") line with
  | some rest =>
    match parseU64 (trim rest) with
    | some n => (r, some n)
    | none => (r, plan)
  | none =>
    if (text "Bail out!").isPrefixOf line then
      ({ r with bail := true, failures := r.failures ++ [line] }, plan)
    else
      match resultLine line with
      | none => (r, plan)
      | some (ok, rest) =>
        let r := { r with tests := r.tests + 1 }
        if ok then
          ({ r with passed := r.passed + 1, todo := if isTodo rest then r.todo + 1 else r.todo },
            plan)
        else if isTodo rest then ({ r with passed := r.passed + 1 }, plan)
        else ({ r with failed := r.failed + 1, failures := r.failures ++ [line] }, plan)

/-- The check of the plan after the last line. -/
def checkPlan (r : FileResult) (plan : Option ℕ) : FileResult :=
  match plan with
  | some n =>
    if r.tests < n && r.failed == 0 && !r.timedOut then
      { r with
        failed := r.failed + (n - r.tests)
        failures := r.failures ++ [text "script stopped early: declared " ++ decimal n ++
          text " tests, ran " ++ decimal r.tests] }
    else r
  | none => r

def runOne (timeout : ℕ) (name : Text) (o : Outcome) : FileResult :=
  match o with
  | .noScratch e =>
    { name, failures := [text "cannot create scratch dir: " ++ e], failed := 1, tests := 1 }
  | .noShell e => { name, failures := [text "cannot spawn sh: " ++ e], failed := 1, tests := 1 }
  | .ran stdout exitCode timedOut =>
    let r : FileResult := { name, exitCode := if timedOut then none else exitCode, timedOut }
    let (r, plan) := (lines stdout).foldl readLine (r, none)
    let r := checkPlan r plan
    if timedOut then
      { r with failures := r.failures ++ [text "timed out after " ++ decimal timeout ++ text "s"] }
    else r

inductive Status where
  | ok
  | failed
  deriving DecidableEq, Repr

structure Report where
  status : Status
  tests : ℕ
  passed : ℕ
  failed : ℕ
  todoPassed : ℕ
  failures : List Text
  files : List FileResult
  deriving DecidableEq, Repr

/-- The sum of a counter over the files, of the type `u64`. -/
def totalOf (f : FileResult → ℕ) (rs : List FileResult) : ℕ := (rs.map f).sum % 2 ^ 64

/-- The report on the selected files. -/
def run (timeout : ℕ) (selected : List (Text × Outcome)) : Report :=
  let results := selected.map fun f => runOne timeout f.1 f.2
  let totalTests := totalOf FileResult.tests results
  let totalFailed := totalOf FileResult.failed results
  let bailed := results.any FileResult.bail
  { status := if totalFailed == 0 && !bailed then .ok else .failed
    tests := totalTests
    passed := (totalTests + 2 ^ 64 - totalFailed) % 2 ^ 64
    failed := totalFailed
    todoPassed := totalOf FileResult.todo results
    failures := results.flatMap fun r => r.failures.map fun f => r.name ++ text ": " ++ f
    files := results }

/-! ## What the lines say -/

inductive Line where
  /-- A plan `1..n`, if that is a number. -/
  | plan (n : Option ℕ)
  | bail
  /-- A result, and whether it has a directive. -/
  | result (ok directive : Bool)
  | other
  deriving DecidableEq, Repr

def classify (line : Text) : Line :=
  let line := trimEnd line
  match stripPrefix (text "1..") line with
  | some rest => .plan (parseU64 (trim rest))
  | none =>
    if (text "Bail out!").isPrefixOf line then .bail
    else
      match resultLine line with
      | some (ok, rest) => .result ok (isTodo rest)
      | none => .other

def Line.isResult : Line → Bool
  | .result _ _ => true
  | _ => false

/-- A `not ok` without a directive. -/
def Line.fails : Line → Bool
  | .result false false => true
  | _ => false

def Line.bails : Line → Bool
  | .bail => true
  | _ => false

def Line.declared : Line → Option ℕ
  | .plan n => n
  | _ => none

/-- What is known of the output of a file. -/
structure Printed where
  results : ℕ
  failing : ℕ
  bails : Bool
  /-- The plan, which a later plan line replaces. -/
  plan : Option ℕ

def printed (stdout : Text) : Printed where
  results := (lines stdout).countP fun l => (classify l).isResult
  failing := (lines stdout).countP fun l => (classify l).fails
  bails := (lines stdout).any fun l => (classify l).bails
  plan := ((lines stdout).filterMap fun l => (classify l).declared).getLast?

/-- The file has ended, and printed the results of its plan, none of which fails. -/
def Outcome.Complete : Outcome → Prop
  | .ran stdout _ timedOut => timedOut = false ∧ (printed stdout).bails = false ∧
    ∃ n, (printed stdout).plan = some n ∧ (printed stdout).results = n ∧ (printed stdout).failing = 0
  | _ => False

/-! ## What is counted -/

section

variable {s s' : FileResult × Option ℕ} {ls : List Text} {line : Text}

/-- What a line adds to the counters. -/
structure Reads (ls : List Text) (s s' : FileResult × Option ℕ) : Prop where
  tests : s'.1.tests = s.1.tests + ls.countP fun l => (classify l).isResult
  failed : s'.1.failed = s.1.failed + ls.countP fun l => (classify l).fails
  bail : s'.1.bail = (s.1.bail || ls.any fun l => (classify l).bails)
  plan : s'.2 = ((ls.filterMap fun l => (classify l).declared).getLast?).or s.2
  timedOut : s'.1.timedOut = s.1.timedOut

/-- One line, whose counters are given. -/
theorem Reads.singleton (htests : s'.1.tests = s.1.tests + (classify line).isResult.toNat)
    (hfailed : s'.1.failed = s.1.failed + (classify line).fails.toNat)
    (hbail : s'.1.bail = (s.1.bail || (classify line).bails))
    (hplan : s'.2 = (classify line).declared.or s.2) (htimedOut : s'.1.timedOut = s.1.timedOut) :
    Reads [line] s s' := by
  refine ⟨?_, ?_, ?_, ?_, htimedOut⟩
  · rw [htests]
    cases h : (classify line).isResult <;> simp [h]
  · rw [hfailed]
    cases h : (classify line).fails <;> simp [h]
  · rw [hbail, List.any_cons, List.any_nil, Bool.or_false]
  · rw [hplan]
    cases h : (classify line).declared <;> simp [h]

theorem readLine_reads (s : FileResult × Option ℕ) (line : Text) :
    Reads [line] s (readLine s line) := by
  obtain ⟨r, plan⟩ := s
  -- A line of a known class, and what the code makes of it.
  have hof : ∀ (c : Line) (s' : FileResult × Option ℕ), classify line = c →
      readLine (r, plan) line = s' → s'.1.tests = r.tests + c.isResult.toNat →
      s'.1.failed = r.failed + c.fails.toNat → s'.1.bail = (r.bail || c.bails) →
      s'.2 = c.declared.or plan → s'.1.timedOut = r.timedOut →
      Reads [line] (r, plan) (readLine (r, plan) line) := by
    rintro c s' rfl rfl htests hfailed hbail hdeclared htimedOut
    exact .singleton htests hfailed hbail hdeclared htimedOut
  cases hplan : stripPrefix (text "1..") (trimEnd line) with
  | some rest =>
    cases hn : parseU64 (trim rest) with
    | some n =>
      exact hof (.plan (some n)) (r, some n) (by simp only [classify, hplan, hn])
        (by simp only [readLine, hplan, hn]) rfl rfl (Bool.or_false _).symm rfl rfl
    | none =>
      exact hof (.plan none) (r, plan) (by simp only [classify, hplan, hn])
        (by simp only [readLine, hplan, hn]) rfl rfl (Bool.or_false _).symm rfl rfl
  | none =>
    by_cases hbail : (text "Bail out!").isPrefixOf (trimEnd line) = true
    · exact hof .bail ({ r with bail := true, failures := r.failures ++ [trimEnd line] }, plan)
        (by simp only [classify, hplan, hbail, if_true])
        (by simp only [readLine, hplan, hbail, if_true]) rfl rfl (Bool.or_true _).symm rfl rfl
    · cases hres : resultLine (trimEnd line) with
      | none =>
        exact hof .other (r, plan) (by simp only [classify, hplan, if_neg hbail, hres])
          (by simp only [readLine, hplan, if_neg hbail, hres]) rfl rfl (Bool.or_false _).symm rfl rfl
      | some res =>
        obtain ⟨ok, rest⟩ := res
        have hclass : classify line = .result ok (isTodo rest) := by
          simp only [classify, hplan, if_neg hbail, hres]
        cases ok with
        | true =>
          exact hof _
            ({ r with
              tests := r.tests + 1, passed := r.passed + 1
              todo := if isTodo rest then r.todo + 1 else r.todo }, plan)
            hclass (by simp only [readLine, hplan, if_neg hbail, hres, if_true]) rfl rfl
            (Bool.or_false _).symm rfl rfl
        | false =>
          cases htodo : isTodo rest with
          | true =>
            exact hof (.result false true)
              ({ r with tests := r.tests + 1, passed := r.passed + 1 }, plan) (htodo ▸ hclass)
              (by simp only [readLine, hplan, if_neg hbail, hres, htodo, Bool.false_eq_true,
                if_false, if_true])
              rfl rfl (Bool.or_false _).symm rfl rfl
          | false =>
            exact hof (.result false false)
              ({ r with
                tests := r.tests + 1, failed := r.failed + 1
                failures := r.failures ++ [trimEnd line] }, plan)
              (htodo ▸ hclass)
              (by simp only [readLine, hplan, if_neg hbail, hres, htodo, Bool.false_eq_true, if_false])
              rfl rfl (Bool.or_false _).symm rfl rfl

/-- **The counters after the lines `ls`.** -/
theorem foldl_reads (ls : List Text) (s : FileResult × Option ℕ) :
    Reads ls s (ls.foldl readLine s) := by
  induction ls generalizing s with
  | nil => exact ⟨rfl, rfl, (Bool.or_false _).symm, rfl, rfl⟩
  | cons line ls ih =>
    have hone := readLine_reads s line
    have hrest := ih (readLine s line)
    rw [List.foldl_cons]
    refine ⟨?_, ?_, ?_, ?_, hrest.timedOut.trans hone.timedOut⟩
    · rw [hrest.tests, hone.tests, List.countP_cons (l := ls), List.countP_cons (l := [])]
      simp only [List.countP_nil]
      omega
    · rw [hrest.failed, hone.failed, List.countP_cons (l := ls), List.countP_cons (l := [])]
      simp only [List.countP_nil]
      omega
    · rw [hrest.bail, hone.bail, List.any_cons, List.any_cons, List.any_nil, Bool.or_false,
        Bool.or_assoc]
    · have hsplit : (line :: ls).filterMap (fun l => (classify l).declared) =
          [line].filterMap (fun l => (classify l).declared) ++
            ls.filterMap fun l => (classify l).declared := by
        rw [← List.filterMap_append]
        rfl
      rw [hrest.plan, hone.plan, hsplit, List.getLast?_append, Option.or_assoc]

end

/-! ## The verdict -/

/-- What counts as a failure of a file: its failing results, or where it has ended without one the
results that it has not printed. -/
def Outcome.faults : Outcome → ℕ
  | .ran stdout _ timedOut =>
    let q := printed stdout
    q.failing + if q.failing = 0 ∧ timedOut = false then q.plan.getD 0 - q.results else 0
  | _ => 1

def Outcome.bails : Outcome → Bool
  | .ran stdout _ _ => (printed stdout).bails
  | _ => false

/-- The file has ended, and declared a plan that is not less than what it has printed. -/
def Outcome.Planned : Outcome → Prop
  | .ran stdout _ timedOut =>
    timedOut = false ∧ ∃ n, (printed stdout).plan = some n ∧ (printed stdout).results ≤ n
  | _ => False

theorem checkPlan_spec (r : FileResult) (plan : Option ℕ) :
    (checkPlan r plan).failed =
      r.failed + (if r.failed = 0 ∧ r.timedOut = false then plan.getD 0 - r.tests else 0) ∧
    (checkPlan r plan).bail = r.bail := by
  cases plan with
  | none => simp [checkPlan]
  | some n =>
    simp only [checkPlan, Option.getD_some, Bool.and_eq_true, decide_eq_true_eq, beq_iff_eq,
      Bool.not_eq_true', and_assoc]
    by_cases hended : r.failed = 0 ∧ r.timedOut = false
    · rw [if_pos hended]
      by_cases hlt : r.tests < n
      · rw [if_pos ⟨hlt, hended⟩]
        exact ⟨rfl, rfl⟩
      · rw [if_neg fun h => hlt h.1]
        exact ⟨by omega, rfl⟩
    · rw [if_neg hended, if_neg fun h => hended h.2]
      exact ⟨rfl, rfl⟩

/-- **What the result of a file says.** -/
theorem runOne_spec (timeout : ℕ) (name : Text) (o : Outcome) :
    (runOne timeout name o).failed = o.faults ∧ (runOne timeout name o).bail = o.bails := by
  cases o with
  | noScratch e => exact ⟨rfl, rfl⟩
  | noShell e => exact ⟨rfl, rfl⟩
  | ran stdout exitCode timedOut =>
    have h := foldl_reads (lines stdout)
      ({ name, exitCode := if timedOut then none else exitCode, timedOut }, none)
    simp only [runOne, Outcome.faults, Outcome.bails]
    generalize (lines stdout).foldl readLine _ = s at h ⊢
    obtain ⟨r, plan⟩ := s
    have htests : r.tests = (printed stdout).results := h.tests.trans (Nat.zero_add _)
    have hfailed : r.failed = (printed stdout).failing := h.failed.trans (Nat.zero_add _)
    have hbail : r.bail = (printed stdout).bails := h.bail.trans (Bool.false_or _)
    have hplan : plan = (printed stdout).plan := h.plan.trans (Option.or_none)
    have htimed : r.timedOut = timedOut := h.timedOut
    obtain ⟨hfail, hb⟩ := checkPlan_spec r plan
    rw [hfailed, htimed, htests, hplan] at hfail
    rw [hbail] at hb
    simp only [hplan] at hb ⊢
    split
    · exact ⟨hfail, hb⟩
    · exact ⟨hfail, hb⟩

/-- A file without faults that has not bailed out is complete exactly if it has ended and planned what
it has printed. -/
theorem Outcome.complete_iff {o : Outcome} (hf : o.faults = 0) (hb : o.bails = false) :
    o.Complete ↔ o.Planned := by
  cases o with
  | noScratch e | noShell e => exact Iff.rfl
  | ran stdout exitCode timedOut =>
    simp only [Outcome.faults] at hf
    constructor
    · rintro ⟨htimed, -, n, hplan, hresults, -⟩
      exact ⟨htimed, n, hplan, Nat.le_of_eq hresults⟩
    · rintro ⟨htimed, n, hplan, hle⟩
      have hfailing : (printed stdout).failing = 0 := by omega
      rw [if_pos ⟨hfailing, htimed⟩, hplan, Option.getD_some] at hf
      exact ⟨htimed, hb, n, hplan, by omega, hfailing⟩

theorem Outcome.Complete.faults_eq {o : Outcome} (h : o.Complete) :
    o.faults = 0 ∧ o.bails = false := by
  cases o with
  | noScratch e | noShell e => exact h.elim
  | ran stdout exitCode timedOut =>
    obtain ⟨htimed, hbails, n, hplan, hresults, hfailing⟩ := h
    refine ⟨?_, hbails⟩
    simp only [Outcome.faults, hplan, hresults, hfailing, Option.getD_some]
    split <;> omega

section

variable {timeout : ℕ} {selected : List (Text × Outcome)}

theorem status_ok_iff : (run timeout selected).status = .ok ↔
    2 ^ 64 ∣ (selected.map fun f => f.2.faults).sum ∧ ∀ f ∈ selected, f.2.bails = false := by
  have hfailed : totalOf FileResult.failed (selected.map fun f => runOne timeout f.1 f.2) =
      (selected.map fun f => f.2.faults).sum % 2 ^ 64 := by
    have hcomp : (FileResult.failed ∘ fun f : Text × Outcome => runOne timeout f.1 f.2) =
        fun f => f.2.faults := by
      funext f
      exact (runOne_spec timeout f.1 f.2).1
    rw [totalOf, List.map_map, hcomp]
  have hbailed : ((selected.map fun f => runOne timeout f.1 f.2).any FileResult.bail) = false ↔
      ∀ f ∈ selected, f.2.bails = false := by
    simp only [List.any_eq_false, List.mem_map, forall_exists_index, and_imp,
      forall_apply_eq_imp_iff₂, (runOne_spec timeout _ _).2, Bool.not_eq_true]
  rw [run]
  simp only [hfailed]
  rw [← hbailed, Nat.dvd_iff_mod_eq_zero]
  cases (selected.map fun f => runOne timeout f.1 f.2).any FileResult.bail <;>
    simp

/-- The report says how the files have ended: some file bails out, or the failures do not add up to a
multiple of `2 ^ 64`, or there are none and every file has ended within a plan. -/
def Told (selected : List (Text × Outcome)) : Prop :=
  (∃ f ∈ selected, f.2.bails = true) ∨ ¬ 2 ^ 64 ∣ (selected.map fun f => f.2.faults).sum ∨
    ((selected.map fun f => f.2.faults).sum = 0 ∧ ∀ f ∈ selected, f.2.Planned)

/-- **When the verdict is sound.** -/
theorem verdict_sound_iff (timeout : ℕ) (selected : List (Text × Outcome)) :
    ((run timeout selected).status = .ok → ∀ f ∈ selected, f.2.Complete) ↔ Told selected := by
  rw [status_ok_iff, Told]
  constructor
  · intro h
    by_cases hbail : ∃ f ∈ selected, f.2.bails = true
    · exact .inl hbail
    by_cases hdvd : 2 ^ 64 ∣ (selected.map fun f => f.2.faults).sum
    · have hquiet : ∀ f ∈ selected, f.2.bails = false := fun f hf => by
        simpa using fun hb => hbail ⟨f, hf, hb⟩
      have hcomplete := h ⟨hdvd, hquiet⟩
      have hzero : ∀ f ∈ selected, f.2.faults = 0 := fun f hf => (hcomplete f hf).faults_eq.1
      refine .inr (.inr ⟨?_, fun f hf => ?_⟩)
      · rw [List.sum_eq_zero_iff]
        intro k hk
        obtain ⟨f, hf, rfl⟩ := List.mem_map.mp hk
        exact hzero f hf
      · exact (Outcome.complete_iff (hzero f hf) (hquiet f hf)).mp (hcomplete f hf)
    · exact .inr (.inl hdvd)
  · rintro (⟨f, hf, hb⟩ | hdvd | ⟨hsum, hplanned⟩) ⟨hok, hquiet⟩
    · rw [hquiet f hf] at hb
      cases hb
    · exact absurd hok hdvd
    · intro f hf
      have hzero : f.2.faults = 0 := by
        rw [List.sum_eq_zero_iff] at hsum
        exact hsum _ (List.mem_map.mpr ⟨f, hf, rfl⟩)
      exact (Outcome.complete_iff hzero (hquiet f hf)).mpr (hplanned f hf)

end

/-- A file that is killed in the middle of its plan is reported as a success. -/
theorem killed_file_ok :
    (run 120 [(text "chmod/00.t", .ran (text "1..3\nok 1\n") none true)]).status = .ok ∧
    ¬ ∀ f ∈ [(text "chmod/00.t", Outcome.ran (text "1..3\nok 1\n") none true)], f.2.Complete := by
  refine ⟨by decide +kernel, fun h => ?_⟩
  obtain ⟨htimed, -⟩ := h _ (List.mem_singleton_self _)
  cases htimed

end Fstest.Pjdfstest
