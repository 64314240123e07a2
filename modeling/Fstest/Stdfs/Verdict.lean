import Fstest.Lib.Text

/-!
# The verdict of stdfs

Every language has a back end that turns the outcomes of its items into a report of its own, by what
the item prints, its exit code and the timeout; `run` folds their statuses. What a test prints is
read by `parseGoV`, `parsePythonV`, `parseTap` and `parseRes`, whose failures are the lines that say
so (`parseGoV_fail` and the others). The back ends for Go, Python and Node say `failed` exactly if an
item has gone wrong (`items_status`). The one for Rust has words of its own, `fail` and `timedout`,
which `run` does not look for (`verdict_iff`).
-/

namespace Fstest.Stdfs

open Text

inductive Language where
  | go
  | python
  | node
  | rust
  deriving DecidableEq, Repr

/-- What a command does until it ends or is killed. -/
structure Exec where
  code : Option ℤ
  timedOut : Bool
  out : Text
  spawnErr : Option Text
  deriving DecidableEq, Repr

/-- The words for an outcome, in the items and in the reports. -/
inductive Status where
  | ok
  | fail
  | timedout
  | compileError
  | missing
  | failed
  deriving DecidableEq, Repr

def tail (s : Text) (cap : ℕ) : Text := if utf8Len s ≤ cap then s else text "..." ++ lastBytes cap s

/-- The tests that an item reports. -/
structure Parsed where
  pass : ℕ := 0
  fail : ℕ := 0
  skip : ℕ := 0
  failures : List (Text × Text) := []
  deriving DecidableEq, Repr

/-! ## Go -/

/-- The verb and the rest of a line `--- VERB: name`. -/
def goVerb (line : Text) : Option (Text × Text) :=
  if (text "=== ").isPrefixOf line then none
  else (stripPrefix (text "--- ") line).bind (splitOnce (text " "))

/-- A line of the output, with the indented lines that stand before it. -/
def goLine (s : Parsed × Text) (line : Text) : Parsed × Text :=
  let (p, pending) := s
  if (text "=== ").isPrefixOf line then (p, [])
  else
    match stripPrefix (text "--- ") line with
    | some rest =>
      match splitOnce (text " ") rest with
      | none => (p, pending)
      | some (verb, tailpart) =>
        let name := trim (((splitOnce (text " (") tailpart).map Prod.fst).getD tailpart)
        if verb = text "PASS:" then ({ p with pass := p.pass + 1 }, [])
        else if verb = text "SKIP:" then ({ p with skip := p.skip + 1 }, [])
        else if verb = text "FAIL:" then
          ({ p with
            fail := p.fail + 1
            failures := if p.failures.length < 10 then p.failures ++ [(name, tail pending 800)]
              else p.failures }, [])
        else (p, [])
    | none =>
      if (line.head?.map isWhitespace).getD false && trim line ≠ [] then
        (p, if utf8Len pending < 800 then pending ++ trimStart line ++ ['\n'] else pending)
      else (p, [])

def parseGoV (out : Text) : Parsed := ((lines out).foldl goLine ({}, [])).1

/-- The line says that a test has failed. -/
def goFails (line : Text) : Bool := (goVerb line).map Prod.fst == some (text "FAIL:")

/-! ## Python -/

/-- What stands after the name of a test. -/
def pythonStatus (line : Text) : Option (Text × Text) :=
  (splitOnce (text " ... ") line).map fun r => (trim r.1, trim r.2)

def pythonLine (p : Parsed) (line : Text) : Parsed :=
  match pythonStatus line with
  | none => p
  | some (id, st) =>
    if (text "ok").isPrefixOf st then { p with pass := p.pass + 1 }
    else if st = text "FAIL" ∨ st = text "ERROR" then
      { p with
        fail := p.fail + 1
        failures := if p.failures.length < 100 then p.failures ++ [(id, [])] else p.failures }
    else if (text "skipped").isPrefixOf st then { p with skip := p.skip + 1 }
    else p

def parsePythonV (out : Text) : Parsed := (lines out).foldl pythonLine {}

def pythonFails (line : Text) : Bool :=
  let st := (pythonStatus line).map Prod.snd
  st == some (text "FAIL") || st == some (text "ERROR")

/-! ## Node -/

/-- The indented lines after a result, up to 800 bytes and a line. -/
def tapDetail : Text → List Text → Text
  | det, [] => det
  | det, line :: rest =>
    if line.head? = some ' ' ∨ line.head? = some '\t' then
      let det := det ++ line ++ ['\n']
      if 800 < utf8Len det then det else tapDetail det rest
    else det

def tapLines : Parsed → List Text → Parsed
  | p, [] => p
  | p, line :: rest =>
    if (text "ok ").isPrefixOf line then tapLines { p with pass := p.pass + 1 } rest
    else if (text "not ok ").isPrefixOf line then
      let name := trimStartMatches (text "not ok ") line.length line
      let name := ((splitOnce (text " - ") name).map Prod.snd).getD name
      let detail := if p.failures.length < 10 then tail (tapDetail [] rest) 800 else []
      tapLines { p with fail := p.fail + 1, failures := p.failures ++ [(name, detail)] } rest
    else tapLines p rest

def parseTap (out : Text) : Parsed := tapLines {} (lines out)

def tapFails (line : Text) : Bool := (text "not ok ").isPrefixOf line

/-! ## Rust -/

/-- The name, the status and the message of a line `RES name status message`. -/
def resLine (line : Text) : Option (Text × Text × Text) :=
  match splitOnce ['\t'] line with
  | none => none
  | some (first, r) =>
    if first = text "RES" then
      match splitOnce ['\t'] r with
      | none => none
      | some (name, r) =>
        match splitOnce ['\t'] r with
        | none => some (name, r, [])
        | some (status, msg) => some (name, status, msg)
    else none

structure ResParsed where
  pass : ℕ := 0
  fail : ℕ := 0
  timedout : ℕ := 0
  seen : ℕ := 0
  failures : List (Text × Text) := []
  deriving DecidableEq, Repr

def resStep (p : ResParsed) (line : Text) : ResParsed :=
  match resLine line with
  | none => p
  | some (name, status, msg) =>
    let p := { p with seen := p.seen + 1 }
    if status = text "ok" ∨ status = text "skipped" then { p with pass := p.pass + 1 }
    else if status = text "timedout" then
      { p with
        timedout := p.timedout + 1
        fail := p.fail + 1
        failures := if p.failures.length < 20 then
            p.failures ++ [(name, text "[timedout] " ++ tail msg 400)] else p.failures }
    else
      { p with
        fail := p.fail + 1
        failures := if p.failures.length < 20 then p.failures ++ [(name, tail msg 500)]
          else p.failures }

def parseRes (out : Text) : ResParsed := (lines out).foldl resStep {}

def resFails (line : Text) : Bool :=
  match resLine line with
  | none => false
  | some (_, status, _) => status ≠ text "ok" && status ≠ text "skipped"

/-! ## The reports -/

structure Item where
  name : Text
  status : Status
  parsed : Option Parsed := none
  exitCode : Option ℤ := none
  tail : Text := []
  error : Option Text := none
  deriving DecidableEq, Repr

/-- The report on a language. -/
structure LangReport where
  available : Bool
  status : Option Status := none
  reason : Text := []
  items : List Item := []
  /-- The items that have failed. -/
  failed : ℕ := 0
  rust : Option ResParsed := none
  deriving DecidableEq, Repr

def unavailable (reason : Text) : LangReport := { available := false, reason }

/-- A package of Go is compiled, and then its tests are run. -/
structure GoRun where
  pkg : Text
  compile : Exec
  test : Exec
  deriving DecidableEq, Repr

def goItem (r : GoRun) : Item :=
  if r.compile.spawnErr.isSome || r.compile.code ≠ some 0 then
    { name := r.pkg, status := .compileError, tail := tail r.compile.out 2000,
      error := r.compile.spawnErr }
  else
    let p := parseGoV r.test.out
    let ok := r.test.code = some 0 && !r.test.timedOut && p.fail == 0
    { name := r.pkg, status := if r.test.timedOut then .timedout else if ok then .ok else .fail,
      parsed := some p, exitCode := r.test.code, tail := tail r.test.out 2000 }

/-- A module of Python, with its run if there is a file for it. -/
structure PythonRun where
  module : Text
  test : Option Exec
  deriving DecidableEq, Repr

def pythonItem (r : PythonRun) : Item :=
  match r.test with
  | none => { name := r.module, status := .missing }
  | some ex =>
    let p := parsePythonV ex.out
    let ok := ex.code = some 0 && !ex.timedOut && p.fail == 0
    { name := r.module
      status := if ex.timedOut then .timedout else if ex.code ≠ some 0 then .fail
        else if ok then .ok else .fail
      parsed := some p, exitCode := ex.code, tail := tail ex.out 2000 }

structure NodeRun where
  file : Text
  test : Exec
  deriving DecidableEq, Repr

def nodeItem (r : NodeRun) : Item :=
  let p := parseTap r.test.out
  let ok := r.test.code = some 0 && !r.test.timedOut && p.fail == 0
  { name := r.file, status := if r.test.timedOut then .timedout else if ok then .ok else .fail,
    parsed := some p, exitCode := r.test.code, tail := tail r.test.out 2000 }

/-- The report on items, of which those with a status in `fine` have not failed. -/
def itemsReport (fine : List Status) (items : List Item) : LangReport where
  available := true
  status := some (if items.all fun it => it.status ∈ fine then .ok else .failed)
  items := items
  failed := items.countP fun it => it.status ∉ fine

def runGo (rs : List GoRun) : LangReport := itemsReport [.ok] (rs.map goItem)

def runPython (rs : List PythonRun) : LangReport :=
  itemsReport [.ok, .missing] (rs.map pythonItem)

def runNode (rs : List NodeRun) : LangReport := itemsReport [.ok] (rs.map nodeItem)

/-- The runner of Rust is compiled, and runs `tests` tests. -/
structure RustRun where
  compile : Exec
  test : Exec
  tests : ℕ
  deriving DecidableEq, Repr

def runRust (r : RustRun) : LangReport :=
  if r.compile.code ≠ some 0 then
    { available := true, status := some .failed,
      reason := text ("generated runner failed to compile " ++
        "(upstream tests.rs uses APIs this rewrite doesn't handle)") }
  else
    let p := parseRes r.test.out
    let ok := r.test.code = some 0 && !r.test.timedOut && p.fail == 0
    { available := true
      status := some (if r.test.timedOut then .timedout else if ok then .ok else .fail)
      rust := some { p with
        timedout := if r.test.timedOut then (r.tests + 2 ^ 64 - p.seen) % 2 ^ 64 else p.timedout } }

/-- The run of a requested language. -/
inductive Run where
  | unavailable (lang : Language) (reason : Text)
  | go (rs : List GoRun)
  | python (rs : List PythonRun)
  | node (rs : List NodeRun)
  | rust (r : RustRun)
  deriving DecidableEq, Repr

def Run.lang : Run → Language
  | .unavailable lang _ => lang
  | .go _ => .go
  | .python _ => .python
  | .node _ => .node
  | .rust _ => .rust

def Run.report : Run → LangReport
  | .unavailable _ reason => Stdfs.unavailable reason
  | .go rs => runGo rs
  | .python rs => runPython rs
  | .node rs => runNode rs
  | .rust r => runRust r

/-- The reports by language, where a later run of a language replaces an earlier one. -/
def languages (runs : List Run) : Language → Option LangReport :=
  runs.foldl (fun m r => Function.update m r.lang (some r.report)) fun _ => none

def LangReport.counts (v : LangReport) : Bool := v.available && v.status == some .failed

def anyFailed (m : Language → Option LangReport) : Bool :=
  [Language.go, .python, .node, .rust].any fun l => (m l).any LangReport.counts

/-- The status of the report on all languages. -/
def run (runs : List Run) : Status := if anyFailed (languages runs) then .failed else .ok

/-! ## What the parsers count -/

theorem goLine_fail (s : Parsed × Text) (line : Text) :
    (goLine s line).1.fail = s.1.fail + (goFails line).toNat := by
  obtain ⟨p, pending⟩ := s
  simp only [goLine, goFails, goVerb]
  by_cases hrun : (text "=== ").isPrefixOf line = true
  · simp only [if_pos hrun]
    rfl
  · simp only [if_neg hrun]
    cases hverb : stripPrefix (text "--- ") line with
    | none =>
      simp only
      split <;> rfl
    | some rest =>
      simp only [Option.bind_some]
      cases hsplit : splitOnce (text " ") rest with
      | none => rfl
      | some r =>
        obtain ⟨verb, tailpart⟩ := r
        simp only [Option.map_some]
        by_cases hpass : verb = text "PASS:"
        · subst hpass
          rfl
        by_cases hskip : verb = text "SKIP:"
        · subst hskip
          rfl
        by_cases hfail : verb = text "FAIL:"
        · subst hfail
          rfl
        · simp [hpass, hskip, hfail]

theorem parseGoV_fail (out : Text) : (parseGoV out).fail = (lines out).countP goFails :=
  (foldl_countP (m := fun s : Parsed × Text => s.1.fail) goLine_fail (lines out) ({}, [])).trans (Nat.zero_add _)

theorem pythonLine_fail (p : Parsed) (line : Text) :
    (pythonLine p line).fail = p.fail + (pythonFails line).toNat := by
  rw [pythonLine, pythonFails]
  cases pythonStatus line with
  | none => rfl
  | some r =>
    obtain ⟨id, st⟩ := r
    simp only [Option.map_some]
    by_cases hfail : st = text "FAIL" ∨ st = text "ERROR"
    · rcases hfail with rfl | rfl <;> rfl
    · obtain ⟨hf, he⟩ := not_or.mp hfail
      simp only [if_neg hfail]
      split
      · simp [hf, he]
      · split <;> simp [hf, he]

theorem parsePythonV_fail (out : Text) : (parsePythonV out).fail = (lines out).countP pythonFails :=
  (foldl_countP (m := Parsed.fail) pythonLine_fail (lines out) {}).trans (Nat.zero_add _)

theorem tapLines_fail (p : Parsed) (ls : List Text) :
    (tapLines p ls).fail = p.fail + ls.countP tapFails := by
  induction ls generalizing p with
  | nil => rfl
  | cons line rest ih =>
    rw [tapLines, List.countP_cons, tapFails]
    by_cases hok : (text "ok ").isPrefixOf line = true
    · -- No line begins with both.
      have hnot : (text "not ok ").isPrefixOf line = false := by
        cases line with
        | nil => rfl
        | cons c line =>
          have hc : c = 'o' := by
            have htext : text "ok " = ['o', 'k', ' '] := rfl
            rw [htext, List.isPrefixOf, Bool.and_eq_true, beq_iff_eq] at hok
            exact hok.1.symm
          subst hc
          rfl
      rw [if_pos hok, ih, hnot]
      rfl
    · rw [if_neg hok]
      by_cases hnot : (text "not ok ").isPrefixOf line = true
      · simp only [if_pos hnot]
        rw [ih]
        simp only
        omega
      · simp only [if_neg hnot]
        rw [ih]
        rfl

theorem parseTap_fail (out : Text) : (parseTap out).fail = (lines out).countP tapFails :=
  (tapLines_fail {} (lines out)).trans (Nat.zero_add _)

/-! ## What has gone wrong -/

/-- The command has ended with success. -/
def Exec.Succeeds (e : Exec) : Prop := e.code = some 0 ∧ e.timedOut = false

/-- It has not, or a line of its output says that a test has failed. -/
def Exec.Wrong (fails : Text → Bool) (e : Exec) : Prop :=
  ¬ e.Succeeds ∨ ∃ l ∈ lines e.out, fails l = true

def GoRun.Wrong (r : GoRun) : Prop :=
  (r.compile.spawnErr.isSome ∨ r.compile.code ≠ some 0) ∨ r.test.Wrong goFails

def PythonRun.Wrong (r : PythonRun) : Prop := ∃ ex, r.test = some ex ∧ ex.Wrong pythonFails

def NodeRun.Wrong (r : NodeRun) : Prop := r.test.Wrong tapFails

def RustRun.Wrong (r : RustRun) : Prop := r.compile.code ≠ some 0 ∨ r.test.Wrong resFails

/-- Some item or test of an available language has failed, timed out, not compiled or crashed. -/
def Run.Wrong : Run → Prop
  | .unavailable _ _ => False
  | .go rs => ∃ r ∈ rs, r.Wrong
  | .python rs => ∃ r ∈ rs, r.Wrong
  | .node rs => ∃ r ∈ rs, r.Wrong
  | .rust r => r.Wrong

def Run.available : Run → Bool
  | .unavailable _ _ => false
  | _ => true

/-- What a back end knows of a command. -/
theorem Exec.not_wrong_iff {fails : Text → Bool} {e : Exec} {n : ℕ}
    (hn : n = (lines e.out).countP fails) :
    ¬ e.Wrong fails ↔ (e.code = some 0 && !e.timedOut && n == 0) = true := by
  rw [hn, Exec.Wrong, Exec.Succeeds]
  rw [not_or, not_not, Bool.and_eq_true, beq_iff_eq, List.countP_eq_zero, Bool.and_eq_true,
    decide_eq_true_eq, Bool.not_eq_true', not_exists]
  simp only [not_and]

theorem goItem_status (r : GoRun) : (goItem r).status = .ok ↔ ¬ r.Wrong := by
  rw [goItem, GoRun.Wrong, not_or]
  by_cases hcompile : r.compile.spawnErr.isSome ∨ r.compile.code ≠ some 0
  · rw [if_pos (by simpa using hcompile)]
    exact ⟨nofun, fun h => absurd hcompile h.1⟩
  · rw [if_neg (by simpa using hcompile), Exec.not_wrong_iff (parseGoV_fail r.test.out)]
    cases r.test.timedOut
    · simp [hcompile]
    · simp

theorem pythonItem_status (r : PythonRun) :
    ((pythonItem r).status = .ok ∨ (pythonItem r).status = .missing) ↔ ¬ r.Wrong := by
  rw [pythonItem, PythonRun.Wrong]
  cases r.test with
  | none => simp
  | some ex =>
    simp only [Option.some.injEq, exists_eq_left']
    rw [Exec.not_wrong_iff (parsePythonV_fail ex.out)]
    cases ex.timedOut
    · by_cases hcode : ex.code = some 0
      · by_cases hfail : (parsePythonV ex.out).fail = 0 <;> simp [hcode, hfail]
      · simp [hcode]
    · simp

theorem nodeItem_status (r : NodeRun) : (nodeItem r).status = .ok ↔ ¬ r.Wrong := by
  rw [nodeItem, NodeRun.Wrong, Exec.not_wrong_iff (parseTap_fail r.test.out)]
  cases r.test.timedOut
  · simp
  · simp

/-- **A back end with items says `failed` exactly if one has gone wrong.** -/
theorem items_status {α : Type} {fine : List Status} {item : α → Item} {wrong : α → Prop}
    (h : ∀ r, (item r).status ∈ fine ↔ ¬ wrong r) (rs : List α) :
    (itemsReport fine (rs.map item)).counts = true ↔ ∃ r ∈ rs, wrong r := by
  have hall : ((rs.map item).all fun it => it.status ∈ fine) = true ↔ ¬ ∃ r ∈ rs, wrong r := by
    simp only [List.all_map, List.all_eq_true, Function.comp_apply, decide_eq_true_eq, h, not_exists,
      not_and]
  rw [LangReport.counts, itemsReport, Bool.true_and, beq_iff_eq, Option.some.injEq]
  by_cases hwrong : ∃ r ∈ rs, wrong r
  · rw [if_neg (mt hall.mp (not_not_intro hwrong))]
    simp [hwrong]
  · rw [if_pos (hall.mpr hwrong)]
    simp [hwrong]

/-- The report of the run has the word that `run` looks for. -/
def Run.Says : Run → Prop
  | .rust r => r.compile.code ≠ some 0
  | r => r.Wrong

theorem Run.says_iff (r : Run) : r.report.counts = true ↔ r.Says := by
  cases r with
  | unavailable lang reason => exact ⟨nofun, nofun⟩
  | go rs => exact items_status (fun r => by rw [List.mem_singleton, goItem_status]) rs
  | python rs =>
    refine items_status (fun r => ?_) rs
    rw [List.mem_cons, List.mem_singleton, pythonItem_status]
  | node rs => exact items_status (fun r => by rw [List.mem_singleton, nodeItem_status]) rs
  | rust r =>
    rw [Run.report, Run.Says, runRust]
    by_cases hcompile : r.compile.code ≠ some 0
    · rw [if_pos hcompile]
      exact ⟨fun _ => hcompile, fun _ => rfl⟩
    · rw [if_neg hcompile]
      refine ⟨fun h => ?_, fun h => absurd h hcompile⟩
      simp only [LangReport.counts, Bool.true_and, beq_iff_eq, Option.some.injEq] at h
      split_ifs at h

theorem Run.Says.wrong {r : Run} (h : r.Says) : r.Wrong := by
  cases r with
  | rust r => exact .inl h
  | unavailable lang reason | go rs | python rs | node rs => exact h

theorem Run.Wrong.available {r : Run} (h : r.Wrong) : r.available = true := by
  cases r with
  | unavailable lang reason => exact h.elim
  | go rs | python rs | node rs | rust r => rfl

/-! ## The verdict -/

/-- No later run of the list is one of the same language. -/
def LastIn (r : Run) (runs : List Run) : Prop :=
  ∃ before later, runs = before ++ r :: later ∧ ∀ r' ∈ later, r'.lang ≠ r.lang

theorem LastIn.mem {r : Run} {runs : List Run} (h : LastIn r runs) : r ∈ runs := by
  obtain ⟨before, later, rfl, -⟩ := h
  exact List.mem_append_right _ (List.mem_cons_self ..)

theorem lastIn_append_singleton {r r' : Run} {runs : List Run} :
    LastIn r (runs ++ [r']) ↔ r = r' ∨ (LastIn r runs ∧ r'.lang ≠ r.lang) := by
  constructor
  · rintro ⟨before, later, heq, hlater⟩
    rcases List.eq_nil_or_concat later with rfl | ⟨later, r'', rfl⟩
    · obtain ⟨-, hr⟩ := List.append_inj' heq rfl
      exact .inl (List.cons.inj hr).1.symm
    · rw [List.concat_eq_append, ← List.cons_append, ← List.append_assoc] at heq
      obtain ⟨hruns, hr⟩ := List.append_inj' heq rfl
      obtain rfl := (List.cons.inj hr).1
      rw [List.concat_eq_append] at hlater
      refine .inr ⟨⟨before, later, hruns, fun x hx => hlater x (List.mem_append_left _ hx)⟩, ?_⟩
      exact hlater r' (List.mem_append_right _ (List.mem_singleton_self r'))
  · rintro (rfl | ⟨⟨before, later, rfl, hlater⟩, hne⟩)
    · exact ⟨runs, [], rfl, nofun⟩
    · refine ⟨before, later ++ [r'], by simp, fun x hx => ?_⟩
      rcases List.mem_append.mp hx with hx | hx
      · exact hlater x hx
      · rw [List.mem_singleton.mp hx]
        exact hne

/-- **The report of a language is the one of its last run.** -/
theorem languages_eq_some {runs : List Run} {l : Language} {v : LangReport} :
    languages runs l = some v ↔ ∃ r, LastIn r runs ∧ r.lang = l ∧ r.report = v := by
  induction runs using List.reverseRecOn with
  | nil =>
    refine ⟨nofun, ?_⟩
    rintro ⟨r, h, -⟩
    exact absurd h.mem List.not_mem_nil
  | append_singleton runs r ih =>
    rw [languages, List.foldl_append]
    change Function.update (languages runs) r.lang (some r.report) l = some v ↔ _
    simp only [lastIn_append_singleton]
    by_cases hl : l = r.lang
    · subst hl
      rw [Function.update_self, Option.some.injEq]
      constructor
      · exact fun h => ⟨r, .inl rfl, rfl, h⟩
      · rintro ⟨r', rfl | ⟨-, hne⟩, hlang, hreport⟩
        · exact hreport
        · exact absurd hlang.symm hne
    · rw [Function.update_of_ne hl, ih]
      constructor
      · rintro ⟨r', hlast, rfl, hreport⟩
        exact ⟨r', .inr ⟨hlast, fun h => hl h.symm⟩, rfl, hreport⟩
      · rintro ⟨r', rfl | ⟨hlast, -⟩, hlang, hreport⟩
        · exact absurd hlang.symm hl
        · exact ⟨r', hlast, hlang, hreport⟩

theorem run_eq_failed {runs : List Run} : run runs = .failed ↔ ∃ r, LastIn r runs ∧ r.Says := by
  have hany : anyFailed (languages runs) = true ↔ ∃ l v, languages runs l = some v ∧
      v.counts = true := by
    rw [anyFailed, List.any_eq_true]
    constructor
    · rintro ⟨l, -, hl⟩
      obtain ⟨v, hv, hcounts⟩ := (Option.any_eq_true ..).mp hl
      exact ⟨l, v, hv, hcounts⟩
    · rintro ⟨l, v, hv, hcounts⟩
      exact ⟨l, by cases l <;> simp, (Option.any_eq_true ..).mpr ⟨v, hv, hcounts⟩⟩
  have hfailed : run runs = .failed ↔ anyFailed (languages runs) = true := by
    rw [run]
    cases anyFailed (languages runs) <;> simp
  rw [hfailed, hany]
  constructor
  · rintro ⟨l, v, hv, hcounts⟩
    obtain ⟨r, hlast, -, rfl⟩ := languages_eq_some.mp hv
    exact ⟨r, hlast, r.says_iff.mp hcounts⟩
  · rintro ⟨r, hlast, hsays⟩
    exact ⟨r.lang, r.report, languages_eq_some.mpr ⟨r, hlast, rfl, rfl⟩, r.says_iff.mpr hsays⟩

theorem run_ok_or_failed (runs : List Run) : run runs = .ok ∨ run runs = .failed := by
  rw [run]
  cases anyFailed (languages runs) <;> simp

/-- A run that is available is still the last one where the others are left out. -/
theorem LastIn.filter {r : Run} {runs : List Run} (h : LastIn r runs) (hr : r.available = true) :
    LastIn r (runs.filter Run.available) := by
  obtain ⟨before, later, rfl, hlater⟩ := h
  refine ⟨before.filter Run.available, later.filter Run.available, ?_, fun x hx => ?_⟩
  · rw [List.filter_append, List.filter_cons_of_pos hr]
  · exact hlater x (List.mem_of_mem_filter hx)

/-- The verdict says whether something has gone wrong, and what is not available does not change it. -/
def Sound (runs : List Run) : Prop :=
  (run runs = .ok ↔ ∀ r ∈ runs, ¬ r.Wrong) ∧ run (runs.filter Run.available) = run runs

/-- Nothing has gone wrong, or the last run of some language has, and for Rust already in the
compiler. -/
def Told (runs : List Run) : Prop := (∀ r ∈ runs, ¬ r.Wrong) ∨ ∃ r, LastIn r runs ∧ r.Says

/-- **When the verdict is sound.** -/
theorem verdict_iff (runs : List Run) : Sound runs ↔ Told runs := by
  constructor
  · rintro ⟨hverdict, -⟩
    rcases run_ok_or_failed runs with hok | hfailed
    · exact .inl (hverdict.mp hok)
    · exact .inr (run_eq_failed.mp hfailed)
  · rintro (hright | ⟨r, hlast, hsays⟩)
    · have hok : ∀ runs' : List Run, (∀ r ∈ runs', r ∈ runs) → run runs' = .ok := by
        intro runs' hsub
        refine (run_ok_or_failed runs').resolve_right fun hfailed => ?_
        obtain ⟨r, hlast, hsays⟩ := run_eq_failed.mp hfailed
        exact hright r (hsub r hlast.mem) hsays.wrong
      refine ⟨⟨fun _ => hright, fun _ => hok runs fun _ hr => hr⟩, ?_⟩
      rw [hok runs fun _ hr => hr, hok _ fun _ hr => List.mem_of_mem_filter hr]
    · have hfailed := run_eq_failed.mpr ⟨r, hlast, hsays⟩
      have hwrong := hsays.wrong
      refine ⟨⟨fun hok => ?_, fun hright => absurd hwrong (hright r hlast.mem)⟩, ?_⟩
      · rw [hfailed] at hok
        cases hok
      · rw [hfailed, run_eq_failed]
        exact ⟨r, hlast.filter hwrong.available, hsays⟩

/-- A test of Rust that fails. -/
def rustFails : RustRun where
  compile := ⟨some 0, false, [], none⟩
  test := ⟨some 0, false, text "RES\ttest_rename\tfail\tassertion failed\nDONE\n", none⟩
  tests := 1

/-- It is reported as a success. -/
theorem rust_failure_ok : run [.rust rustFails] = .ok ∧ (Run.rust rustFails).Wrong :=
  ⟨by decide +kernel, .inr (.inr ⟨text "RES\ttest_rename\tfail\tassertion failed",
    by decide +kernel, by decide +kernel⟩)⟩

end Fstest.Stdfs
