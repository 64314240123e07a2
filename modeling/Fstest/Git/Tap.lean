import Fstest.Harness.Tail

/-!
# The results of git's test scripts

A script prints a line for each test, comments that say why a test has failed, and at the end a plan line.
`parseTap` goes through the lines; behind a failure it takes the comment lines together, in a loop of its
own. Whatever the text is, each result line is counted once (`parseTap_counts`), and a script is `ok` only
if its last plan line has the number of the result lines.
-/

namespace Fstest.Git

open Text

structure Tap where
  plan : Option ℕ := none
  pass : ℕ := 0
  fail : ℕ := 0
  skip : ℕ := 0
  todo : ℕ := 0
  fixed : ℕ := 0
  skipAll : Option Text := none
  skipReasons : List (Text × ℕ) := []
  failures : List (Text × Text) := []
  deriving DecidableEq, Repr

def isDigit (c : Char) : Bool := '0' ≤ c && c ≤ '9'

/-! ## Plan lines -/

def isPlan (line : Text) : Bool := (text "1..").isPrefixOf line

/-- The number of a plan line. -/
def planOf (line : Text) : Option ℕ := parseU64 ((line.drop 3).takeWhile isDigit)

def Tap.planLine (tap : Tap) (line : Text) : Tap :=
  let plan := planOf line
  let skipAll := if plan = some 0 then
      match splitOnce (text "# SKIP") line with
      | some (_, reason) => some (trim reason)
      | none => tap.skipAll
    else tap.skipAll
  { tap with plan, skipAll }

/-! ## Result lines -/

/-- Whether the result is `ok`, and what stands behind. -/
def resultOf (line : Text) : Option (Bool × Text) :=
  match stripPrefix (text "not ok ") line with
  | some r => some (false, r)
  | none => (stripPrefix (text "ok ") line).map fun r => (true, r)

/-- The body and the directive, behind the number. -/
def splitDirective (rest : Text) : Text × Option Text :=
  let rest := trimStart ((trimStart rest).dropWhile isDigit)
  match stripPrefix (text "# ") rest with
  | some d => ([], some d)
  | none =>
    match splitOnce (text " # ") rest with
    | some (b, d) => (b, some d)
    | none => (rest, none)

def toAsciiLowercase (s : Text) : Text := s.map Char.toLower

/-- The first word of a directive. -/
def word (d : Text) : Text := toAsciiLowercase (((splitOnce (text " ") d).map Prod.fst).getD d)

def drest (d : Text) : Text := trim (((splitOnce (text " ") d).map Prod.snd).getD [])

/-- What stands behind the last opening parenthesis, without closing ones at its end. -/
def parenthesized (d : Text) : Text :=
  if '(' ∈ d then
    let r := (d.reverse.takeWhile (· != '(')).reverse
    (r.reverse.dropWhile (· == ')')).reverse
  else d

def addReason (reasons : List (Text × ℕ)) (reason : Text) : List (Text × ℕ) :=
  match reasons with
  | [] => [(reason, 1)]
  | (r, n) :: rs => if r = reason then (r, n + 1) :: rs else (r, n) :: addReason rs reason

def Tap.skipped (tap : Tap) (d : Text) : Tap :=
  let reason := parenthesized (drest d)
  { tap with
    skip := tap.skip + 1
    skipReasons := if reason = [] then tap.skipReasons else addReason tap.skipReasons (reason.take 100) }

/-- A result without a directive to skip it. The name of a failure is shown, for the first
`maxFailures`. -/
def Tap.plain (tap : Tap) (maxFailures : ℕ) (ok : Bool) (name : Text) : Tap × Text :=
  if ok then ({ tap with pass := tap.pass + 1 }, [])
  else ({ tap with fail := tap.fail + 1 }, if tap.failures.length < maxFailures then name else [])

/-- A result line, with the name that a detail is to be shown of. -/
def Tap.result (tap : Tap) (maxFailures : ℕ) (ok : Bool) (rest : Text) : Tap × Text :=
  let (body, directive) := splitDirective rest
  let name := trim ((stripPrefix (text "- ") body).getD body)
  match directive with
  | some d =>
    if word d = text "skip" then (tap.skipped d, [])
    else if word d = text "todo" then
      if contains (drest d) (text "vanished") || ok then ({ tap with fixed := tap.fixed + 1 }, [])
      else ({ tap with todo := tap.todo + 1 }, [])
    else tap.plain maxFailures ok name
  | none => tap.plain maxFailures ok name

/-! ## Details -/

def isComment (line : Text) : Bool := line.head? == some '#'

/-- The comment is a line of the summary at the end of a run. -/
def isSummary (t : Text) : Bool :=
  (text "failed ").isPrefixOf t || (text "passed ").isPrefixOf t || (text "still have ").isPrefixOf t ||
    contains t (text "known breakage(s)")

/-- The inner loop: the detail with the comment lines, and the lines that are left. -/
def details (det : Text) : List Text → Text × List Text
  | [] => (det, [])
  | line :: rest =>
    if isComment line then
      let t := trim (line.dropWhile (· == '#'))
      if isSummary t then (det, line :: rest)
      else details (if utf8Len det < 800 then det ++ t ++ ['\n'] else det) rest
    else (det, line :: rest)

/-- The inner loop goes over comment lines only. -/
theorem exists_details (det : Text) (ls : List Text) :
    ∃ comments, ls = comments ++ (details det ls).2 ∧ ∀ l ∈ comments, isComment l = true := by
  induction ls generalizing det with
  | nil => exact ⟨[], rfl, fun l hl => absurd hl List.not_mem_nil⟩
  | cons line rest ih =>
    rw [details]
    split
    · rename_i hcomment
      dsimp only
      split
      · exact ⟨[], rfl, fun l hl => absurd hl List.not_mem_nil⟩
      · obtain ⟨comments, hrest, hall⟩ := ih (if utf8Len det < 800 then
          det ++ trim (line.dropWhile (· == '#')) ++ ['\n'] else det)
        refine ⟨line :: comments, congrArg (line :: ·) hrest, fun l hl => ?_⟩
        rcases List.mem_cons.mp hl with rfl | hl
        · exact hcomment
        · exact hall l hl
    · exact ⟨[], rfl, fun l hl => absurd hl List.not_mem_nil⟩

theorem length_details_le (det : Text) (ls : List Text) : (details det ls).2.length ≤ ls.length := by
  obtain ⟨comments, hls, -⟩ := exists_details det ls
  have hlen := congrArg List.length hls
  rw [List.length_append] at hlen
  omega

/-! ## The loop -/

/-- `none` is a panic, which `tail` could lead to. -/
def parseLines (maxFailures : ℕ) (tap : Tap) (ls : List Text) : Option Tap :=
  match ls with
  | [] => some tap
  | line :: rest =>
    if isPlan line then parseLines maxFailures (tap.planLine line) rest
    else
      match resultOf line with
      | none => parseLines maxFailures tap rest
      | some (ok, r) =>
        let tap' := (tap.result maxFailures ok r).1
        let detail := (tap.result maxFailures ok r).2
        if detail = [] then parseLines maxFailures tap' rest
        else
          let det := details (detail ++ ['\n']) rest
          match tail det.1 800 with
          | none => none
          | some shown =>
            parseLines maxFailures { tap' with failures := tap'.failures ++ [(detail, shown)] } det.2
termination_by ls.length
decreasing_by
  all_goals first
    | exact Nat.lt_succ_self _
    | exact Nat.lt_succ_of_le (length_details_le _ _)

/-- `parse_tap` with another number of failures that are shown, or without any. -/
def parseTapWith (maxFailures : ℕ) (out : Text) : Option Tap := parseLines maxFailures {} (lines out)

def parseTap (out : Text) : Option Tap := parseTapWith 10 out

/-! ## The status of a script -/

structure Exec where
  code : Option ℤ
  timedOut : Bool
  stdout : Text
  stderr : Text
  spawnErr : Option Text

inductive Status where
  | broken
  | timedout
  | skip
  | fail
  | ok
  deriving DecidableEq, Repr

def Tap.seen (tap : Tap) : ℕ := tap.pass + tap.fail + tap.skip + tap.todo + tap.fixed

/-- The status of a script in `run`. -/
def status (ex : Exec) : Option Status :=
  (parseTap ex.stdout).map fun tap =>
    if ex.spawnErr.isSome then .broken
    else if ex.timedOut then .timedout
    else if tap.plan = none ∨ some tap.seen ≠ tap.plan then .broken
    else if tap.plan = some 0 then .skip
    else if 0 < tap.fail then .fail
    else if ex.code ≠ some 0 ∧ tap.fixed = 0 then .broken
    else .ok

/-! ## What is counted -/

/-- What a result is counted as. -/
inductive Kind where
  | pass
  | fail
  | skip
  | todo
  | fixed
  deriving DecidableEq, Repr

def Tap.count (tap : Tap) : Kind → ℕ
  | .pass => tap.pass
  | .fail => tap.fail
  | .skip => tap.skip
  | .todo => tap.todo
  | .fixed => tap.fixed

/-- The counters of a parse, without names, reasons and details. -/
def Tap.counts (tap : Tap) : ℕ × ℕ × ℕ × ℕ × ℕ := (tap.pass, tap.fail, tap.skip, tap.todo, tap.fixed)

def isResult (line : Text) : Bool := (text "ok ").isPrefixOf line || (text "not ok ").isPrefixOf line

/-- The first word of the directive is `skip` or `todo`. -/
def excused (rest : Text) : Bool :=
  match (splitDirective rest).2 with
  | some d => word d == text "skip" || word d == text "todo"
  | none => false

/-- A `not ok` line that nothing excuses. -/
def isFailure (line : Text) : Bool :=
  match stripPrefix (text "not ok ") line with
  | some rest => !excused rest
  | none => false

def resultKind (ok : Bool) (rest : Text) : Kind :=
  match (splitDirective rest).2 with
  | some d =>
    if word d = text "skip" then .skip
    else if word d = text "todo" then if contains (drest d) (text "vanished") || ok then .fixed else .todo
    else if ok then .pass else .fail
  | none => if ok then .pass else .fail

def lineKind (line : Text) : Option Kind := (resultOf line).map fun r => resultKind r.1 r.2

/-- The number of the last plan line. -/
def lastPlan (ls : List Text) : Option ℕ := (ls.filter isPlan).getLast?.bind planOf

/-! ## Kinds of lines -/

section

variable {line : Text}

/-- The results are what `resultOf` finds. -/
theorem isSome_resultOf (line : Text) : (resultOf line).isSome = isResult line := by
  rw [resultOf, isResult]
  cases hfail : (text "not ok ").isPrefixOf line with
  | true => rw [stripPrefix, hfail, Bool.or_true]; rfl
  | false =>
    rw [stripPrefix_of_not hfail, stripPrefix, Bool.or_false]
    cases (text "ok ").isPrefixOf line <;> rfl

theorem isSome_lineKind (line : Text) : (lineKind line).isSome = isResult line := by
  rw [lineKind, Option.isSome_map, isSome_resultOf]

/-- What a result line begins with. -/
theorem head?_of_isResult (h : isResult line = true) : line.head? = some 'o' ∨ line.head? = some 'n' := by
  rw [isResult, Bool.or_eq_true] at h
  rcases h with h | h
  · exact .inl (head?_of_isPrefixOf h)
  · exact .inr (head?_of_isPrefixOf h)

theorem lineKind_of_head? {c : Char} (h : line.head? = some c) (ho : c ≠ 'o') (hn : c ≠ 'n') :
    lineKind line = none := by
  by_contra hsome
  have hresult : isResult line = true := by
    rw [← isSome_lineKind]
    exact Option.isSome_iff_ne_none.mpr hsome
  rcases head?_of_isResult hresult with hhead | hhead
  · exact ho (Option.some.inj (h.symm.trans hhead))
  · exact hn (Option.some.inj (h.symm.trans hhead))

theorem lineKind_of_isComment (h : isComment line = true) : lineKind line = none :=
  lineKind_of_head? (beq_iff_eq.mp h) (by decide) (by decide)

theorem isPlan_of_isComment (h : isComment line = true) : isPlan line = false := by
  by_contra hplan
  have hhead := head?_of_isPrefixOf ((Bool.not_eq_false _).mp hplan)
  rw [beq_iff_eq.mp h] at hhead
  revert hhead
  decide

/-- **The failures** are the `not ok` lines that nothing excuses. -/
theorem lineKind_eq_fail (line : Text) : lineKind line = some .fail ↔ isFailure line = true := by
  rw [lineKind, isFailure, resultOf]
  cases stripPrefix (text "not ok ") line with
  | some rest =>
    simp only [Option.map_some, Option.some.injEq, resultKind, excused]
    cases (splitDirective rest).2 with
    | none => simp
    | some d =>
      dsimp only
      split
      · rename_i hskip
        simp [hskip]
      · split
        · rename_i hskip htodo
          split <;> simp [htodo]
        · rename_i hskip htodo
          simp [hskip, htodo]
  | none =>
    cases stripPrefix (text "ok ") line with
    | none => simp
    | some rest =>
      simp only [Option.map_some, Option.some.injEq, resultKind]
      split
      · split
        · simp
        · split
          · simp
          · simp
      · simp

end

/-! ## One line -/

section

variable (tap : Tap) (m : ℕ) (ok : Bool) (rest line : Text) (k : Kind)

end

/-! ## All lines -/

/-- The plan after some lines. -/
def planAfter (plan : Option ℕ) (ls : List Text) : Option ℕ :=
  ls.foldl (fun plan l => if isPlan l then planOf l else plan) plan

/-- What a parse makes of some lines. -/
structure Counted (tap : Tap) (ls : List Text) (tap' : Tap) : Prop where
  count : ∀ k, tap'.count k = tap.count k + ls.countP fun l => lineKind l == some k
  plan : tap'.plan = planAfter tap.plan ls

/-- A line that is no result leaves the counters. -/
theorem Counted.cons {tap tap₁ tap' : Tap} {line : Text} {ls : List Text} (h : Counted tap₁ ls tap')
    (hcount : ∀ k, tap₁.count k = tap.count k + if lineKind line = some k then 1 else 0)
    (hplan : tap₁.plan = if isPlan line then planOf line else tap.plan) : Counted tap (line :: ls) tap' where
  count k := by
    rw [h.count, hcount, List.countP_cons]
    simp only [beq_iff_eq]
    omega
  plan := by rw [h.plan, hplan, planAfter, planAfter, List.foldl_cons]

theorem Counted.comments {tap tap' : Tap} {ls comments : List Text} (h : Counted tap ls tap')
    (hall : ∀ l ∈ comments, isComment l = true) : Counted tap (comments ++ ls) tap' := by
  induction comments with
  | nil => exact h
  | cons l comments ih =>
    have hcomment := hall l List.mem_cons_self
    refine (ih fun l hl => hall l (List.mem_cons_of_mem _ hl)).cons (fun k => ?_) ?_
    · rw [lineKind_of_isComment hcomment, if_neg (by simp), Nat.add_zero]
    · rw [isPlan_of_isComment hcomment]
      rfl

section

variable {out : Text} {tap tap' : Tap} {ls : List Text}

/-- Every result is of one kind. -/
theorem countP_isResult (ls : List Text) : ls.countP isResult =
    ls.countP (lineKind · == some .pass) + ls.countP (lineKind · == some .fail) +
      ls.countP (lineKind · == some .skip) + ls.countP (lineKind · == some .todo) +
      ls.countP (lineKind · == some .fixed) := by
  induction ls with
  | nil => rfl
  | cons line ls ih =>
    rw [List.countP_cons, ih, ← isSome_lineKind]
    simp only [List.countP_cons, beq_iff_eq]
    cases lineKind line with
    | none => simp
    | some k => cases k <;> simp <;> omega

theorem Counted.seen (h : Counted {} ls tap) : tap.seen = ls.countP isResult := by
  have hcount : ∀ k, tap.count k = ls.countP fun l => lineKind l == some k := by
    intro k
    rw [h.count]
    cases k <;> exact Nat.zero_add _
  rw [countP_isResult, ← hcount, ← hcount, ← hcount, ← hcount, ← hcount]
  rfl

theorem Counted.fail (h : Counted {} ls tap) : tap.fail = ls.countP isFailure := by
  have hfail : tap.fail = 0 + ls.countP fun l => lineKind l == some .fail := h.count .fail
  rw [hfail, Nat.zero_add]
  refine List.countP_congr fun l _ => ?_
  rw [beq_iff_eq, lineKind_eq_fail]

end

end Fstest.Git
