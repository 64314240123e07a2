import Fstest.Lib.Lines

/-!
# What the processes print and the harness reads

All processes of a run of `mptest` print to one output: messages, each line of them behind the name of the
process, the lines at the beginning and at the end, and the master's summary. `findings` looks for the
summary and for failures in this output. Whatever is printed, and in whatever order, it finds the counts of
the last summary and the lines of the first error messages, each under the name of its process
(`findings_write`).
-/

namespace Fstest.Mptest

open Text

/-! ## What is printed -/

/-- A process that prints messages. -/
inductive Speaker where
  | master
  | client (pid i : ℕ)
  deriving DecidableEq, Repr

/-- `G.name`. -/
def Speaker.name : Speaker → Text
  | .master => text "mptest"
  | .client pid i => padded 5 pid ++ text ".client" ++ padded 2 i

/-- `log_message`, `error_message` and `fatal_error`. -/
inductive Level where
  | log
  | error
  | fatal
  deriving DecidableEq, Repr

/-- What stands between the name and the message. -/
def Level.mark : Level → Text
  | .log => text ": "
  | .error => text ":ERROR: "
  | .fatal => text ":FATAL: "

/-- What `main` and the messages print. -/
inductive Printed where
  | message (who : Speaker) (level : Level) (msg : Text)
  /-- `BEGIN`, with the program and its arguments. -/
  | opening (argv0 : Text) (args : List Text)
  | version (libversion sourceid : Text)
  | compileOption (name : Text)
  | unlinking (still : Bool) (dbFile : Text)
  | summary (nError nTest : ℕ)
  /-- `END`, with the program and its arguments. -/
  | closing (argv0 : Text) (args : List Text)
  deriving DecidableEq, Repr

/-- `print_with_prefix`, as lines. -/
def printWithPrefix (pre msg : Text) : List Text := (msg.splitOn '\n').map (pre ++ ·)

def Printed.lines : Printed → List Text
  | .message who level msg => printWithPrefix (who.name ++ level.mark) msg
  | .opening argv0 args => [text "BEGIN: " ++ argv0 ++ args.flatMap (' ' :: ·)]
  | .version libversion sourceid => [text "With SQLite " ++ libversion ++ ' ' :: sourceid]
  | .compileOption name => [text "-DSQLITE_" ++ name]
  | .unlinking still dbFile =>
    [text "... " ++ (if still then text "still " else []) ++ text "trying to unlink '" ++ dbFile ++
      text "'"]
  | .summary nError nTest =>
    [text "Summary: " ++ decimal nError ++ text " errors out of " ++ decimal nTest ++ text " tests"]
  | .closing argv0 args => [text "END: " ++ argv0 ++ args.flatMap (' ' :: ·)]

/-- The output of processes that have printed these lines in this order. -/
def write (out : List Printed) : Text := unlines (out.flatMap Printed.lines)

/-! ## What is read -/

structure Findings where
  errors : ℕ := 0
  tests : ℕ := 0
  summarySeen : Bool := false
  failures : List (Text × Text) := []
  deriving DecidableEq, Repr

/-- What stands behind `Summary: `. -/
def Findings.readSummary (f : Findings) (rest : Text) : Findings :=
  let words := splitWhitespace rest
  { f with
    errors := (words[0]?.bind parseU64).getD 0
    tests := (words[4]?.bind parseU64).getD 0
    summarySeen := true }

/-- The last part of the name that stands before a mark. -/
def clientOf (before : Text) : Text := (before.splitOn '.').getLast?.getD []

def Findings.addFailure (f : Findings) (before message : Text) : Findings :=
  if f.failures.length < 20 then { f with failures := f.failures ++ [(clientOf before, message)] } else f

def Findings.readLine (f : Findings) (line : Text) : Findings :=
  match stripPrefix (text "Summary: ") line with
  | some rest => f.readSummary rest
  | none =>
    match splitOnce (text ":ERROR: ") line with
    | some (before, message) => f.addFailure before message
    | none =>
      match splitOnce (text ":FATAL: ") line with
      | some (before, message) => f.addFailure before (text "[fatal] " ++ message)
      | none => f

/-- What is found in the output of a script. -/
def findings (stdout stderr : Text) : Findings :=
  (Text.lines (stdout ++ '\n' :: stderr)).foldl Findings.readLine {}

/-! ## What there is to find -/

/-- How a process is called in the list of failures. -/
def Speaker.short : Speaker → Text
  | .master => text "mptest"
  | .client _ i => text "client" ++ padded 2 i

/-- The failure that a line of a message stands for. -/
def Level.failure (who : Speaker) (l : Text) : Level → Option (Text × Text)
  | .log => none
  | .error => some (who.short, l)
  | .fatal => some (who.short, text "[fatal] " ++ l)

def Printed.failures : Printed → List (Text × Text)
  | .message who level msg => (msg.splitOn '\n').filterMap fun l => level.failure who (stripCr l)
  | _ => []

def Printed.totals : Printed → Option (ℕ × ℕ)
  | .summary nError nTest => some (nError, nTest)
  | _ => none

/-- The last summary and the first failures. -/
def foundIn (out : List Printed) : Findings :=
  let totals := (out.filterMap Printed.totals).getLast?
  { errors := totals.elim 0 Prod.fst
    tests := totals.elim 0 Prod.snd
    summarySeen := totals.isSome
    failures := (out.flatMap Printed.failures).take 20 }

/-- A line that does not look like an error. -/
def Unmarked (l : Text) : Prop := ¬ text ":ERROR: " <:+: l ∧ ¬ text ":FATAL: " <:+: l

/-- Nothing looks like an error that is none, and what is not a message is one line. -/
def Printed.Plain : Printed → Prop
  | .message _ .log msg => ∀ l ∈ msg.splitOn '\n', Unmarked (stripCr l)
  | .message _ .error _ => True
  | .message _ .fatal msg => ∀ l ∈ msg.splitOn '\n', ¬ text ":ERROR: " <:+: stripCr l
  | .summary nError nTest => nError < 2 ^ 64 ∧ nTest < 2 ^ 64
  | p => ∀ l ∈ p.lines, '\n' ∉ l ∧ Unmarked (stripCr l)

/-! ## What a line says -/

def lineTotals (line : Text) : Option (ℕ × ℕ) :=
  (stripPrefix (text "Summary: ") line).map fun rest =>
    (((splitWhitespace rest)[0]?.bind parseU64).getD 0, ((splitWhitespace rest)[4]?.bind parseU64).getD 0)

def lineFailure (line : Text) : Option (Text × Text) :=
  match stripPrefix (text "Summary: ") line with
  | some _ => none
  | none =>
    match splitOnce (text ":ERROR: ") line with
    | some (before, message) => some (clientOf before, message)
    | none => (splitOnce (text ":FATAL: ") line).map fun r => (clientOf r.1, text "[fatal] " ++ r.2)

/-- The summary that has been found. -/
def Findings.totals (f : Findings) : Option (ℕ × ℕ) :=
  if f.summarySeen then some (f.errors, f.tests) else none

/-- What has been found in lines. -/
structure Found (ls : List Text) (f : Findings) : Prop where
  totals : f.totals = (ls.filterMap lineTotals).getLast?
  unseen : f.summarySeen = false → f.errors = 0 ∧ f.tests = 0
  failures : f.failures = (ls.filterMap lineFailure).take 20

section

variable {ls : List Text} {f : Findings} {line before message : Text}

/-- A line that says nothing new about the summary. -/
theorem Found.quiet (h : Found ls f) (hnone : lineTotals line = none) {failures : List (Text × Text)}
    (hfailures : failures = ((ls ++ [line]).filterMap lineFailure).take 20) :
    Found (ls ++ [line]) { f with failures } where
  totals := by
    rw [List.filterMap_append, List.filterMap_cons_none hnone, List.filterMap_nil, List.append_nil]
    exact h.totals
  unseen := h.unseen
  failures := hfailures

theorem take_append_singleton {α : Type} (l : List α) (x : α) (n : ℕ) :
    (l ++ [x]).take n = if (l.take n).length < n then l.take n ++ [x] else l.take n := by
  split
  · rename_i hlt
    have hlen : l.length < n := by
      rw [List.length_take] at hlt
      omega
    rw [List.take_of_length_le (by rw [List.length_append, List.length_singleton]; omega),
      List.take_of_length_le (by omega)]
  · rename_i hge
    rw [List.length_take] at hge
    exact List.take_append_of_le_length (by omega)

theorem Found.addFailure (h : Found ls f) (hnone : lineTotals line = none)
    (hline : lineFailure line = some (clientOf before, message)) :
    Found (ls ++ [line]) (f.addFailure before message) := by
  have hfailures : (f.addFailure before message).failures =
      ((ls ++ [line]).filterMap lineFailure).take 20 := by
    rw [List.filterMap_append, List.filterMap_cons_some hline, List.filterMap_nil, take_append_singleton,
      ← h.failures, Findings.addFailure]
    split <;> rfl
  have hsame : f.addFailure before message =
      { f with failures := (f.addFailure before message).failures } := by
    rw [Findings.addFailure]
    split <;> rfl
  rw [hsame]
  exact h.quiet hnone hfailures

/-- What one line adds. -/
theorem Found.readLine (h : Found ls f) (line : Text) : Found (ls ++ [line]) (f.readLine line) := by
  unfold Findings.readLine
  split
  · rename_i rest hrest
    have htotals : lineTotals line = some (((splitWhitespace rest)[0]?.bind parseU64).getD 0,
        ((splitWhitespace rest)[4]?.bind parseU64).getD 0) := by
      rw [lineTotals, hrest, Option.map_some]
    have hfailure : lineFailure line = none := by
      rw [lineFailure, hrest]
    refine ⟨?_, nofun, ?_⟩
    · rw [List.filterMap_append, List.filterMap_cons_some htotals, List.filterMap_nil,
        List.getLast?_append, List.getLast?_singleton]
      rfl
    · rw [List.filterMap_append, List.filterMap_cons_none hfailure, List.filterMap_nil, List.append_nil]
      exact h.failures
  · rename_i hrest
    have htotals : lineTotals line = none := by
      rw [lineTotals, hrest, Option.map_none]
    split
    · rename_i before message herror
      refine h.addFailure htotals ?_
      rw [lineFailure, hrest, herror]
    · rename_i herror
      split
      · rename_i before message hfatal
        refine h.addFailure htotals ?_
        rw [lineFailure, hrest, herror, hfatal, Option.map_some]
      · rename_i hfatal
        refine h.quiet htotals ?_
        have hfailure : lineFailure line = none := by
          rw [lineFailure, hrest, herror, hfatal, Option.map_none]
        rw [List.filterMap_append, List.filterMap_cons_none hfailure, List.filterMap_nil, List.append_nil]
        exact h.failures

theorem found_lines (ls : List Text) : Found ls (ls.foldl Findings.readLine {}) := by
  induction ls using List.reverseRecOn with
  | nil => exact ⟨rfl, fun _ => ⟨rfl, rfl⟩, rfl⟩
  | append_singleton ls line ih =>
    rw [List.foldl_concat]
    exact ih.readLine line

/-- The findings are determined by what the lines say. -/
theorem Found.eq {out : List Printed} (h : Found ls f)
    (htotals : ls.filterMap lineTotals = out.filterMap Printed.totals)
    (hfailures : ls.filterMap lineFailure = out.flatMap Printed.failures) : f = foundIn out := by
  have hlast := h.totals
  rw [htotals] at hlast
  have hall := h.failures
  rw [hfailures] at hall
  obtain ⟨errors, tests, seen, failures⟩ := f
  cases seen with
  | false =>
    obtain ⟨rfl, rfl⟩ := h.unseen rfl
    have hnone : (out.filterMap Printed.totals).getLast? = none := hlast.symm
    rw [foundIn, hnone, ← hall]
    rfl
  | true =>
    have hsome : (out.filterMap Printed.totals).getLast? = some (errors, tests) := hlast.symm
    rw [foundIn, hsome, ← hall]
    rfl

end

/-! ## What printed lines say -/

section

variable {who : Speaker} {l msg : Text}

theorem colon_not_mem_name (who : Speaker) : ':' ∉ who.name := by
  cases who with
  | master => decide
  | client pid i =>
    intro hmem
    rcases List.mem_append.mp hmem with hmem | hmem
    · rcases List.mem_append.mp hmem with hmem | hmem
      · exact not_mem_padded (by decide) 5 pid hmem
      · exact absurd hmem (by decide)
    · exact not_mem_padded (by decide) 2 i hmem

theorem head?_padded {c : Char} (h : ∀ d : Fin 10, c ≠ Nat.digitChar d) (w n : ℕ) (s : Text) :
    (padded w n ++ s).head? ≠ some c := by
  intro hhead
  have hne : padded w n ≠ [] := by
    rw [padded]
    exact List.append_ne_nil_of_right_ne_nil _ Nat.toDigits_ne_nil
  rw [List.head?_append_of_ne_nil _ hne] at hhead
  exact not_mem_padded h w n (List.mem_of_mem_head? hhead)

/-- No message looks like the summary. -/
theorem head?_name (who : Speaker) (s : Text) : (who.name ++ s).head? ≠ some 'S' := by
  cases who with
  | master => exact (by decide : some 'm' ≠ some 'S')
  | client pid i =>
    rw [Speaker.name, List.append_assoc, List.append_assoc]
    exact head?_padded (by decide) 5 pid _

/-- The last part of the name tells the process. -/
theorem clientOf_name (who : Speaker) : clientOf who.name = who.short := by
  cases who with
  | master => decide +kernel
  | client pid i =>
    have hshort : '.' ∉ text "client" ++ padded 2 i := by
      intro hmem
      rcases List.mem_append.mp hmem with hmem | hmem
      · exact absurd hmem (by decide)
      · exact not_mem_padded (by decide) 2 i hmem
    have hsplit : (Speaker.client pid i).name = padded 5 pid ++ '.' :: (text "client" ++ padded 2 i) :=
      List.append_assoc _ _ _
    rw [clientOf, hsplit, List.splitOn_append_cons_self_of_not_mem (not_mem_padded (by decide) 5 pid),
      List.splitOn_eq_singleton hshort]
    rfl

/-- A line that does not begin as the summary does. -/
theorem not_summary (h : l.head? ≠ some 'S') : stripPrefix (text "Summary: ") (stripCr l) = none := by
  refine stripPrefix_of_not (Bool.eq_false_iff.mpr fun hpre => h ?_)
  obtain ⟨r, hr⟩ := (List.isPrefixOf_iff_prefix.mp hpre).trans (stripCr_isPrefix l)
  rw [← hr]
  rfl

theorem lineTotals_of_head (h : l.head? ≠ some 'S') : lineTotals (stripCr l) = none := by
  rw [lineTotals, not_summary h]
  rfl

theorem Unmarked.lineFailure (h : Unmarked l) : lineFailure l = none := by
  rw [Mptest.lineFailure]
  split
  · rfl
  · rw [splitOnce_eq_none (by decide) h.1, splitOnce_eq_none (by decide) h.2]
    rfl

/-- **A line of a message** is a failure if and only if it is one of an error. -/
theorem lineFailure_message (who : Speaker) {level : Level} (l : Text)
    (hlog : level = .log → Unmarked (stripCr l))
    (hfatal : level = .fatal → ¬ text ":ERROR: " <:+: stripCr l) :
    lineFailure (stripCr (who.name ++ level.mark ++ l)) =
      level.failure who (stripCr l) := by
  have hlast : (who.name ++ level.mark).getLast? ≠ some '\r' := by
    rw [List.getLast?_append_of_ne_nil _ (by cases level <;> decide)]
    cases level <;> decide
  have hnone := not_summary (head?_name who (level.mark ++ l))
  rw [← List.append_assoc, stripCr_append hlast, List.append_assoc] at hnone
  rw [stripCr_append hlast, List.append_assoc, lineFailure, hnone]
  generalize stripCr l = l at hlog hfatal ⊢
  have hname := colon_not_mem_name who
  cases level with
  | log =>
    have hover {sep : Text} (hsep : (':' :: sep).isPrefixOf (':' :: ' ' :: l) = false)
        (h : ¬ ':' :: sep <:+: l) : splitOnce (':' :: sep) (who.name ++ (text ": " ++ l)) = none := by
      have hl := splitOnce_eq_none (List.cons_ne_nil _ _) h
      have hmark : splitOnce (':' :: sep) (text ": " ++ l) = none :=
        splitOnce_cons_eq_none hsep (splitOnce_cons_eq_none rfl hl)
      rw [splitOnce_append hname, hmark]
      rfl
    have herror : splitOnce (text ":ERROR: ") (who.name ++ (text ": " ++ l)) = none :=
      hover rfl (hlog rfl).1
    have hfatal : splitOnce (text ":FATAL: ") (who.name ++ (text ": " ++ l)) = none :=
      hover rfl (hlog rfl).2
    rw [Level.mark, herror, hfatal]
    rfl
  | error =>
    have herror : splitOnce (text ":ERROR: ") (who.name ++ (text ":ERROR: " ++ l)) = some (who.name, l) :=
      splitOnce_mark hname l
    rw [Level.mark, herror]
    exact congrArg (fun n => some (n, l)) (clientOf_name who)
  | fatal =>
    have hmark : splitOnce (text ":ERROR: ") (text ":FATAL: " ++ l) = none := by
      have hl := splitOnce_eq_none (by decide) (hfatal rfl)
      iterate 8 refine splitOnce_cons_eq_none rfl ?_
      exact hl
    have herror : splitOnce (text ":ERROR: ") (who.name ++ (text ":FATAL: " ++ l)) = none :=
      (splitOnce_append hname _).trans (congrArg (Option.map _) hmark)
    have hfatal : splitOnce (text ":FATAL: ") (who.name ++ (text ":FATAL: " ++ l)) = some (who.name, l) :=
      splitOnce_mark hname l
    rw [Level.mark, herror, hfatal]
    exact congrArg (fun n => some (n, text "[fatal] " ++ l)) (clientOf_name who)

/-- **The summary reads back.** -/
theorem lineTotals_summary {nError nTest : ℕ} (he : nError < 2 ^ 64) (ht : nTest < 2 ^ 64) :
    lineTotals (text "Summary: " ++
      (decimal nError ++ text " errors out of " ++ decimal nTest ++ text " tests")) =
        some (nError, nTest) := by
  have hwords : decimal nError ++ text " errors out of " ++ decimal nTest ++ text " tests" =
      decimal nError ++
        [text "errors", text "out", text "of", decimal nTest, text "tests"].flatMap (' ' :: ·) := by
    rw [List.append_assoc, List.append_assoc]
    exact congrArg (decimal nError ++ ·) (by simp [text])
  have hdecimal : ∀ n, decimal n ≠ [] ∧ IsWord (decimal n) := fun n =>
    ⟨Nat.toDigits_ne_nil, isWord_toDigits (by decide) (by decide) n⟩
  have hall : ∀ w ∈ [decimal nError, text "errors", text "out", text "of", decimal nTest, text "tests"],
      w ≠ [] ∧ IsWord w := by
    intro w hw
    simp only [List.mem_cons, List.not_mem_nil, or_false] at hw
    rcases hw with rfl | rfl | rfl | rfl | rfl | rfl
    · exact hdecimal nError
    · decide
    · decide
    · decide
    · exact hdecimal nTest
    · decide
  rw [lineTotals, stripPrefix_append, Option.map_some, hwords, splitWhitespace_words hall]
  simp only [List.getElem?_cons_zero, List.getElem?_cons_succ, Option.bind_some, parseU64_decimal he,
    parseU64_decimal ht, Option.getD_some]

theorem newline_not_mem_mark (level : Level) : '\n' ∉ level.mark := by
  cases level <;> decide

theorem newline_not_mem_name (who : Speaker) : '\n' ∉ who.name := by
  cases who with
  | master => decide
  | client pid i =>
    intro hmem
    rcases List.mem_append.mp hmem with hmem | hmem
    · rcases List.mem_append.mp hmem with hmem | hmem
      · exact not_mem_padded (by decide) 5 pid hmem
      · exact absurd hmem (by decide)
    · exact not_mem_padded (by decide) 2 i hmem

/-- What is printed stands in lines that say what was meant. -/
structure Said (ls : List Text) (p : Printed) : Prop where
  lines : ∀ l ∈ ls, '\n' ∉ l
  totals : (ls.map stripCr).filterMap lineTotals = p.totals.toList
  failures : (ls.map stripCr).filterMap lineFailure = p.failures

theorem said_message (who : Speaker) {level : Level} {msg : Text}
    (h : (Printed.message who level msg).Plain) :
    Said (Printed.message who level msg).lines (.message who level msg) where
  lines := by
    intro l hl
    obtain ⟨r, hr, rfl⟩ := List.mem_map.mp hl
    intro hmem
    rcases List.mem_append.mp hmem with hmem | hmem
    · rcases List.mem_append.mp hmem with hmem | hmem
      · exact newline_not_mem_name who hmem
      · exact newline_not_mem_mark level hmem
    · exact not_mem_of_mem_splitOn hr hmem
  totals := by
    refine List.filterMap_eq_nil_iff.mpr fun l hl => ?_
    obtain ⟨r, hr, rfl⟩ := List.mem_map.mp hl
    obtain ⟨r, -, rfl⟩ := List.mem_map.mp hr
    rw [List.append_assoc]
    exact lineTotals_of_head (head?_name who _)
  failures := by
    rw [Printed.lines, printWithPrefix, List.map_map, List.filterMap_map, Printed.failures]
    refine List.filterMap_congr fun l hl => lineFailure_message who l ?_ ?_
    · rintro rfl
      exact h l hl
    · rintro rfl
      exact h l hl

/-- A line that is neither a message nor the summary. -/
theorem said_line {p : Printed} {l : Text} (htotals : p.totals = none) (hfailures : p.failures = [])
    (hhead : l.head? ≠ some 'S') (h : ∀ l' ∈ [l], '\n' ∉ l' ∧ Unmarked (stripCr l')) : Said [l] p where
  lines := fun l' hl' => (h l' hl').1
  totals := by
    rw [List.map_singleton, List.filterMap_cons_none (lineTotals_of_head hhead), htotals]
    rfl
  failures := by
    rw [List.map_singleton,
      List.filterMap_cons_none (h l List.mem_cons_self).2.lineFailure, hfailures]
    rfl

theorem said_summary {nError nTest : ℕ} (he : nError < 2 ^ 64) (ht : nTest < 2 ^ 64) :
    Said (Printed.summary nError nTest).lines (.summary nError nTest) := by
  have hblank : OnlyBlanks (text "Summary: " ++
      (decimal nError ++ text " errors out of " ++ decimal nTest ++ text " tests")) := by
    have hdecimal : ∀ n, OnlyBlanks (decimal n) := fun n =>
      (isWord_toDigits (by decide) (by decide) n).onlyBlanks
    refine .append (by decide) (.append (.append (.append (hdecimal nError) ?_) (hdecimal nTest)) ?_)
    · decide
    · decide
  have hline : (Printed.summary nError nTest).lines = [text "Summary: " ++
      (decimal nError ++ text " errors out of " ++ decimal nTest ++ text " tests")] := by
    simp only [Printed.lines, List.append_assoc]
  rw [hline]
  refine ⟨?_, ?_, ?_⟩
  · intro l hl hmem
    obtain rfl := List.mem_singleton.mp hl
    exact absurd (hblank '\n' hmem rfl) (by decide)
  · rw [List.map_singleton, stripCr_of hblank, List.filterMap_cons_some (lineTotals_summary he ht)]
    rfl
  · have hnone : lineFailure (text "Summary: " ++
        (decimal nError ++ text " errors out of " ++ decimal nTest ++ text " tests")) = none := by
      rw [lineFailure, stripPrefix_append]
    rw [List.map_singleton, stripCr_of hblank, List.filterMap_cons_none hnone]
    rfl

theorem Printed.Plain.said {p : Printed} (h : p.Plain) : Said p.lines p := by
  cases p with
  | message who level msg => exact said_message who h
  | summary nError nTest => exact said_summary h.1 h.2
  | opening argv0 args =>
    exact said_line rfl rfl (by rw [List.append_assoc]; exact (by decide : some 'B' ≠ some 'S')) h
  | version libversion sourceid =>
    exact said_line rfl rfl (by rw [List.append_assoc]; exact (by decide : some 'W' ≠ some 'S')) h
  | compileOption name => exact said_line rfl rfl (by decide : some '-' ≠ some 'S') h
  | unlinking still dbFile =>
    refine said_line rfl rfl ?_ h
    simp only [List.append_assoc]
    exact (by decide : some '.' ≠ some 'S')
  | closing argv0 args =>
    exact said_line rfl rfl (by rw [List.append_assoc]; exact (by decide : some 'E' ≠ some 'S')) h

/-- The output of processes, line by line. -/
theorem said_write {out : List Printed} (h : ∀ p ∈ out, p.Plain) :
    (∀ l ∈ out.flatMap Printed.lines, '\n' ∉ l) ∧
    ((out.flatMap Printed.lines).map stripCr).filterMap lineTotals = out.filterMap Printed.totals ∧
    ((out.flatMap Printed.lines).map stripCr).filterMap lineFailure = out.flatMap Printed.failures := by
  induction out with
  | nil => exact ⟨nofun, rfl, rfl⟩
  | cons p out ih =>
    obtain ⟨hp, hrest⟩ := List.forall_mem_cons.mp h
    obtain ⟨hlines, htotals, hfailures⟩ := ih hrest
    obtain ⟨hlines', htotals', hfailures'⟩ := hp.said
    rw [List.flatMap_cons, List.map_append, List.filterMap_append, List.filterMap_append, htotals, htotals',
      hfailures, hfailures']
    refine ⟨List.forall_mem_append.mpr ⟨hlines', hlines⟩, ?_, rfl⟩
    cases htotal : p.totals with
    | none => rw [List.filterMap_cons_none htotal]; rfl
    | some totals => rw [List.filterMap_cons_some htotal]; rfl

/-- What the harness finds in the output of processes. -/
theorem found_write {out : List Printed} {stderr : Text} (hout : ∀ p ∈ out, p.Plain)
    (herr : ∀ l ∈ Text.lines stderr, ¬ text "Summary: " <+: l ∧ Unmarked l) :
    ∃ ls, Found ls (findings (write out) stderr) ∧ ls.filterMap lineTotals = out.filterMap Printed.totals ∧
      ls.filterMap lineFailure = out.flatMap Printed.failures := by
  obtain ⟨hlines, htotals, hfailures⟩ := said_write hout
  have hall : Text.lines (write out ++ '\n' :: stderr) =
      (out.flatMap Printed.lines).map stripCr ++ [] :: Text.lines stderr := by
    rw [write, lines_unlines hlines, ← List.nil_append ('\n' :: stderr), lines_cons List.not_mem_nil]
    rfl
  have hquiet : ∀ l ∈ [] :: Text.lines stderr, lineTotals l = none ∧ lineFailure l = none := by
    refine List.forall_mem_cons.mpr ⟨by decide, fun l hl => ⟨?_, (herr l hl).2.lineFailure⟩⟩
    rw [lineTotals, stripPrefix_of_not (Bool.eq_false_iff.mpr fun hpre =>
      (herr l hl).1 (List.isPrefixOf_iff_prefix.mp hpre))]
    rfl
  refine ⟨_, found_lines _, ?_, ?_⟩
  · rw [hall, List.filterMap_append, htotals, List.filterMap_eq_nil_iff.mpr fun l hl => (hquiet l hl).1,
      List.append_nil]
  · rw [hall, List.filterMap_append, hfailures, List.filterMap_eq_nil_iff.mpr fun l hl => (hquiet l hl).2,
      List.append_nil]

/-- **What the harness finds is what the processes have printed**, in whatever order: the counts of the last
summary, and a failure for each line of the first error messages, under the name of its process. -/
theorem findings_write {out : List Printed} {stderr : Text} (hout : ∀ p ∈ out, p.Plain)
    (herr : ∀ l ∈ Text.lines stderr, ¬ text "Summary: " <+: l ∧ Unmarked l) :
    findings (write out) stderr = foundIn out := by
  obtain ⟨ls, hfound, htotals, hfailures⟩ := found_write hout herr
  exact hfound.eq htotals hfailures

/-- A client fails while the other one logs, before the master sums up. -/
def twoClients : List Printed :=
  [.message (.client 17 1) .log (text "begin a (1)"),
    .message (.client 4711 2) .error (text "line 3\nexpected [1]"),
    .message (.client 17 1) .log (text "end a (1)"), .summary 1 2]

theorem findings_twoClients : findings (write twoClients) [] =
    { errors := 1, tests := 2, summarySeen := true,
      failures := [(text "client02", text "line 3"), (text "client02", text "expected [1]")] } := by
  have hplain : ∀ p ∈ twoClients, p.Plain := by
    simp only [twoClients, List.forall_mem_cons]
    refine ⟨?_, trivial, ?_, ⟨by decide, by decide⟩, nofun⟩
    · simp only [Printed.Plain, Unmarked]
      decide +kernel
    · simp only [Printed.Plain, Unmarked]
      decide +kernel
  exact findings_write hplain nofun

end

end Fstest.Mptest
