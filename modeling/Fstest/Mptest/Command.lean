import Fstest.Lib.Utf8
import Fstest.Mptest.Script
import Mathlib.Algebra.Group.Int.Defs
import Mathlib.Data.Int.Notation

/-!
# The commands of a script

What `run_script` reads from the token of a command: its name, its arguments, and for a `--task`
also the script that follows. A command is kept as far as it matters to other processes and to the
counters; what it prints and how long it sleeps is left out. The arguments of a command in UTF-8 are its
words (`commandArgs_words`).
-/

namespace Fstest.Mptest

open Text

/-- The number at the start of an argument, behind white space; 0 if there is none or it is no `i64`. -/
def atoi (s : Text) : ℤ :=
  let t := trimStart s
  let negative := t.head? = some '-'
  let body := if t.head? = some '-' ∨ t.head? = some '+' then t.tail else t
  let abs := (body.takeWhile Char.isDigit).foldl (fun (n : ℤ) d => 10 * n + (d.toNat - 48)) 0
  let n := if negative then -abs else abs
  if -2 ^ 63 ≤ n ∧ n < 2 ^ 63 then n else 0

/-- A space that is not ASCII belongs to the argument, and `trim_start` removes it. -/
example : atoi (fromUtf8Lossy [0xC2, 0xA0, 53]) = 5 := by decide +kernel

/-- The words of `z`, at most `left`, each of 99 bytes at most. The next one is looked for as many bytes
further on as the last one has after `from_utf8_lossy`. -/
def argsFrom : ℕ → Bytes → List Text
  | 0, _ => []
  | left + 1, z =>
    let rest := z.dropWhile isSpace
    if rest = [] then []
    else
      let arg := fromUtf8Lossy (extractToken rest 99)
      arg :: argsFrom left (rest.drop (utf8Len arg))

/-- The arguments of a command: the words after its name, at most two. -/
def commandArgs (span : Bytes) : List Text :=
  argsFrom 2 (span.drop (utf8Len (fromUtf8Lossy (extractToken span 29))))

/-- A word in UTF-8 that fits into a buffer of `cap` bytes. -/
structure OneWord (cap : ℕ) (w : Text) : Prop where
  ne : w ≠ []
  short : utf8Len w ≤ cap
  solid : ∀ b ∈ toUtf8 w, isSpace b = false

theorem extractToken_word {cap : ℕ} {w : Text} {r : Bytes} (h : OneWord cap w)
    (hr : ∀ b ∈ r.head?, isSpace b = true) : extractToken (toUtf8 w ++ r) cap = toUtf8 w := by
  have hlen : (toUtf8 w).length ≤ cap := (length_toUtf8 w).trans_le h.short
  have hmore : ∀ b ∈ (r.take (cap - (toUtf8 w).length)).head?, isSpace b = true := fun b hb => by
    rw [List.head?_take] at hb
    split at hb
    · cases hb
    · exact hr b hb
  rw [extractToken, List.take_append, List.take_of_length_le hlen,
    List.takeWhile_append_of_pos fun b hb => by rw [h.solid b hb, Bool.not_false]]
  -- what is left begins with white space, if there is any room for it
  generalize r.take (cap - (toUtf8 w).length) = more at hmore
  cases more with
  | nil => rw [List.takeWhile_nil, List.append_nil]
  | cons b more =>
    rw [List.takeWhile_cons_of_neg (by rw [hmore b rfl]; decide), List.append_nil]

/-- White space and words, one after the other. -/
def spaced (ws : List Text) : Bytes := ws.flatMap fun w => 32 :: toUtf8 w

theorem head?_spaced (ws : List Text) : ∀ b ∈ (spaced ws).head?, isSpace b = true := by
  cases ws with
  | nil => exact fun b hb => absurd hb (Option.not_mem_none b)
  | cons w ws =>
    rintro b hb
    cases hb
    decide

theorem argsFrom_spaced {ws : List Text} (h : ∀ w ∈ ws, OneWord 99 w) (left : ℕ) :
    argsFrom left (spaced ws) = ws.take left := by
  induction left generalizing ws with
  | zero => rfl
  | succ left ih =>
    cases ws with
    | nil => rfl
    | cons w ws =>
      obtain ⟨hw, hws⟩ := List.forall_mem_cons.mp h
      obtain ⟨b, t, hbytes⟩ := List.exists_cons_of_ne_nil (toUtf8_ne_nil hw.ne)
      have hb : isSpace b = false := hw.solid b (hbytes ▸ List.mem_cons_self)
      have hrest : (spaced (w :: ws)).dropWhile isSpace = toUtf8 w ++ spaced ws := by
        rw [spaced, List.flatMap_cons, List.cons_append, List.dropWhile_cons_of_pos (by decide), hbytes,
          List.cons_append, List.dropWhile_cons_of_neg (by rw [hb]; decide)]
        rfl
      have hdrop : (toUtf8 w ++ spaced ws).drop (utf8Len w) = spaced ws := by
        rw [← length_toUtf8, List.drop_left]
      rw [argsFrom, hrest, if_neg (List.append_ne_nil_of_left_ne_nil (toUtf8_ne_nil hw.ne) _),
        extractToken_word hw (head?_spaced ws), fromUtf8Lossy_toUtf8]
      simp only [hdrop, ih hws, List.take_succ_cons]

/-- **The arguments of a command in UTF-8** are the first two words behind its name. -/
theorem commandArgs_words {name : Text} {ws : List Text} (hname : OneWord 29 name)
    (h : ∀ w ∈ ws, OneWord 99 w) : commandArgs (toUtf8 name ++ spaced ws) = ws.take 2 := by
  rw [commandArgs, extractToken_word hname (head?_spaced ws), fromUtf8Lossy_toUtf8, ← length_toUtf8,
    List.drop_left, argsFrom_spaced h]

/-- A byte that is no UTF-8 becomes three, so the search for the second argument begins too far on. -/
example : commandArgs (ascii "wait " ++ [0xFF] ++ ascii " 12") = [['\uFFFD'], ['2']] := by decide +kernel

/-- The part of a file name after the last slash. -/
def filenameTail (name : Bytes) : Bytes := (name.reverse.takeWhile (· != slash)).reverse

/-- `boolean_value` knows the argument. -/
def isBoolean (arg : Text) : Bool :=
  (decide (atoi arg ≠ 0) && (arg.all fun c => c.isDigit || c == '+' || c == '-') && arg.any Char.isDigit) ||
    (["on", "yes", "off", "no"].map text).contains (arg.map Char.toLower)

/-- A command, with the arguments that it uses. -/
inductive Command where
  /-- It works on the process alone: `--sleep`, `--if` and so on. -/
  | quiet
  | exit (rc : ℤ)
  | finish
  /-- `--match`, `--glob` and `--notglob`. -/
  | compare
  | source (name : Bytes)
  | start (client : ℤ)
  | wait (client : ℤ)
  | task (client : ℤ) (name script : Bytes)
  | showSqlErrors (arg : Option Text)
  | unknown
  deriving DecidableEq, Repr

def quietCommands : List Bytes :=
  ["sleep", "testcase", "reset", "output", "print", "if", "else", "endif", "breakpoint"].map ascii

/-- The command at `pos` of the script `z`, as `client` reads it. Its name and arguments are decoded, and so
is the script of a task. -/
def parseCommand (client : ℕ) (filename z : Bytes) (pos line : ℕ) : Command :=
  let rest := z.drop pos
  let len := (tokenLength rest).1
  let name := toUtf8 (fromUtf8Lossy (commandName (rest.take len)))
  let args := commandArgs ((rest.take len).drop 2)
  let arg := args.headD []
  if name ∈ quietCommands then .quiet
  else if name = ascii "exit" then .exit (atoi arg)
  else if name = ascii "finish" ∧ 0 < client then .finish
  else if name ∈ ["match", "glob", "notglob"].map ascii then .compare
  else if name = ascii "source" then .source (toUtf8 arg)
  else if name = ascii "start" ∧ client = 0 then .start (atoi arg)
  else if name = ascii "wait" ∧ client = 0 then .wait (atoi arg)
  else if name = ascii "task" ∧ client = 0 then
    let body := rest.drop len
    let default := filenameTail filename ++ ascii ":" ++ ascii (toString line)
    let script := body.take (findEnd z.length body).1
    .task (atoi arg) ((args[1]?.map toUtf8).getD default) (toUtf8 (fromUtf8Lossy script))
  else if name = ascii "show-sql-errors" then .showSqlErrors args.head?
  else .unknown

end Fstest.Mptest
