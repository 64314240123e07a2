import Fstest.Mptest.Token
import Mathlib.Tactic.SplitIfs

/-!
# The interpreter of scripts

`runScript` is the cursor logic of `run_script`: which parts of a script are passed to SQL, and
which commands are carried out, in which order. SQL that has not been passed on yet is the text
between the two cursors `iBegin` and `ii`. What SQL and the commands do is left out, except where it
moves a cursor: the outcome of an `--if` is given with its position in the script, which is enough
because a script has no loop.
-/

namespace Fstest.Mptest

/-- What a run of a script does: it passes the bytes from `b` up to `e` to SQL, or it carries out the
command at `pos`. -/
inductive Event where
  | sql (b e : ℕ)
  | command (pos line : ℕ) (name : Bytes)
  deriving DecidableEq, Repr

/-- What a run depends on: the client (0 is the master), and whether the expression of the `--if` at
a position is true. An error in the expression counts as false. -/
structure Env where
  client : ℕ
  test : ℕ → Bool

/-- The text starts with a command. -/
def isCommand : Bytes → Bool
  | a :: b :: c :: _ => a == dash && b == dash && isAlphabetic c
  | _ => false

/-- The name of the command that a token holds. -/
def commandName (token : Bytes) : Bytes := extractToken (token.drop 2) 29

/-- The SQL before a command is passed on. -/
def flush (iBegin ii : ℕ) : List Event := if iBegin < ii then [.sql iBegin ii] else []

/-- `iBegin` after a command of `len` bytes: it moves behind the command where SQL was passed on. -/
def begun (iBegin ii len : ℕ) : ℕ := if iBegin < ii then ii + len else iBegin

/-- The main loop of `run_script`. -/
def runLoop (env : Env) (z : Bytes) : ℕ → ℕ → ℕ → ℕ → List Event
  | 0, _, _, _ => []
  | fuel + 1, ii, iBegin, line =>
    let rest := z.drop ii
    if rest = [] then flush iBegin ii
    else
      let token := tokenLength rest
      let len := token.1
      let next := line + token.2
      if !isCommand rest then runLoop env z fuel (ii + len) iBegin next
      else
        let name := commandName (rest.take len)
        let begun := begun iBegin ii len
        flush iBegin ii ++ .command ii line name ::
          if name = ascii "exit" then []
          else if name = ascii "if" then
            if env.test ii then runLoop env z fuel (ii + len) begun next
            else
              let skip := findEndif z.length (rest.drop len) true
              runLoop env z fuel (ii + skip.1 + len) begun (next + skip.2)
          else if name = ascii "else" then
            let skip := findEndif z.length (rest.drop len) false
            runLoop env z fuel (ii + skip.1 + len) begun (next + skip.2)
          else if name = ascii "task" ∧ env.client = 0 then
            let task := findEnd z.length (rest.drop len)
            let close := tokenLength (rest.drop (len + task.1))
            let advance := len + task.1 + close.1
            runLoop env z fuel (ii + advance) (ii + advance) (next + task.2 + close.2)
          else runLoop env z fuel (ii + len) begun next

def runScript (env : Env) (z : Bytes) : List Event := runLoop env z (z.length + 1) 0 0 1

/-! ## Token boundaries -/

/-- A cursor at the start of a token, or at the end of the script. -/
structure Boundary (z : Bytes) (ii : ℕ) : Prop where
  le : ii ≤ z.length
  split : ∃ before, lex 0 z = before ++ lex ii (z.drop ii) ∧
    ∀ t ∈ before, t.pos + t.text.length ≤ ii

theorem boundary_zero (z : Bytes) : Boundary z 0 := ⟨Nat.zero_le _, [], rfl, by simp⟩

theorem length_take_tokenLength {z : Bytes} (hz : z ≠ []) :
    (z.take (tokenLength z).1).length = (tokenLength z).1 := by
  rw [List.length_take]
  exact Nat.min_eq_left (tokenLength_bounds hz).2

theorem Boundary.next {z : Bytes} {ii : ℕ} (h : Boundary z ii) (hz : z.drop ii ≠ []) :
    Boundary z (ii + (tokenLength (z.drop ii)).1) := by
  have hlen := tokenLength_bounds hz
  obtain ⟨before, hsplit, hbefore⟩ := h.split
  refine ⟨?_, before ++ [⟨ii, (z.drop ii).take (tokenLength (z.drop ii)).1⟩], ?_, fun t ht => ?_⟩
  · have hle := h.le
    rw [List.length_drop] at hlen
    omega
  · rw [hsplit, lex_cons ii hz, List.append_assoc, List.drop_drop]
    rfl
  · rcases List.mem_append.mp ht with ht | ht
    · have := hbefore t ht
      omega
    · rw [List.mem_singleton.mp ht]
      simp only [length_take_tokenLength hz, Nat.le_refl]

/-- Skipping a block ends at a token. -/
theorem Boundary.findEndif {z : Bytes} {ii : ℕ} (h : Boundary z ii) (fuel : ℕ) (stop : Bool) :
    Boundary z (ii + (findEndif fuel (z.drop ii) stop).1) := by
  induction fuel generalizing ii stop with
  | zero => exact h
  | succ fuel ih =>
    by_cases hz : z.drop ii = []
    · simpa [Mptest.findEndif, hz] using h
    · have hnext := h.next hz
      simp only [Mptest.findEndif, if_neg hz]
      split
      · exact hnext
      · split
        · have hskip := ih hnext false
          have hmore := ih hskip stop
          rw [← List.drop_drop, ← List.drop_drop] at hmore
          rw [← List.drop_drop] at hmore
          simpa only [Nat.add_assoc] using hmore
        · have hmore := ih hnext stop
          rw [← List.drop_drop] at hmore
          simpa only [Nat.add_assoc] using hmore

/-- The bytes that the loop skips behind a command: those of a branch that is not taken. -/
def skipped (env : Env) (z : Bytes) (ii : ℕ) : ℕ :=
  let len := (tokenLength (z.drop ii)).1
  let rest := (z.drop ii).drop len
  let name := commandName ((z.drop ii).take len)
  if name = ascii "if" then if env.test ii then 0 else (findEndif z.length rest true).1
  else if name = ascii "else" then (findEndif z.length rest false).1
  else 0

theorem Boundary.skipped {z : Bytes} {ii : ℕ} (h : Boundary z ii) (hz : z.drop ii ≠ []) (env : Env) :
    Boundary z (ii + skipped env z ii + (tokenLength (z.drop ii)).1) := by
  have hnext := h.next hz
  have hskip : ∀ stop, Boundary z (ii + (Mptest.findEndif z.length
      ((z.drop ii).drop (tokenLength (z.drop ii)).1) stop).1 + (tokenLength (z.drop ii)).1) := by
    intro stop
    have hend := hnext.findEndif z.length stop
    rw [← List.drop_drop] at hend
    rwa [Nat.add_right_comm]
  rw [Mptest.skipped]
  split_ifs
  · exact hnext
  · exact hskip true
  · exact hskip false
  · exact hnext

/-- A command that is neither an `--exit` nor a task of this client: the loop passes on the SQL
before it, carries it out, and goes on behind what it skips. -/
theorem runLoop_command {env : Env} {z : Bytes} {ii : ℕ} (hcmd : isCommand (z.drop ii) = true)
    (hexit : commandName ((z.drop ii).take (tokenLength (z.drop ii)).1) ≠ ascii "exit")
    (htask : ¬ (commandName ((z.drop ii).take (tokenLength (z.drop ii)).1) = ascii "task" ∧
      env.client = 0)) (fuel iBegin line : ℕ) :
    ∃ line', runLoop env z (fuel + 1) ii iBegin line = flush iBegin ii ++
      .command ii line (commandName ((z.drop ii).take (tokenLength (z.drop ii)).1)) ::
        runLoop env z fuel (ii + skipped env z ii + (tokenLength (z.drop ii)).1)
          (begun iBegin ii (tokenLength (z.drop ii)).1) line' := by
  have hz : z.drop ii ≠ [] := by
    intro hnil
    rw [hnil] at hcmd
    cases hcmd
  simp only [runLoop, if_neg hz, hcmd, Bool.not_true, Bool.false_eq_true, if_false, if_neg hexit,
    if_neg htask, skipped]
  split_ifs
  · exact ⟨_, rfl⟩
  · exact ⟨_, rfl⟩
  · exact ⟨_, rfl⟩
  · exact ⟨_, rfl⟩

theorem runLoop_text {env : Env} {z : Bytes} {ii : ℕ} (hz : z.drop ii ≠ [])
    (hcmd : isCommand (z.drop ii) = false) (fuel iBegin line : ℕ) :
    ∃ line', runLoop env z (fuel + 1) ii iBegin line =
      runLoop env z fuel (ii + (tokenLength (z.drop ii)).1) iBegin line' := by
  refine ⟨line + (tokenLength (z.drop ii)).2, ?_⟩
  simp only [runLoop, if_neg hz, hcmd, Bool.not_false, if_true]

end Fstest.Mptest
