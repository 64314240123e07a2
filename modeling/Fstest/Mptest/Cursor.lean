import Fstest.Mptest.Indexed

/-!
# The cursors of a run

The loop of `run_script` with its cursors `ii` and `i_begin` and every slice that it takes of the script:
the SQL that it passes on, the name and the arguments of a command, and the text behind `--match`,
`--glob`, `--print`, `--if` and `--task`. `none` is a slice outside the script, or a loop without an end.
Whatever the script, the loop returns, with the events of `runScript` (`runLoop_eq`).

A script that `--source` reads is run by itself, and what SQL does is left out. Line numbers move no
cursor; they are naturals here.
-/

namespace Fstest.Mptest.Indexed

open Scan

/-- What the slices depend on besides the script: the length of a text after `from_utf8_lossy`, and the
level of `--trace`. -/
structure Reader where
  lossyLength : Bytes → ℕ
  trace : ℤ

/-! ## A command -/

section

variable (r : Reader) (z : Bytes) (ii len : ℕ)

/-- The loop over the arguments in the span of a command, from `n` on, at most `left` of them. -/
def argLoop (span : Bytes) : ℕ → ℕ → Option (List Bytes)
  | 0, _ => some []
  | left + 1, n =>
    if n < span.length then do
      let n ← skipWhile (fun i => span[i]?) isSpace span.length (span.length + 1) n
      if span.length ≤ n then some []
      else
        let rest ← sliceFrom span n
        let token ← extractToken rest (span.length - n) 99
        let args ← argLoop span left (n + r.lossyLength token)
        some (token :: args)
    else some []

/-- The command that starts at `ii`, with its arguments. -/
def readCommand : Option (Bytes × List Bytes) := do
  let span ← slice z (ii + 2) (min (ii + len) z.length)
  let name ← extractToken span span.length 29
  let args ← argLoop r span 2 (r.lossyLength name)
  let _ ← if 2 ≤ r.trace then slice z ii (min (ii + len) z.length) else some []
  some (name, args)

/-- What `--match`, `--glob` and `--notglob` compare with. -/
def answerSlice (width : ℕ) : Option Bytes := do
  let last ← subU64 len 1
  let jj ← skipWhile (fun jj => z[ii + jj]?) isSpace last (last + 1) width
  let stop ← subU64 (ii + len) 1
  slice z (min (ii + jj) (min stop z.length)) (min stop z.length)

/-- What `--print` prints and `--if` evaluates. -/
def messageSlice (width : ℕ) : Option Bytes := do
  let jj ← skipWhile (fun jj => z[ii + jj]?) isSpace len (len + 1) width
  slice z (min (ii + jj) z.length) (min (ii + len) z.length)

/-- The text that a command other than `--task` takes from the script. -/
def commandSlice (name : Bytes) : Option Bytes :=
  if name = ascii "testcase" then
    if r.trace = 1 then do
      let stop ← subU64 (ii + len) 1
      slice z ii (min stop z.length)
    else some []
  else if name = ascii "match" then answerSlice z ii len 7
  else if name = ascii "glob" then answerSlice z ii len 6
  else if name = ascii "notglob" then answerSlice z ii len 9
  else if name = ascii "print" then messageSlice z ii len 7
  else if name = ascii "if" then messageSlice z ii len 4
  else some []

/-- `z[ii]` is `c`, and a command starts there. -/
def commandAt (c : UInt8) : Option Bool :=
  andAlso (c == dash) do
    let second ← testAt z (· == dash) (ii + 1)
    andAlso second (testAt z isAlphabetic (ii + 2))

/-- The two cursors. -/
structure Cursors where
  ii : ℕ
  iBegin : ℕ

/-- Where a command of `len` bytes moves the cursors, with the line. -/
def moveOn (env : Env) (iBegin line : ℕ) (name : Bytes) : Option (Cursors × ℕ) :=
  let skipTo (stop : Bool) : Option (Cursors × ℕ) := do
    let rest ← sliceFrom z (ii + len)
    let skip ← findEndif (rest.length + 1) rest stop 0 line
    some (⟨ii + skip.1 + len, iBegin⟩, skip.2)
  if name = ascii "if" then
    if env.test ii then some (⟨ii + len, iBegin⟩, line) else skipTo true
  else if name = ascii "else" then skipTo false
  else if name = ascii "task" ∧ env.client = 0 then do
    let rest ← sliceFrom z (ii + len)
    let task ← findEnd rest (rest.length + 1) 0 line
    -- not taken for a client below 0
    let _ ← slice z (ii + len) (ii + len + task.1)
    let behind ← sliceFrom z (ii + len + task.1)
    let close ← tokenLength behind
    let advance := len + task.1 + close.1
    some (⟨ii + advance, ii + advance⟩, task.2 + close.2)
  else some (⟨ii + len, iBegin⟩, line)

end

/-! ## The loop -/

/-- The SQL between the cursors. -/
def passOn (z : Bytes) (iBegin ii : ℕ) : Option (List Event) :=
  if iBegin < ii then (slice z iBegin ii).map fun _ => [.sql iBegin ii] else some []

/-- The main loop of `run_script`: its events, and where `ii` is at the end. -/
def runLoop (env : Env) (r : Reader) (z : Bytes) : ℕ → Cursors → ℕ → Option (List Event × ℕ)
  | 0, _, _ => none
  | fuel + 1, ⟨ii, iBegin⟩, line =>
    if ii < z.length then do
      let c ← z[ii]?
      let rest ← sliceFrom z ii
      let token ← tokenLength rest
      let len := token.1
      let comment ← andAlso (c == slash) (testAt z (· == star) (ii + 1))
      let command ← andAlso (!(isSpace c || comment)) (commandAt z ii c)
      if !command then runLoop env r z fuel ⟨ii + len, iBegin⟩ (line + token.2)
      else
        let sql ← passOn z iBegin ii
        let cmd ← readCommand r z ii len
        let _ ← commandSlice r z ii len cmd.1
        if cmd.1 = ascii "exit" then some (sql ++ [.command ii line cmd.1], ii)
        else
          let next ← moveOn z ii len env (begun iBegin ii len) (line + token.2) cmd.1
          let more ← runLoop env r z fuel next.1 next.2
          some (sql ++ .command ii line cmd.1 :: more.1, more.2)
    else do
      let sql ← passOn z iBegin ii
      some (sql, ii)

/-- `run_script` -/
def runScript (env : Env) (r : Reader) (z : Bytes) : Option (List Event × ℕ) :=
  runLoop env r z (z.length + 1) ⟨0, 0⟩ 1

/-! ## No slice is outside the script -/

section

variable {r : Reader} {z : Bytes} {ii len : ℕ}

theorem argLoop_some (r : Reader) (span : Bytes) (left n : ℕ) : ∃ args, argLoop r span left n = some args := by
  induction left generalizing n with
  | zero => exact ⟨[], rfl⟩
  | succ left ih =>
    unfold argLoop
    split
    · have hget : ∀ i < span.length, (span[i]?).isSome := fun i hi => by simp [hi]
      obtain ⟨m, hm, hle, hmax⟩ :=
        skipWhile_some isSpace hget (show span.length - n < span.length + 1 by omega)
      rw [hm, Option.bind_eq_bind, Option.bind_some]
      split
      · exact ⟨[], rfl⟩
      · have hlen : span.length - m = (span.drop m).length := List.length_drop.symm
        obtain ⟨args, hargs⟩ := ih (m + r.lossyLength (Mptest.extractToken (span.drop m) 99))
        refine ⟨Mptest.extractToken (span.drop m) 99 :: args, ?_⟩
        rw [sliceFrom_of (by omega), hlen]
        simp only [extractToken_eq, hargs, Option.bind_eq_bind, Option.bind_some]
    · exact ⟨[], rfl⟩

theorem readCommand_eq (h2 : 2 ≤ len) (hle : ii + len ≤ z.length) :
    ∃ args, readCommand r z ii len = some (commandName ((z.drop ii).take len), args) := by
  have hspan : (z.drop (ii + 2)).take (ii + len - (ii + 2)) = ((z.drop ii).take len).drop 2 := by
    rw [List.drop_take, List.drop_drop, Nat.add_sub_add_left]
  obtain ⟨args, hargs⟩ := argLoop_some r (((z.drop ii).take len).drop 2) 2
    (r.lossyLength (Mptest.extractToken (((z.drop ii).take len).drop 2) 29))
  refine ⟨args, ?_⟩
  unfold readCommand
  rw [Nat.min_eq_left hle, slice_of (by omega) hle, hspan, slice_of (by omega) hle]
  simp only [extractToken_eq, hargs, Option.bind_eq_bind, Option.bind_some]
  split <;> rfl

theorem getElem?_isSome {i n : ℕ} (hle : ii + n ≤ z.length) (hi : i < n) : (z[ii + i]?).isSome := by
  rw [List.getElem?_eq_getElem (by omega)]
  rfl

theorem answerSlice_some (h0 : 0 < len) (hle : ii + len ≤ z.length) (width : ℕ) :
    ∃ s, answerSlice z ii len width = some s := by
  have hget : ∀ i < len - 1, (z[ii + i]?).isSome := fun i hi => getElem?_isSome hle (by omega)
  obtain ⟨jj, hjj, -, -⟩ := skipWhile_some isSpace hget (show len - 1 - width < len - 1 + 1 by omega)
  unfold answerSlice
  simp only [subU64_of h0, hjj, subU64_of (show 1 ≤ ii + len by omega), Option.bind_eq_bind,
    Option.bind_some]
  exact ⟨_, slice_of (Nat.min_le_right _ _) (Nat.min_le_right _ _)⟩

theorem messageSlice_some {width : ℕ} (hwidth : width ≤ len) (hle : ii + len ≤ z.length) :
    ∃ s, messageSlice z ii len width = some s := by
  have hget : ∀ i < len, (z[ii + i]?).isSome := fun i hi => getElem?_isSome hle hi
  obtain ⟨jj, hjj, -, hmax⟩ := skipWhile_some isSpace hget (show len - width < len + 1 by omega)
  unfold messageSlice
  simp only [hjj, Option.bind_eq_bind, Option.bind_some]
  exact ⟨_, slice_of (by omega) (Nat.min_le_right _ _)⟩

/-- The name of a command is in its token, behind the two dashes. -/
theorem length_commandName_le (hle : ii + len ≤ z.length) (h2 : 2 ≤ len) :
    (commandName ((z.drop ii).take len)).length + 2 ≤ len := by
  have hspan : (((z.drop ii).take len).drop 2).length = len - 2 := by
    rw [List.length_drop, List.length_take, List.length_drop]
    omega
  have hword : (commandName ((z.drop ii).take len)).length ≤ (((z.drop ii).take len).drop 2).length :=
    (List.takeWhile_sublist _).length_le.trans (List.length_take_le' _ _)
  omega

theorem commandSlice_some (h2 : 2 ≤ len) (hle : ii + len ≤ z.length) :
    ∃ s, commandSlice r z ii len (commandName ((z.drop ii).take len)) = some s := by
  have hname := length_commandName_le hle h2
  generalize commandName ((z.drop ii).take len) = name at hname ⊢
  unfold commandSlice
  split
  · split
    · rw [subU64_of (by omega), Option.bind_eq_bind, Option.bind_some]
      exact ⟨_, slice_of (by omega) (Nat.min_le_right _ _)⟩
    · exact ⟨[], rfl⟩
  · split
    · exact answerSlice_some (by omega) hle 7
    · split
      · exact answerSlice_some (by omega) hle 6
      · split
        · exact answerSlice_some (by omega) hle 9
        · split
          · rename_i hprint
            rw [hprint] at hname
            exact messageSlice_some hname hle
          · split
            · rename_i hif
              rw [hif] at hname
              exact messageSlice_some hname hle
            · exact ⟨[], rfl⟩

theorem commandAt_eq {c : UInt8} {rest : Bytes} (h : z.drop ii = c :: rest) :
    commandAt z ii c = some (isCommand (z.drop ii)) := by
  have h1 := drop_succ_of_drop h
  unfold commandAt
  simp only [testAt_eq, andAlso_some, Option.bind_eq_bind, Option.bind_some, h1]
  rw [show ii + 2 = ii + 1 + 1 from rfl, ← List.drop_drop, h1, h]
  cases rest with
  | nil => simp [isCommand]
  | cons d rest =>
    cases rest with
    | nil => simp [isCommand]
    | cons e rest => simp [isCommand, Bool.and_assoc]

/-- White space and comments are no commands. -/
theorem not_isCommand_of_blank {c : UInt8} {rest : Bytes}
    (h : (isSpace c || (c == slash && rest.head?.any (· == star))) = true) : isCommand (c :: rest) = false := by
  have hdash : c ≠ dash := by
    rintro rfl
    rw [show isSpace dash = false by decide, show (dash == slash) = false by decide] at h
    cases h
  cases rest with
  | nil => rfl
  | cons d rest =>
    cases rest with
    | nil => rfl
    | cons e rest => simp [isCommand, hdash]

theorem tokenLength_command (h : isCommand (z.drop ii) = true) :
    2 ≤ (Mptest.tokenLength (z.drop ii)).1 ∧ ii + (Mptest.tokenLength (z.drop ii)).1 ≤ z.length := by
  cases hr : z.drop ii with
  | nil =>
    rw [hr] at h
    cases h
  | cons c rest =>
    have hbounds := tokenLength_bounds (List.cons_ne_nil c rest)
    have hlt := lt_of_drop hr
    have hlen : (c :: rest).length = z.length - ii := by rw [← hr, List.length_drop]
    refine ⟨?_, by omega⟩
    rw [hr] at h
    match rest, h with
    | d :: e :: rest, h =>
      simp only [isCommand, Bool.and_eq_true, beq_iff_eq] at h
      obtain ⟨⟨rfl, rfl⟩, -⟩ := h
      rw [Mptest.tokenLength, if_neg (by decide),
        if_neg (fun hc => absurd hc.1 (by decide)), if_pos ⟨rfl, rfl⟩]
      simp [Extent.step]

end

/-! ## The run -/

section

variable {env : Env} {r : Reader} {z : Bytes} {ii iBegin line : ℕ}

/-- The text behind a command at `p`. -/
def behind (z : Bytes) (p : ℕ) : Bytes := (z.drop p).drop (Mptest.tokenLength (z.drop p)).1

/-- The `--task` at `p` has no `--end`. -/
def Unended (z : Bytes) (p : ℕ) : Prop :=
  (Mptest.findEnd z.length (behind z p)).1 = (behind z p).length

/-- The cursors during a run: `ii` is at most one byte past the end, with nothing left to pass on. -/
structure Cursors.Inside (z : Bytes) (s : Cursors) : Prop where
  le : s.iBegin ≤ s.ii
  inside : s.ii ≤ z.length ∨ s.ii = z.length + 1 ∧ s.iBegin = s.ii

/-- A command moves `ii` on, and past the end only behind a task without an end. -/
structure MovesOn (env : Env) (z : Bytes) (ii : ℕ) (name : Bytes) (next : Cursors) : Prop where
  lt : ii < next.ii
  inside : next.Inside z
  past : z.length < next.ii → env.client = 0 ∧ name = ascii "task" ∧ Unended z ii

theorem passOn_eq (hle : iBegin ≤ ii) (hii : ii ≤ z.length ∨ iBegin = ii) :
    passOn z iBegin ii = some (flush iBegin ii) := by
  unfold passOn flush
  split
  · rw [slice_of hle (by omega)]
    rfl
  · rfl

/-- A token that begins inside the script ends there; behind the end there is one of one byte. -/
theorem tokenLength_at {p : ℕ} (hp : p ≤ z.length) : 0 < (Mptest.tokenLength (z.drop p)).1 ∧
    (p + (Mptest.tokenLength (z.drop p)).1 ≤ z.length ∨
      p = z.length ∧ (Mptest.tokenLength (z.drop p)).1 = 1) := by
  rcases Nat.eq_or_lt_of_le hp with heq | hlt
  · rw [List.drop_eq_nil_of_le (Nat.le_of_eq heq.symm)]
    exact ⟨Nat.one_pos, .inr ⟨heq, rfl⟩⟩
  · have hbounds := tokenLength_bounds fun h => absurd (List.drop_eq_nil_iff.mp h) (Nat.not_le_of_lt hlt)
    rw [List.length_drop] at hbounds
    exact ⟨hbounds.1, .inl (by omega)⟩

theorem findEndif_le {g : ℕ} {w : Bytes} (hg : w.length ≤ g) (stop : Bool) :
    (Mptest.findEndif g w stop).1 ≤ w.length := by
  rw [endifLength_eq hg]
  exact endifLength_le w stop

theorem findEnd_le (g : ℕ) (w : Bytes) : (Mptest.findEnd g w).1 ≤ w.length := by
  induction g generalizing w with
  | zero => exact Nat.zero_le _
  | succ g ih =>
    rw [Mptest.findEnd]
    split
    · exact Nat.zero_le _
    · rename_i hz
      have hlen := tokenLength_bounds fun h => hz (.inl h)
      have hrest := ih (w.drop (Mptest.tokenLength w).1)
      rw [List.length_drop] at hrest
      show (Mptest.tokenLength w).1 + _ ≤ w.length
      omega

/-- What a run does behind a command that is not `--exit`. -/
def continued (env : Env) (z : Bytes) (fuel ii len iBegin line : ℕ) (name : Bytes) : List Event :=
  let rest := (z.drop ii).drop len
  let skipTo (stop : Bool) :=
    let skip := Mptest.findEndif z.length rest stop
    Mptest.runLoop env z fuel (ii + skip.1 + len) iBegin (line + skip.2)
  if name = ascii "if" then
    if env.test ii then Mptest.runLoop env z fuel (ii + len) iBegin line else skipTo true
  else if name = ascii "else" then skipTo false
  else if name = ascii "task" ∧ env.client = 0 then
    let task := Mptest.findEnd z.length rest
    let close := Mptest.tokenLength ((z.drop ii).drop (len + task.1))
    let advance := len + task.1 + close.1
    Mptest.runLoop env z fuel (ii + advance) (ii + advance) (line + task.2 + close.2)
  else Mptest.runLoop env z fuel (ii + len) iBegin line

theorem runLoop_at_command (hcmd : isCommand (z.drop ii) = true) (fuel : ℕ) :
    Mptest.runLoop env z (fuel + 1) ii iBegin line =
      let token := Mptest.tokenLength (z.drop ii)
      let name := commandName ((z.drop ii).take token.1)
      flush iBegin ii ++ .command ii line name ::
        if name = ascii "exit" then []
        else continued env z fuel ii token.1 (begun iBegin ii token.1) (line + token.2) name := by
  have hz : z.drop ii ≠ [] := fun h => by
    rw [h] at hcmd
    cases hcmd
  rw [Mptest.runLoop, if_neg hz]
  simp only [hcmd, Bool.not_true, Bool.false_eq_true, if_false]
  rfl

theorem moveOn_spec (env : Env) (line : ℕ) (hcmd : isCommand (z.drop ii) = true)
    (hbegin : iBegin ≤ ii + (Mptest.tokenLength (z.drop ii)).1) (name : Bytes) :
    ∃ next line', moveOn z ii (Mptest.tokenLength (z.drop ii)).1 env iBegin line name = some (next, line') ∧
      MovesOn env z ii name next ∧
      ∀ fuel, continued env z fuel ii (Mptest.tokenLength (z.drop ii)).1 iBegin line name =
        Mptest.runLoop env z fuel next.ii next.iBegin line' := by
  obtain ⟨h2, hle⟩ := tokenLength_command hcmd
  unfold moveOn continued
  simp only [List.drop_drop]
  generalize hlen : (Mptest.tokenLength (z.drop ii)).1 = len at h2 hle hbegin ⊢
  have hrest : (z.drop (ii + len)).length = z.length - (ii + len) := List.length_drop
  have hfuel : (z.drop (ii + len)).length ≤ z.length := by omega
  have hskip (stop : Bool) := findEndif_call hfuel stop line
  have hskipped (stop : Bool) := findEndif_le hfuel stop
  have hplain : MovesOn env z ii name ⟨ii + len, iBegin⟩ :=
    ⟨show ii < ii + len by omega, ⟨hbegin, .inl hle⟩, fun h => absurd h (Nat.not_lt_of_le hle)⟩
  have hjump (stop : Bool) : MovesOn env z ii name
      ⟨ii + (Mptest.findEndif z.length (z.drop (ii + len)) stop).1 + len, iBegin⟩ := by
    have hle' := hskipped stop
    refine ⟨?_, ⟨?_, .inl ?_⟩, fun h => absurd h (Nat.not_lt_of_le ?_)⟩ <;> dsimp only <;> omega
  simp only [sliceFrom_of hle, hskip, Option.bind_eq_bind, Option.bind_some]
  split
  · split
    · exact ⟨_, _, rfl, hplain, fun _ => rfl⟩
    · exact ⟨_, _, rfl, hjump true, fun _ => rfl⟩
  · split
    · exact ⟨_, _, rfl, hjump false, fun _ => rfl⟩
    · split
      · rename_i htask
        have htaskLe := findEnd_le z.length (z.drop (ii + len))
        have hunended : (Mptest.findEnd z.length (z.drop (ii + len))).1 = (z.drop (ii + len)).length →
            Unended z ii := fun h => by
          unfold Unended behind
          rw [hlen, List.drop_drop, h]
        have hend := findEnd_call hfuel line
        generalize Mptest.findEnd z.length (z.drop (ii + len)) = task at hend htaskLe hunended ⊢
        have hstop : ii + len + task.1 ≤ z.length := by omega
        have hclose := tokenLength_at hstop
        simp only [hend, slice_of (Nat.le_add_right (ii + len) task.1) hstop, sliceFrom_of hstop,
          tokenLength_eq, Option.bind_some, ← Nat.add_assoc] at hclose ⊢
        generalize Mptest.tokenLength (z.drop (ii + len + task.1)) = close at hclose ⊢
        refine ⟨_, _, rfl, ⟨?_, ⟨?_, ?_⟩, fun hpast => ⟨htask.2, htask.1, hunended ?_⟩⟩, fun _ => rfl⟩
        · show ii < ii + len + task.1 + close.1
          omega
        · exact Nat.le_refl _
        · show ii + len + task.1 + close.1 ≤ z.length ∨
            ii + len + task.1 + close.1 = z.length + 1 ∧ _
          rcases hclose.2 with hin | ⟨heq, hone⟩
          · exact .inl hin
          · exact .inr ⟨by omega, rfl⟩
        · replace hpast : z.length < ii + len + task.1 + close.1 := hpast
          omega
      · exact ⟨_, _, rfl, hplain, fun _ => rfl⟩

theorem begun_le (hle : iBegin ≤ ii) (len : ℕ) : begun iBegin ii len ≤ ii + len := by
  unfold begun
  split
  · exact Nat.le_refl _
  · exact Nat.le_add_right_of_le hle

/-- Where a run ends: inside the script, or one byte behind a task without an end. -/
def EndsInside (env : Env) (z : Bytes) (events : List Event) (last : ℕ) : Prop :=
  last ≤ z.length ∨ last = z.length + 1 ∧ env.client = 0 ∧
    ∃ p line, .command p line (ascii "task") ∈ events ∧ Unended z p

/-- One round of the loop up to the point where it knows whether there is a command. -/
theorem runLoop_round {fuel : ℕ} {c : UInt8} {rest : Bytes} (hr : z.drop ii = c :: rest) :
    runLoop env r z (fuel + 1) ⟨ii, iBegin⟩ line =
      let token := Mptest.tokenLength (z.drop ii)
      if !isCommand (z.drop ii) then runLoop env r z fuel ⟨ii + token.1, iBegin⟩ (line + token.2)
      else (do
        let sql ← passOn z iBegin ii
        let cmd ← readCommand r z ii token.1
        let _ ← commandSlice r z ii token.1 cmd.1
        if cmd.1 = ascii "exit" then some (sql ++ [.command ii line cmd.1], ii)
        else
          let next ← moveOn z ii token.1 env (begun iBegin ii token.1) (line + token.2) cmd.1
          let more ← runLoop env r z fuel next.1 next.2
          some (sql ++ .command ii line cmd.1 :: more.1, more.2)) := by
  have hlt := lt_of_drop hr
  have hcommand : (!(isSpace c || c == slash && rest.head?.any (· == star)) && isCommand (z.drop ii)) =
      isCommand (z.drop ii) := by
    cases hcase : isSpace c || c == slash && rest.head?.any (· == star) with
    | true => rw [hr, not_isCommand_of_blank hcase, Bool.and_false]
    | false => rw [Bool.not_false, Bool.true_and]
  rw [runLoop, if_pos hlt]
  simp only [getElem?_of_drop hr, sliceFrom_of (Nat.le_of_lt hlt), tokenLength_eq, testAt_eq,
    drop_succ_of_drop hr, commandAt_eq hr, andAlso_some, hcommand, Option.bind_eq_bind, Option.bind_some]

theorem runLoop_at_text (hz : z.drop ii ≠ []) (hcmd : isCommand (z.drop ii) = false) (fuel : ℕ) :
    Mptest.runLoop env z (fuel + 1) ii iBegin line =
      Mptest.runLoop env z fuel (ii + (Mptest.tokenLength (z.drop ii)).1) iBegin
        (line + (Mptest.tokenLength (z.drop ii)).2) := by
  simp only [Mptest.runLoop, if_neg hz, hcmd, Bool.not_false, if_true]

theorem runLoop_text {fuel : ℕ} (hz : z.drop ii ≠ []) (hcmd : isCommand (z.drop ii) = false) :
    runLoop env r z (fuel + 1) ⟨ii, iBegin⟩ line =
      runLoop env r z fuel ⟨ii + (Mptest.tokenLength (z.drop ii)).1, iBegin⟩
        (line + (Mptest.tokenLength (z.drop ii)).2) := by
  obtain ⟨c, rest, hr⟩ := List.exists_cons_of_ne_nil hz
  rw [runLoop_round hr, hcmd]
  rfl

theorem runLoop_command {fuel : ℕ} (hbegin : iBegin ≤ ii) (hcmd : isCommand (z.drop ii) = true) :
    runLoop env r z (fuel + 1) ⟨ii, iBegin⟩ line =
      let token := Mptest.tokenLength (z.drop ii)
      let name := commandName ((z.drop ii).take token.1)
      if name = ascii "exit" then some (flush iBegin ii ++ [.command ii line name], ii)
      else (do
        let next ← moveOn z ii token.1 env (begun iBegin ii token.1) (line + token.2) name
        let more ← runLoop env r z fuel next.1 next.2
        some (flush iBegin ii ++ .command ii line name :: more.1, more.2)) := by
  obtain ⟨h2, hle⟩ := tokenLength_command hcmd
  obtain ⟨c, rest, hr⟩ := List.exists_cons_of_ne_nil (show z.drop ii ≠ [] by
    intro h
    rw [h] at hcmd
    cases hcmd)
  obtain ⟨args, hread⟩ := readCommand_eq (r := r) h2 hle
  obtain ⟨text, hslice⟩ := commandSlice_some (r := r) h2 hle
  rw [runLoop_round hr]
  simp only [hcmd, passOn_eq hbegin (.inl (Nat.le_of_add_right_le hle)), hread, hslice,
    Option.bind_eq_bind, Option.bind_some, Bool.not_true, Bool.false_eq_true, if_false]

/-- The loop returns, and does what `runLoop` says. A run that goes on from inside ends inside. -/
theorem runLoop_eq (env : Env) (r : Reader) (line : ℕ) {fuel : ℕ} {s : Cursors} (hs : s.Inside z)
    (hfuel : z.length - s.ii < fuel) :
    ∃ last, runLoop env r z fuel s line = some (Mptest.runLoop env z fuel s.ii s.iBegin line, last) ∧
      (s.ii ≤ z.length → EndsInside env z (Mptest.runLoop env z fuel s.ii s.iBegin line) last) ∧
      (z.length < s.ii → last = s.ii) := by
  induction fuel generalizing s line with
  | zero => omega
  | succ fuel ih =>
    obtain ⟨ii, iBegin⟩ := s
    obtain ⟨hbegin, hinside⟩ := hs
    dsimp only at hbegin hinside hfuel ⊢
    by_cases hz : z.drop ii = []
    · have hlen := List.drop_eq_nil_iff.mp hz
      rw [runLoop, if_neg (by omega), passOn_eq hbegin (hinside.imp_right And.right), Mptest.runLoop,
        if_pos hz]
      exact ⟨ii, rfl, fun hle => .inl hle, fun _ => rfl⟩
    have hlt : ii < z.length := Nat.lt_of_not_le fun h => hz (List.drop_eq_nil_iff.mpr h)
    have hpast (last : ℕ) : z.length < ii → last = ii := fun h => absurd h (by omega)
    cases hcmd : isCommand (z.drop ii) with
    | false =>
      have hbounds := tokenLength_bounds hz
      rw [List.length_drop] at hbounds
      have hin : ii + (Mptest.tokenLength (z.drop ii)).1 ≤ z.length := by omega
      obtain ⟨last, hrun, hends, -⟩ := ih (line + (Mptest.tokenLength (z.drop ii)).2)
        (s := ⟨ii + (Mptest.tokenLength (z.drop ii)).1, iBegin⟩) ⟨Nat.le_add_right_of_le hbegin, .inl hin⟩
        (by dsimp only; omega)
      rw [runLoop_text hz hcmd, runLoop_at_text hz hcmd]
      exact ⟨last, hrun, fun _ => hends hin, hpast last⟩
    | true =>
      rw [runLoop_command hbegin hcmd, runLoop_at_command hcmd]
      dsimp only
      split
      · exact ⟨ii, rfl, fun hle => .inl hle, hpast ii⟩
      · obtain ⟨next, line', hmove, hmoves, hcontinued⟩ := moveOn_spec env
          (line + (Mptest.tokenLength (z.drop ii)).2) hcmd (begun_le hbegin _)
          (commandName ((z.drop ii).take (Mptest.tokenLength (z.drop ii)).1))
        have hlt' := hmoves.lt
        obtain ⟨last, hrun, hends, hover⟩ := ih line' hmoves.inside (by omega)
        simp only [hcontinued fuel, hmove, hrun, Option.bind_eq_bind, Option.bind_some]
        refine ⟨last, rfl, fun _ => ?_, hpast last⟩
        by_cases hin : next.ii ≤ z.length
        · refine (hends hin).imp_right fun h => ?_
          obtain ⟨hlast, hclient, p, line, hmem, htask⟩ := h
          exact ⟨hlast, hclient, p, line, List.mem_append_right _ (List.mem_cons_of_mem _ hmem), htask⟩
        · -- the command is a task without an end, and the run is over
          obtain ⟨hclient, hname, hunended⟩ := hmoves.past (Nat.lt_of_not_le hin)
          have hnext := hmoves.inside.inside.resolve_left hin
          refine .inr ⟨(hover (Nat.lt_of_not_le hin)).trans hnext.1, hclient, ii, line, ?_, hunended⟩
          rw [hname]
          exact List.mem_append_right _ List.mem_cons_self

theorem runScript_eq (env : Env) (r : Reader) (z : Bytes) :
    ∃ last, runScript env r z = some (Mptest.runScript env z, last) ∧
      EndsInside env z (Mptest.runScript env z) last := by
  have hstart : Cursors.Inside z ⟨0, 0⟩ := ⟨Nat.le_refl 0, .inl (Nat.zero_le _)⟩
  obtain ⟨last, hrun, hends, -⟩ := runLoop_eq env r 1 hstart (Nat.lt_succ_self _)
  exact ⟨last, hrun, hends (Nat.zero_le _)⟩

/-- Scanning a script: every scanner returns inside the text that it is given, and so does the run. Only
the end of the text is one byte long, and a task may be empty. -/
structure ScansInside (env : Env) (r : Reader) (z : Bytes) : Prop where
  token : ∀ w, w ≠ [] → ∃ e, tokenLength w = some e ∧ 0 < e.1 ∧ e.1 ≤ w.length
  token_nil : tokenLength [] = some (1, 0)
  findEnd : ∀ w lines, ∃ e, findEnd w (w.length + 1) 0 lines = some e ∧ e.1 ≤ w.length ∧
    (e.1 = 0 ↔ w = [] ∨ startsWith (ascii "--end") w = true)
  findEndif : ∀ w stop lines, ∃ e, findEndif (w.length + 1) w stop 0 lines = some e ∧ e.1 ≤ w.length ∧
    (w ≠ [] → 0 < e.1)
  run : ∃ last, runScript env r z = some (Mptest.runScript env z, last) ∧
    EndsInside env z (Mptest.runScript env z) last

theorem findEnd_eq_zero (w : Bytes) :
    (Mptest.findEnd w.length w).1 = 0 ↔ w = [] ∨ startsWith (ascii "--end") w = true := by
  cases w with
  | nil => exact iff_of_true rfl (.inl rfl)
  | cons c w =>
    rw [List.length_cons, Mptest.findEnd]
    split
    · rename_i h
      exact iff_of_true rfl h
    · rename_i h
      have hlen := tokenLength_bounds (List.cons_ne_nil c w)
      refine iff_of_false (fun hzero => ?_) h
      replace hzero : (Mptest.tokenLength (c :: w)).1 + _ = 0 := hzero
      omega

theorem findEndif_pos {w : Bytes} (hw : w ≠ []) (stop : Bool) : 0 < (Mptest.findEndif w.length w stop).1 := by
  have hlen := tokenLength_bounds hw
  show 0 < endifLength w stop
  rw [endifLength_cons hw]
  split
  · exact hlen.1
  · split <;> omega

theorem scansInside (env : Env) (r : Reader) (z : Bytes) : ScansInside env r z where
  token w hw := ⟨_, tokenLength_eq w, tokenLength_bounds hw⟩
  token_nil := rfl
  findEnd w lines := by
    exact ⟨_, findEnd_call (Nat.le_refl _) lines, findEnd_le _ w, findEnd_eq_zero w⟩
  findEndif w stop lines := by
    exact ⟨_, findEndif_call (Nat.le_refl _) stop lines, findEndif_le (Nat.le_refl _) stop,
      fun hw => findEndif_pos hw stop⟩
  run := runScript_eq env r z

/-- Behind a `--task` that is empty, `find_end` stands still; behind one without `--end` the cursor of the
run passes the end of the script. -/
theorem scanning_stands_still_and_passes :
    (¬ ∀ (z w : Bytes) (p : ℕ), w = behind z p → w ≠ [] →
      ∃ e, findEnd w (w.length + 1) 0 1 = some e ∧ 0 < e.1) ∧
    ¬ ∀ (r : Reader) (z : Bytes), ∃ events last,
      runScript ⟨0, fun _ => true⟩ r z = some (events, last) ∧ last ≤ z.length := by
  constructor
  · intro hclaim
    obtain ⟨e, he, hpos⟩ := hclaim (ascii "--task 1\n--end\n") (ascii "--end\n") 0
      (by decide +kernel) (by decide)
    have hstill : findEnd (ascii "--end\n") ((ascii "--end\n").length + 1) 0 1 = some (0, 1) := by
      decide +kernel
    cases he.symm.trans hstill
    exact absurd hpos (by decide)
  · intro hclaim
    obtain ⟨events, last, hrun, hle⟩ := hclaim ⟨List.length, 1⟩ (ascii "--task 1\n")
    have hpasses : runScript ⟨0, fun _ => true⟩ ⟨List.length, 1⟩ (ascii "--task 1\n") =
        some ([.command 0 1 (ascii "task")], 10) := by decide +kernel
    cases hrun.symm.trans hpasses
    exact absurd hle (by decide)

end

end Fstest.Mptest.Indexed
