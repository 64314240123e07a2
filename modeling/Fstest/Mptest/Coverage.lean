import Fstest.Mptest.Script

/-!
# Which SQL a run executes

Positions in a script are those of its bytes. `executed` lists, in order, the positions of SQL that
a run passes on. `executed_runScript`: without tasks and `--exit` that is all SQL of the script, each
byte once, whatever the outcomes of the `--if` expressions are.
-/

namespace Fstest.Mptest

/-- The token is SQL: not white space, a comment or a command. -/
def isSql : Bytes → Bool
  | [] => false
  | c :: r => !isSpace c && !(c == slash && r.head? == some star) &&
      !(c == dash && r.head? == some dash)

/-- The positions of a token. -/
def Token.positions (t : Token) : List ℕ := List.range' t.pos t.text.length

/-- The position belongs to an SQL token. -/
def isSqlAt (tokens : List Token) (q : ℕ) : Bool :=
  tokens.any fun t => isSql t.text && decide (t.pos ≤ q ∧ q < t.pos + t.text.length)

/-- The positions of SQL that the events pass on. -/
def executed (z : Bytes) (events : List Event) : List ℕ :=
  events.flatMap fun
    | .sql b e => (List.range' b (e - b)).filter (isSqlAt (lex 0 z))
    | .command .. => []

/-- The positions of the SQL tokens among some tokens. -/
def sqlPositions (tokens : List Token) : List ℕ :=
  (tokens.filter fun t => isSql t.text).flatMap Token.positions

theorem range'_split {a b c : ℕ} (hab : a ≤ b) (hbc : b ≤ c) :
    List.range' a (c - a) = List.range' a (b - a) ++ List.range' b (c - b) := by
  obtain ⟨k, rfl⟩ := Nat.exists_eq_add_of_le hab
  rw [Nat.add_sub_cancel_left, List.range'_append_1]
  congr 1
  omega

theorem pos_le_of_mem_lex {z : Bytes} {pos : ℕ} {t : Token} (ht : t ∈ lex pos z) :
    pos ≤ t.pos ∧ t.text ≠ [] := by
  induction z using token_induction generalizing pos with
  | nil => cases ht
  | cons z hz ih =>
    have hlen := tokenLength_bounds hz
    rw [lex_cons pos hz] at ht
    rcases List.mem_cons.mp ht with rfl | ht
    · refine ⟨Nat.le_refl _, fun hnil => ?_⟩
      have htake := length_take_tokenLength hz
      rw [show z.take (tokenLength z).1 = [] from hnil, List.length_nil] at htake
      omega
    · have := ih ht
      exact ⟨by omega, this.2⟩

/-- Outside a token that is not SQL, the tokens before and behind it decide. -/
theorem filter_isSqlAt_token {z : Bytes} {ii : ℕ} (h : Boundary z ii) (hz : z.drop ii ≠ [])
    (hsql : isSql ((z.drop ii).take (tokenLength (z.drop ii)).1) = false) :
    (List.range' ii (tokenLength (z.drop ii)).1).filter (isSqlAt (lex 0 z)) = [] := by
  obtain ⟨before, hsplit, hbefore⟩ := h.split
  rw [List.filter_eq_nil_iff]
  intro q hq
  rw [List.mem_range'_1] at hq
  rw [hsplit, lex_cons ii hz, isSqlAt, List.any_append, List.any_cons, hsql]
  simp only [Bool.or_eq_true, List.any_eq_true, Bool.and_eq_true, decide_eq_true_eq, Bool.false_and,
    Bool.false_eq_true, false_or, not_or, not_exists, not_and]
  constructor
  · intro t ht _ _
    have := hbefore t ht
    omega
  · intro t ht _ hle
    have := (pos_le_of_mem_lex ht).1
    omega

/-- The SQL positions of a text are those of its SQL tokens, in order. -/
theorem filter_isSqlAt_lex (z : Bytes) (pos : ℕ) :
    (List.range' pos z.length).filter (isSqlAt (lex pos z)) = sqlPositions (lex pos z) := by
  induction z using token_induction generalizing pos with
  | nil => rfl
  | cons z hz ih =>
    have hlen := tokenLength_bounds hz
    have htake := length_take_tokenLength hz
    have hsplit : List.range' pos z.length = List.range' pos (tokenLength z).1 ++
        List.range' (pos + (tokenLength z).1) (z.drop (tokenLength z).1).length := by
      rw [List.range'_append_1, List.length_drop]
      congr 1
      omega
    rw [hsplit, List.filter_append, lex_cons pos hz]
    -- The first token decides on its own positions, and on no others.
    have hfirst : (List.range' pos (tokenLength z).1).filter (isSqlAt
        (⟨pos, z.take (tokenLength z).1⟩ :: lex (pos + (tokenLength z).1)
          (z.drop (tokenLength z).1))) =
        if isSql (z.take (tokenLength z).1) then List.range' pos (tokenLength z).1 else [] := by
      have hrest : ∀ q ∈ List.range' pos (tokenLength z).1, isSqlAt
          (⟨pos, z.take (tokenLength z).1⟩ :: lex (pos + (tokenLength z).1)
            (z.drop (tokenLength z).1)) q = isSql (z.take (tokenLength z).1) := by
        intro q hq
        rw [List.mem_range'_1] at hq
        have hnone : isSqlAt (lex (pos + (tokenLength z).1) (z.drop (tokenLength z).1)) q = false := by
          rw [isSqlAt, List.any_eq_false]
          intro t ht
          have := (pos_le_of_mem_lex ht).1
          simp only [Bool.and_eq_true, decide_eq_true_eq, not_and]
          omega
        have hin : pos ≤ q ∧ q < pos + (z.take (tokenLength z).1).length := by
          rw [htake]
          exact hq
        rw [isSqlAt, List.any_cons, ← isSqlAt, hnone, Bool.or_false, decide_eq_true hin,
          Bool.and_true]
      rw [List.filter_congr hrest]
      cases isSql (z.take (tokenLength z).1)
      · simp
      · exact List.filter_eq_self.mpr fun _ _ => rfl
    have hsecond : (List.range' (pos + (tokenLength z).1) (z.drop (tokenLength z).1).length).filter
        (isSqlAt (⟨pos, z.take (tokenLength z).1⟩ :: lex (pos + (tokenLength z).1)
          (z.drop (tokenLength z).1))) =
        (List.range' (pos + (tokenLength z).1) (z.drop (tokenLength z).1).length).filter
          (isSqlAt (lex (pos + (tokenLength z).1) (z.drop (tokenLength z).1))) := by
      refine List.filter_congr fun q hq => ?_
      rw [List.mem_range'_1] at hq
      have hout : ¬ (pos ≤ q ∧ q < pos + (z.take (tokenLength z).1).length) := by
        rw [htake]
        omega
      rw [isSqlAt, List.any_cons, decide_eq_false hout, Bool.and_false, Bool.false_or]
      rfl
    rw [hfirst, hsecond, ih, sqlPositions, sqlPositions, List.filter_cons]
    cases isSql (z.take (tokenLength z).1)
    · simp
    · simp [Token.positions, htake]

/-- The script has no tasks for this client, and no `--exit`. -/
def Straight (env : Env) (tokens : List Token) : Prop :=
  ∀ t ∈ tokens, isCommand t.text = true → commandName t.text ≠ ascii "exit" ∧
    ¬ (commandName t.text = ascii "task" ∧ env.client = 0)

/-- Behind two dashes a token is the rest of the line. -/
theorem tokenLength_dashes (r : Bytes) :
    tokenLength (dash :: dash :: r) = Extent.step 0 (Extent.step 0 (lineLength r)) := by
  rw [tokenLength, if_neg (by decide), List.head?_cons, if_neg (by decide), if_pos ⟨rfl, rfl⟩,
    List.tail_cons]

theorem isCommand_cons {z : Bytes} (h : isCommand z = true) :
    ∃ c r, z = dash :: dash :: c :: r ∧ isAlphabetic c = true := by
  rcases z with - | ⟨a, - | ⟨b, - | ⟨c, r⟩⟩⟩
  · cases h
  · cases h
  · cases h
  · simp only [isCommand, Bool.and_eq_true, beq_iff_eq] at h
    obtain ⟨⟨rfl, rfl⟩, hc⟩ := h
    exact ⟨c, r, rfl, hc⟩

theorem three_le_tokenLength {c : UInt8} (r : Bytes) :
    3 ≤ (tokenLength (dash :: dash :: c :: r)).1 := by
  rw [tokenLength_dashes, lineLength]
  split
  · exact Nat.le_refl 3
  · exact Nat.le_add_left 3 _

/-- Whether a token is a command can be seen from the token. -/
theorem isCommand_token {z : Bytes} (h : isCommand z = true) :
    isCommand (z.take (tokenLength z).1) = true ∧ isSql (z.take (tokenLength z).1) = false := by
  obtain ⟨c, r, rfl, hc⟩ := isCommand_cons h
  obtain ⟨k, hk⟩ := Nat.exists_eq_add_of_le (three_le_tokenLength (c := c) r)
  rw [hk, Nat.add_comm]
  simp [isCommand, isSql, hc]

/-- Passing on the SQL before a command leaves the SQL behind the command. -/
theorem executed_flush {z : Bytes} {ii iBegin : ℕ} (hb : Boundary z ii) (hz : z.drop ii ≠ [])
    (hsql : isSql ((z.drop ii).take (tokenLength (z.drop ii)).1) = false) (hbegin : iBegin ≤ ii)
    {events : List Event} {pos line : ℕ} {name : Bytes}
    (hevents : executed z events = (List.range' (begun iBegin ii (tokenLength (z.drop ii)).1)
      (z.length - begun iBegin ii (tokenLength (z.drop ii)).1)).filter (isSqlAt (lex 0 z))) :
    executed z (flush iBegin ii ++ .command pos line name :: events) =
      (List.range' iBegin (z.length - iBegin)).filter (isSqlAt (lex 0 z)) := by
  have hbound := (hb.next hz).le
  rw [begun] at hevents
  rw [flush]
  by_cases hpending : iBegin < ii
  · rw [if_pos hpending] at hevents ⊢
    rw [range'_split hbegin hb.le, range'_split (Nat.le_add_right ii _) hbound,
      Nat.add_sub_cancel_left, List.filter_append, List.filter_append,
      filter_isSqlAt_token hb hz hsql, List.nil_append]
    simpa [executed] using hevents
  · rw [if_neg hpending] at hevents ⊢
    simpa [executed] using hevents

/-- From a boundary on, the loop executes all SQL behind `iBegin`. -/
theorem executed_runLoop {env : Env} {z : Bytes} (hstraight : Straight env (lex 0 z)) {fuel : ℕ}
    {ii iBegin line : ℕ} (hb : Boundary z ii) (hbegin : iBegin ≤ ii)
    (hfuel : z.length < ii + fuel) :
    executed z (runLoop env z fuel ii iBegin line) =
      (List.range' iBegin (z.length - iBegin)).filter (isSqlAt (lex 0 z)) := by
  induction fuel generalizing ii iBegin line with
  | zero =>
    have := hb.le
    omega
  | succ fuel ih =>
    have hle := hb.le
    by_cases hz : z.drop ii = []
    · -- The end of the script: what is pending is passed on.
      have hend : z.length = ii := by
        have := List.drop_eq_nil_iff.mp hz
        omega
      simp only [runLoop, hz, if_true, hend, flush]
      split
      · simp [executed]
      · have hnone : ii - iBegin = 0 := by omega
        simp [executed, hnone]
    · have hlen := tokenLength_bounds hz
      cases hcmd : isCommand (z.drop ii) with
      | true =>
        have htoken := isCommand_token hcmd
        have hmem : ⟨ii, (z.drop ii).take (tokenLength (z.drop ii)).1⟩ ∈ lex 0 z := by
          obtain ⟨before, hsplit, -⟩ := hb.split
          rw [hsplit, lex_cons ii hz]
          simp
        obtain ⟨hexit, htask⟩ := hstraight _ hmem htoken.1
        obtain ⟨line', hstep⟩ := runLoop_command hcmd hexit htask fuel iBegin line
        rw [hstep]
        refine executed_flush hb hz htoken.2 hbegin (ih (hb.skipped hz env) ?_ (by omega))
        rw [begun]
        split <;> omega
      | false =>
        obtain ⟨line', hstep⟩ := runLoop_text hz hcmd fuel iBegin line
        rw [hstep]
        exact ih (hb.next hz) (by omega) (by omega)

/-- **A run executes every byte of SQL once and in order**, whatever is true. -/
theorem executed_runScript {env : Env} {z : Bytes} (h : Straight env (lex 0 z)) :
    executed z (runScript env z) = sqlPositions (lex 0 z) := by
  rw [runScript, executed_runLoop h (boundary_zero z) (Nat.le_refl 0) (by omega),
    Nat.sub_zero, filter_isSqlAt_lex]

end Fstest.Mptest
