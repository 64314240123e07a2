import Fstest.Mptest.Coverage

/-!
# Conditional blocks

A `Script` is the block structure of a list of tokens: text, simple commands, and `--if` blocks with
or without an `--else`. Which branches are taken is a matter of the outcomes of their expressions.
`runScript_taken_iff`: the SQL that is executed is that of the branches that are taken exactly if the
others hold no SQL at all.
-/

namespace Fstest.Mptest

inductive Script where
  | nil
  | text (t : Token) (rest : Script)
  | command (t : Token) (rest : Script)
  | cond (opening : Token) (yes : Script) (closing : Token) (rest : Script)
  | condElse (opening : Token) (yes : Script) (middle : Token) (no : Script) (closing : Token)
      (rest : Script)
  deriving DecidableEq

/-- A command that moves no cursor and runs no other script. -/
def IsPlain (client : ℕ) (text : Bytes) : Prop :=
  isCommand text = true ∧ commandName text ∉ ["if", "else", "endif", "exit", "source"].map ascii ∧
    ¬ (commandName text = ascii "task" ∧ client = 0)

instance (client : ℕ) (text : Bytes) : Decidable (IsPlain client text) :=
  inferInstanceAs (Decidable (_ ∧ _ ∧ _))

/-- The `--endif` of a block. Only at the end of a script it may lack its line end. -/
def IsClosing (text : Bytes) : Prop :=
  startsWith (ascii "--endif") text = true ∨ text = ascii "--endif"

instance (text : Bytes) : Decidable (IsClosing text) := inferInstanceAs (Decidable (_ ∨ _))

namespace Script

def tokens : Script → List Token
  | nil => []
  | text t rest | command t rest => t :: rest.tokens
  | cond opening yes closing rest => opening :: (yes.tokens ++ closing :: rest.tokens)
  | condElse opening yes middle no closing rest =>
    opening :: (yes.tokens ++ middle :: (no.tokens ++ closing :: rest.tokens))

/-- Every token is what its place says. -/
def Valid (client : ℕ) : Script → Prop
  | nil => True
  | text t rest => isCommand t.text = false ∧ rest.Valid client
  | command t rest => IsPlain client t.text ∧ rest.Valid client
  | cond opening yes closing rest => startsWith (ascii "--if") opening.text = true ∧
      yes.Valid client ∧ IsClosing closing.text ∧ rest.Valid client
  | condElse opening yes middle no closing rest => startsWith (ascii "--if") opening.text = true ∧
      yes.Valid client ∧ startsWith (ascii "--else") middle.text = true ∧ no.Valid client ∧
      IsClosing closing.text ∧ rest.Valid client

/-- All text. -/
def texts : Script → List Token
  | nil => []
  | text t rest => t :: rest.texts
  | command _ rest => rest.texts
  | cond _ yes _ rest => yes.texts ++ rest.texts
  | condElse _ yes _ no _ rest => yes.texts ++ (no.texts ++ rest.texts)

section

variable (test : ℕ → Bool)

/-- The text outside the branches that are not taken. -/
def taken : Script → List Token
  | nil => []
  | text t rest => t :: rest.taken
  | command _ rest => rest.taken
  | cond opening yes _ rest => (if test opening.pos then yes.taken else []) ++ rest.taken
  | condElse opening yes _ no _ rest =>
    (if test opening.pos then yes.taken else no.taken) ++ rest.taken

/-- The text in the branches that are not taken. -/
def untaken : Script → List Token
  | nil => []
  | text _ rest | command _ rest => rest.untaken
  | cond opening yes _ rest => (if test opening.pos then yes.untaken else yes.texts) ++ rest.untaken
  | condElse opening yes _ no _ rest =>
    (if test opening.pos then yes.untaken ++ no.texts else yes.texts ++ no.untaken) ++ rest.untaken

/-- The commands outside the branches that are not taken, with the `--else` or `--endif` that the
taken branch of a block comes to. -/
def commands : Script → List Token
  | nil => []
  | text _ rest => rest.commands
  | command t rest => t :: rest.commands
  | cond opening yes closing rest =>
    opening :: ((if test opening.pos then yes.commands ++ [closing] else []) ++ rest.commands)
  | condElse opening yes middle no closing rest =>
    opening :: ((if test opening.pos then yes.commands ++ [middle] else no.commands ++ [closing]) ++
      rest.commands)

/-- Every text is in a branch that is taken, or in one that is not. -/
theorem texts_perm (s : Script) : (s.texts).Perm (s.taken test ++ s.untaken test) := by
  rw [List.perm_iff_count]
  intro t
  induction s with
  | nil => rfl
  | text u rest ih =>
    simp only [texts, taken, untaken, List.count_append, List.count_cons] at ih ⊢
    omega
  | command u rest ih => exact ih
  | cond opening yes closing rest ihy ihr =>
    simp only [texts, taken, untaken, List.count_append] at ihy ihr ⊢
    split
    · omega
    · rw [List.count_nil]
      omega
  | condElse opening yes middle no closing rest ihy ihn ihr =>
    simp only [texts, taken, untaken, List.count_append] at ihy ihn ihr ⊢
    split <;> simp only [List.count_append] <;> omega

theorem taken_sublist (s : Script) : (s.taken test).Sublist s.texts := by
  induction s with
  | nil => exact .slnil
  | text t rest ih => exact ih.cons_cons t
  | command t rest ih => exact ih
  | cond opening yes closing rest ihy ihr =>
    simp only [taken, texts]
    refine List.Sublist.append ?_ ihr
    split
    · exact ihy
    · exact List.nil_sublist _
  | condElse opening yes middle no closing rest ihy ihn ihr =>
    simp only [taken, texts]
    rw [← List.append_assoc]
    refine List.Sublist.append ?_ ihr
    split
    · exact ihy.trans (List.sublist_append_left _ _)
    · exact ihn.trans (List.sublist_append_right _ _)

/-- Where the branches that are not taken hold no SQL, all SQL is in those that are taken. -/
theorem filter_texts {s : Script} (h : ∀ t ∈ s.untaken test, isSql t.text = false) :
    (s.taken test).filter (fun t => isSql t.text) = (s.texts).filter fun t => isSql t.text := by
  refine ((s.taken_sublist test).filter _).eq_of_length ?_
  have hperm := ((s.texts_perm test).filter fun t => isSql t.text).length_eq
  have hnone : (s.untaken test).filter (fun t => isSql t.text) = [] :=
    List.filter_eq_nil_iff.mpr fun t ht => by simp [h t ht]
  rw [List.filter_append, hnone, List.append_nil] at hperm
  exact hperm.symm

end

end Script

/-! ## What a token says -/

theorem startsWith_iff {word z : Bytes} :
    startsWith word z = true ↔ ∃ c r, z = word ++ c :: r ∧ isSpace c = true := by
  rw [startsWith, Bool.and_eq_true, List.isPrefixOf_iff_prefix]
  constructor
  · rintro ⟨⟨r, rfl⟩, hspace⟩
    rw [List.drop_left] at hspace
    rcases r with - | ⟨c, r⟩
    · cases hspace
    · exact ⟨c, r, rfl, hspace⟩
  · rintro ⟨c, r, rfl, hc⟩
    refine ⟨⟨c :: r, rfl⟩, ?_⟩
    rw [List.drop_left]
    exact hc

/-- The name of a command that starts with a word. -/
theorem commandName_of_startsWith {u text : Bytes} (hu : ∀ c ∈ u, isSpace c = false)
    (hlen : u.length < 29) (h : startsWith (dash :: dash :: u) text = true) :
    commandName text = u := by
  obtain ⟨c, r, rfl, hc⟩ := startsWith_iff.mp h
  obtain ⟨k, hk⟩ : ∃ k, 29 - u.length = k + 1 := ⟨29 - u.length - 1, by omega⟩
  show ((u ++ c :: r).take 29).takeWhile (fun c => !isSpace c) = u
  rw [List.take_append, List.take_of_length_le (by omega), hk, List.take_succ_cons,
    List.takeWhile_append_of_pos (fun a ha => by simp [hu a ha]), List.takeWhile_cons, hc]
  exact List.append_nil u

theorem commandName_if {text : Bytes} (h : startsWith (ascii "--if") text = true) :
    commandName text = ascii "if" :=
  commandName_of_startsWith (u := ascii "if") (by decide +kernel) (by decide) h

theorem commandName_else {text : Bytes} (h : startsWith (ascii "--else") text = true) :
    commandName text = ascii "else" :=
  commandName_of_startsWith (u := ascii "else") (by decide +kernel) (by decide) h

theorem commandName_endif {text : Bytes} (h : IsClosing text) : commandName text = ascii "endif" := by
  rcases h with h | rfl
  · exact commandName_of_startsWith (u := ascii "endif") (by decide +kernel) (by decide) h
  · decide

theorem isCommand_of_startsWith {word text : Bytes} (hword : isCommand word = true)
    (h : startsWith word text = true) : isCommand text = true := by
  obtain ⟨c, r, rfl, -⟩ := startsWith_iff.mp h
  obtain ⟨d, r', rfl, hd⟩ := isCommand_cons hword
  simp [isCommand, hd]

theorem IsClosing.isCommand {text : Bytes} (h : IsClosing text) : isCommand text = true := by
  rcases h with h | rfl
  · exact isCommand_of_startsWith (by decide) h
  · decide

theorem isSql_of_isCommand {text : Bytes} (h : isCommand text = true) : isSql text = false := by
  obtain ⟨c, r, rfl, -⟩ := isCommand_cons h
  simp [isSql]

namespace Script

/-- The tokens of a script without tasks and `--exit`. -/
theorem Valid.straight {s : Script} {env : Env} (h : s.Valid env.client) :
    Straight env s.tokens := by
  have hif : ∀ t : Token, startsWith (ascii "--if") t.text = true →
      commandName t.text ≠ ascii "exit" ∧ ¬ (commandName t.text = ascii "task" ∧ env.client = 0) :=
    fun t ht => by
      rw [commandName_if ht]
      exact ⟨by decide, fun h => absurd h.1 (by decide)⟩
  have helse : ∀ t : Token, startsWith (ascii "--else") t.text = true →
      commandName t.text ≠ ascii "exit" ∧ ¬ (commandName t.text = ascii "task" ∧ env.client = 0) :=
    fun t ht => by
      rw [commandName_else ht]
      exact ⟨by decide, fun h => absurd h.1 (by decide)⟩
  have hendif : ∀ t : Token, IsClosing t.text →
      commandName t.text ≠ ascii "exit" ∧ ¬ (commandName t.text = ascii "task" ∧ env.client = 0) :=
    fun t ht => by
      rw [commandName_endif ht]
      exact ⟨by decide, fun h => absurd h.1 (by decide)⟩
  induction s with
  | nil =>
    intro t ht
    cases ht
  | text u rest ih =>
    intro t ht hcmd
    rcases List.mem_cons.mp ht with rfl | ht
    · rw [h.1] at hcmd
      cases hcmd
    · exact ih h.2 t ht hcmd
  | command u rest ih =>
    intro t ht hcmd
    rcases List.mem_cons.mp ht with rfl | ht
    · refine ⟨fun hexit => h.1.2.1 ?_, h.1.2.2⟩
      rw [hexit]
      decide
    · exact ih h.2 t ht hcmd
  | cond opening yes closing rest ihy ihr =>
    obtain ⟨ho, hy, hc, hr⟩ := h
    intro t ht hcmd
    simp only [tokens, List.mem_cons, List.mem_append] at ht
    rcases ht with rfl | ht | rfl | ht
    · exact hif t ho
    · exact ihy hy t ht hcmd
    · exact hendif t hc
    · exact ihr hr t ht hcmd
  | condElse opening yes middle no closing rest ihy ihn ihr =>
    obtain ⟨ho, hy, hm, hn, hc, hr⟩ := h
    intro t ht hcmd
    simp only [tokens, List.mem_cons, List.mem_append] at ht
    rcases ht with rfl | ht | rfl | ht | rfl | ht
    · exact hif t ho
    · exact ihy hy t ht hcmd
    · exact helse t hm
    · exact ihn hn t ht hcmd
    · exact hendif t hc
    · exact ihr hr t ht hcmd

/-- The SQL of a script is in its texts. -/
theorem Valid.sqlPositions_tokens {s : Script} {client : ℕ} (h : s.Valid client) :
    sqlPositions s.tokens = sqlPositions s.texts := by
  have hif : ∀ t : Token, startsWith (ascii "--if") t.text = true → isSql t.text = false :=
    fun t ht => isSql_of_isCommand (isCommand_of_startsWith (by decide) ht)
  have helse : ∀ t : Token, startsWith (ascii "--else") t.text = true → isSql t.text = false :=
    fun t ht => isSql_of_isCommand (isCommand_of_startsWith (by decide) ht)
  have hendif : ∀ t : Token, IsClosing t.text → isSql t.text = false :=
    fun t ht => isSql_of_isCommand ht.isCommand
  rw [sqlPositions, sqlPositions]
  congr 1
  induction s with
  | nil => rfl
  | text t rest ih => simp only [tokens, texts, List.filter_cons, ih h.2]
  | command t rest ih =>
    simp only [tokens, texts, List.filter_cons, isSql_of_isCommand h.1.1, Bool.false_eq_true,
      if_false, ih h.2]
  | cond opening yes closing rest ihy ihr =>
    obtain ⟨ho, hy, hc, hr⟩ := h
    simp only [tokens, texts, List.filter_cons, List.filter_append, hif _ ho, hendif _ hc,
      Bool.false_eq_true, if_false, ihy hy, ihr hr]
  | condElse opening yes middle no closing rest ihy ihn ihr =>
    obtain ⟨ho, hy, hm, hn, hc, hr⟩ := h
    simp only [tokens, texts, List.filter_cons, List.filter_append, hif _ ho, helse _ hm,
      hendif _ hc, Bool.false_eq_true, if_false, ihy hy, ihn hn, ihr hr]

end Script

/-- **A run executes the SQL of the taken branches exactly if the others hold no SQL.** -/
theorem runScript_taken_iff {z : Bytes} {s : Script} {env : Env} (hlex : lex 0 z = s.tokens)
    (hvalid : s.Valid env.client) :
    executed z (runScript env z) = sqlPositions (s.taken env.test) ↔
      ∀ t ∈ s.untaken env.test, isSql t.text = false := by
  have hall : executed z (runScript env z) = sqlPositions s.texts := by
    rw [executed_runScript (by rw [hlex]; exact hvalid.straight), hlex, hvalid.sqlPositions_tokens]
  rw [hall]
  constructor
  · intro heq t ht
    by_contra hsql
    rw [Bool.not_eq_false] at hsql
    -- The texts have as many SQL positions as both kinds of branches together.
    have hperm : (sqlPositions s.texts).Perm
        (sqlPositions (s.taken env.test) ++ sqlPositions (s.untaken env.test)) := by
      rw [sqlPositions, sqlPositions, sqlPositions, ← List.flatMap_append, ← List.filter_append]
      exact ((s.texts_perm env.test).filter _).flatMap_right _
    have hnone : sqlPositions (s.untaken env.test) = [] := by
      have hlen := hperm.length_eq
      rw [heq, List.length_append] at hlen
      exact List.length_eq_zero_iff.mp (by omega)
    have hne : t.text ≠ [] := by
      intro hnil
      rw [hnil] at hsql
      cases hsql
    have hpos : t.pos ∈ sqlPositions (s.untaken env.test) := by
      refine List.mem_flatMap.mpr ⟨t, List.mem_filter.mpr ⟨ht, hsql⟩, ?_⟩
      rw [Token.positions, List.mem_range'_1]
      have := List.length_pos_iff.mpr hne
      omega
    rw [hnone] at hpos
    cases hpos
  · intro h
    rw [sqlPositions, sqlPositions, Script.filter_texts env.test h]

/-- A block with nothing but a comment. -/
def guardedComment : Script :=
  .cond ⟨0, ascii "--if 0\n"⟩ (.text ⟨7, ascii "-- c\n"⟩ .nil) ⟨12, ascii "--endif\n"⟩ .nil

theorem untaken_comment_is_no_sql :
    executed (ascii "--if 0\n-- c\n--endif\n")
        (runScript ⟨0, fun _ => false⟩ (ascii "--if 0\n-- c\n--endif\n")) =
      sqlPositions (guardedComment.taken fun _ => false) :=
  (runScript_taken_iff (s := guardedComment) (by decide +kernel)
    ⟨by decide, ⟨by decide, trivial⟩, by decide, trivial⟩).mpr (by decide)

/-- A block with one statement. -/
def guardedStatement : Script :=
  .cond ⟨0, ascii "--if 0\n"⟩
    (.text ⟨7, ascii "X"⟩ (.text ⟨8, ascii ";"⟩ (.text ⟨9, ascii "\n"⟩ .nil)))
    ⟨10, ascii "--endif\n"⟩ .nil

/-- The statement runs although its branch is not taken. -/
theorem untaken_statement_runs :
    lex 0 (ascii "--if 0\nX;\n--endif\n") = guardedStatement.tokens ∧
    guardedStatement.Valid 0 ∧
    executed (ascii "--if 0\nX;\n--endif\n")
      (runScript ⟨0, fun _ => false⟩ (ascii "--if 0\nX;\n--endif\n")) = [7, 8] ∧
    sqlPositions (guardedStatement.taken fun _ => false) = [] :=
  ⟨by decide +kernel, ⟨by decide, ⟨by decide, by decide, by decide, trivial⟩, by decide, trivial⟩,
    by decide +kernel, by decide +kernel⟩

end Fstest.Mptest
