import Fstest.Mptest.ControlFlow

/-!
# Which commands run

`runScript_commands`: the commands that run are those of the branches that are taken, in order. The
search for the end of a branch skips nested blocks with their own `--else` and `--endif`.
-/

namespace Fstest.Mptest

/-! ## The search for the end of a branch -/

theorem findEndif_fuel {f g : ℕ} {z : Bytes} (hf : z.length ≤ f) (hg : z.length ≤ g) (stop : Bool) :
    findEndif f z stop = findEndif g z stop := by
  induction f generalizing g z stop with
  | zero =>
    obtain rfl : z = [] := List.length_eq_zero_iff.mp (Nat.le_zero.mp hf)
    cases g <;> simp [findEndif]
  | succ f ih =>
    by_cases hz : z = []
    · subst hz
      cases g <;> simp [findEndif]
    · have hlen := tokenLength_bounds hz
      obtain ⟨g, rfl⟩ : ∃ k, g = k + 1 := ⟨g - 1, by omega⟩
      have hrest : (z.drop (tokenLength z).1).length = z.length - (tokenLength z).1 :=
        List.length_drop
      have heq : ∀ n stop, findEndif f ((z.drop (tokenLength z).1).drop n) stop =
          findEndif g ((z.drop (tokenLength z).1).drop n) stop := by
        intro n stop
        have hdrop : ((z.drop (tokenLength z).1).drop n).length =
            (z.drop (tokenLength z).1).length - n := List.length_drop
        exact ih (by omega) (by omega) stop
      have heq0 := fun stop => heq 0 stop
      simp only [List.drop_zero] at heq0
      simp only [findEndif, if_neg hz, heq, heq0]

/-- The bytes that the search skips. -/
def endifLength (z : Bytes) (stop : Bool) : ℕ := (findEndif z.length z stop).1

theorem endifLength_eq {f : ℕ} {z : Bytes} (hf : z.length ≤ f) (stop : Bool) :
    (findEndif f z stop).1 = endifLength z stop := by
  rw [endifLength, findEndif_fuel hf (Nat.le_refl _)]

theorem endifLength_le (z : Bytes) (stop : Bool) : endifLength z stop ≤ z.length := by
  have h := ((boundary_zero z).findEndif z.length stop).le
  rwa [Nat.zero_add, List.drop_zero] at h

theorem endifLength_cons {z : Bytes} (hz : z ≠ []) (stop : Bool) :
    endifLength z stop =
      if startsWith (ascii "--endif") z || stop && startsWith (ascii "--else") z then (tokenLength z).1
      else if startsWith (ascii "--if") z then
        (tokenLength z).1 + endifLength (z.drop (tokenLength z).1) false +
          endifLength ((z.drop (tokenLength z).1).drop
            (endifLength (z.drop (tokenLength z).1) false)) stop
      else (tokenLength z).1 + endifLength (z.drop (tokenLength z).1) stop := by
  have hlen := tokenLength_bounds hz
  obtain ⟨n, hn⟩ : ∃ n, z.length = n + 1 := ⟨z.length - 1, by omega⟩
  have hrest : (z.drop (tokenLength z).1).length = z.length - (tokenLength z).1 := List.length_drop
  have hskip : (findEndif n (z.drop (tokenLength z).1) false).1 =
      endifLength (z.drop (tokenLength z).1) false := endifLength_eq (by omega) false
  have hdrop : ((z.drop (tokenLength z).1).drop
      (endifLength (z.drop (tokenLength z).1) false)).length ≤ n := by
    rw [List.length_drop]
    omega
  rw [endifLength, hn, findEndif, if_neg hz]
  simp only []
  rw [hskip]
  split
  · rfl
  · split
    · simp only [endifLength_eq hdrop]
    · simp only [endifLength_eq (show (z.drop (tokenLength z).1).length ≤ n by omega)]

/-! ## Keywords at the start of a text and of its first token -/

theorem startsWith_append {word x : Bytes} (h : startsWith word x = true) (y : Bytes) :
    startsWith word (x ++ y) = true := by
  obtain ⟨c, r, rfl, hc⟩ := startsWith_iff.mp h
  exact startsWith_iff.mpr ⟨c, r ++ y, by simp, hc⟩

theorem length_lt_lineLength {u : Bytes} (hu : newline ∉ u) (c : UInt8) (r : Bytes) :
    u.length < (lineLength (u ++ c :: r)).1 := by
  induction u with
  | nil =>
    rw [List.nil_append, lineLength]
    split <;> simp
  | cons d u ih =>
    have hd : d ≠ newline := fun h => hu (h ▸ List.mem_cons_self)
    have := ih fun h => hu (List.mem_cons_of_mem d h)
    rw [List.cons_append, lineLength, if_neg hd, Extent.step_fst, List.length_cons]
    omega

/-- A keyword behind two dashes can be seen from the token. -/
theorem startsWith_token {u z : Bytes} (hu : newline ∉ u) :
    startsWith (dash :: dash :: u) (z.take (tokenLength z).1) = startsWith (dash :: dash :: u) z := by
  rw [Bool.eq_iff_iff]
  constructor
  · intro h
    have happ := startsWith_append h (z.drop (tokenLength z).1)
    rwa [List.take_append_drop] at happ
  · intro h
    obtain ⟨c, r, rfl, hc⟩ := startsWith_iff.mp h
    have hlen : (tokenLength (dash :: dash :: u ++ c :: r)).1 =
        (lineLength (u ++ c :: r)).1 + 2 := by
      rw [List.cons_append, List.cons_append, tokenLength_dashes]
      rfl
    have hlt := length_lt_lineLength hu c r
    refine startsWith_iff.mpr ⟨c, r.take ((lineLength (u ++ c :: r)).1 - u.length - 1), ?_, hc⟩
    obtain ⟨k, hk⟩ : ∃ k, (lineLength (u ++ c :: r)).1 = u.length + (k + 1) :=
      ⟨(lineLength (u ++ c :: r)).1 - u.length - 1, by omega⟩
    rw [hlen, hk, List.take_append, List.take_of_length_le (by simp)]
    congr 1
    have hsub : u.length + (k + 1) + 2 - (dash :: dash :: u).length = k + 1 := by
      simp only [List.length_cons]
      omega
    rw [hsub, List.take_succ_cons]
    congr 2
    omega

theorem isCommand_append {x : Bytes} (h : isCommand x = true) (y : Bytes) :
    isCommand (x ++ y) = true := by
  obtain ⟨c, r, rfl, hc⟩ := isCommand_cons h
  simp [isCommand, hc]

theorem isCommand_token_eq (z : Bytes) : isCommand (z.take (tokenLength z).1) = isCommand z := by
  rw [Bool.eq_iff_iff]
  refine ⟨fun h => ?_, fun h => (isCommand_token h).1⟩
  have happ := isCommand_append h (z.drop (tokenLength z).1)
  rwa [List.take_append_drop] at happ

/-- The keywords at the start of a text, by its first token. -/
structure Keywords (z : Bytes) (ifs elses endifs : Bool) : Prop where
  ifs : startsWith (ascii "--if") z = ifs
  elses : startsWith (ascii "--else") z = elses
  endifs : startsWith (ascii "--endif") z = endifs

theorem keywords_token {z : Bytes} {i e f : Bool} (h : Keywords (z.take (tokenLength z).1) i e f) :
    Keywords z i e f where
  ifs := (startsWith_token (u := ascii "if") (by decide)).symm.trans h.ifs
  elses := (startsWith_token (u := ascii "else") (by decide)).symm.trans h.elses
  endifs := (startsWith_token (u := ascii "endif") (by decide)).symm.trans h.endifs

/-- A command with another name starts with no keyword. -/
theorem keywords_of_name {text : Bytes} {i e f : Bool}
    (hi : startsWith (ascii "--if") text = i ∨ i = false ∧ commandName text ≠ ascii "if")
    (he : startsWith (ascii "--else") text = e ∨ e = false ∧ commandName text ≠ ascii "else")
    (hf : startsWith (ascii "--endif") text = f ∨ f = false ∧ commandName text ≠ ascii "endif") :
    Keywords text i e f := by
  refine ⟨?_, ?_, ?_⟩
  · rcases hi with hi | ⟨rfl, hne⟩
    · exact hi
    · exact Bool.eq_false_iff.mpr fun h => hne (commandName_if h)
  · rcases he with he | ⟨rfl, hne⟩
    · exact he
    · exact Bool.eq_false_iff.mpr fun h => hne (commandName_else h)
  · rcases hf with hf | ⟨rfl, hne⟩
    · exact hf
    · exact Bool.eq_false_iff.mpr fun h => hne (commandName_endif (.inl h))

theorem keywords_if {text : Bytes} (h : startsWith (ascii "--if") text = true) :
    Keywords text true false false := by
  have hname := commandName_if h
  exact keywords_of_name (.inl h) (.inr ⟨rfl, by rw [hname]; decide⟩)
    (.inr ⟨rfl, by rw [hname]; decide⟩)

theorem keywords_else {text : Bytes} (h : startsWith (ascii "--else") text = true) :
    Keywords text false true false := by
  have hname := commandName_else h
  exact keywords_of_name (.inr ⟨rfl, by rw [hname]; decide⟩) (.inl h)
    (.inr ⟨rfl, by rw [hname]; decide⟩)

theorem keywords_plain {client : ℕ} {text : Bytes} (h : IsPlain client text) :
    Keywords text false false false := by
  have hne : ∀ name ∈ ["if", "else", "endif"], commandName text ≠ ascii name := by
    intro name hname heq
    refine h.2.1 (List.mem_map.mpr ⟨name, ?_, heq.symm⟩)
    simp only [List.mem_cons, List.not_mem_nil, or_false] at hname ⊢
    tauto
  exact keywords_of_name (.inr ⟨rfl, hne _ (by simp)⟩) (.inr ⟨rfl, hne _ (by simp)⟩)
    (.inr ⟨rfl, hne _ (by simp)⟩)

theorem keywords_text {text : Bytes} (h : isCommand text = false) :
    Keywords text false false false := by
  have hno : ∀ word, isCommand word = true → startsWith word text = false := by
    intro word hword
    refine Bool.eq_false_iff.mpr fun hstart => ?_
    rw [isCommand_of_startsWith hword hstart] at h
    cases h
  exact ⟨hno _ (by decide), hno _ (by decide), hno _ (by decide)⟩

/-! ## Skipping a branch -/

theorem lex_eq_cons {w : Bytes} {pos : ℕ} {t : Token} {tl : List Token} (h : lex pos w = t :: tl) :
    w ≠ [] ∧ t = ⟨pos, w.take (tokenLength w).1⟩ ∧
      lex (pos + (tokenLength w).1) (w.drop (tokenLength w).1) = tl := by
  have hw : w ≠ [] := by
    rintro rfl
    cases h
  rw [lex_cons pos hw, List.cons.injEq] at h
  exact ⟨hw, h.1.symm, h.2⟩

/-- The search ends behind such a token. -/
def Ends (stop : Bool) (text : Bytes) : Prop :=
  IsClosing text ∨ stop = true ∧ startsWith (ascii "--else") text = true

theorem endifLength_ends {w : Bytes} {stop : Bool} (hw : w ≠ [])
    (h : Ends stop (w.take (tokenLength w).1)) : endifLength w stop = (tokenLength w).1 := by
  have htoken := fun u hu => startsWith_token (u := u) (z := w) hu
  rcases h with (h | h) | ⟨rfl, h⟩
  · have hstart : startsWith (ascii "--endif") w = true :=
      (htoken (ascii "endif") (by decide)).symm.trans h
    rw [endifLength_cons hw, hstart, Bool.true_or, if_pos rfl]
  · -- The last line of the script, without its line end.
    have hlast : w.drop (tokenLength w).1 = [] := by
      by_contra hne
      obtain ⟨c, r, hcr⟩ := List.exists_cons_of_ne_nil hne
      have hsplit := List.take_append_drop (tokenLength w).1 w
      rw [h, hcr] at hsplit
      have hlong := length_lt_lineLength (u := ascii "endif") (by decide) c r
      have htake := length_take_tokenLength hw
      have hdashes := tokenLength_dashes (ascii "endif" ++ c :: r)
      rw [show dash :: dash :: (ascii "endif" ++ c :: r) = w from hsplit] at hdashes
      rw [h, hdashes] at htake
      simp only [Extent.step_fst] at htake
      have hseven : (ascii "--endif").length = 7 := by decide
      have hfive : (ascii "endif").length = 5 := by decide
      omega
    have hw' : w = ascii "--endif" := by
      have hsplit := List.take_append_drop (tokenLength w).1 w
      rw [h, hlast, List.append_nil] at hsplit
      exact hsplit.symm
    subst hw'
    cases stop <;> decide +kernel
  · have hstart : startsWith (ascii "--else") w = true :=
      (htoken (ascii "else") (by decide)).symm.trans h
    rw [endifLength_cons hw, hstart, Bool.true_and, Bool.or_true, if_pos rfl]

/-- The search goes over these tokens to what follows them. -/
def Transparent (stop : Bool) (toks : List Token) : Prop :=
  ∀ w pos tl, lex pos w = toks ++ tl → ∃ n, lex (pos + n) (w.drop n) = tl ∧
    endifLength w stop = n + endifLength (w.drop n) stop

theorem transparent_nil (stop : Bool) : Transparent stop [] :=
  fun w pos tl h => ⟨0, h, by simp⟩

theorem Transparent.append {stop : Bool} {a b : List Token} (ha : Transparent stop a)
    (hb : Transparent stop b) : Transparent stop (a ++ b) := by
  intro w pos tl h
  rw [List.append_assoc] at h
  obtain ⟨m, hm, hem⟩ := ha w pos _ h
  obtain ⟨n, hn, hen⟩ := hb _ _ _ hm
  refine ⟨m + n, ?_, ?_⟩
  · rw [← Nat.add_assoc, ← List.drop_drop]
    exact hn
  · rw [hem, hen, List.drop_drop, Nat.add_assoc]

theorem transparent_token {stop : Bool} {t : Token} {e : Bool}
    (h : Keywords t.text false e false) (he : (stop && e) = false) : Transparent stop [t] := by
  intro w pos tl hlex
  obtain ⟨hw, ht, hrest⟩ := lex_eq_cons hlex
  rw [ht] at h
  have hkey := keywords_token h
  refine ⟨_, hrest, ?_⟩
  rw [endifLength_cons hw, hkey.endifs, hkey.elses, he, hkey.ifs]
  rfl

/-- The search in a branch comes to its end, and not further. -/
theorem lex_endifLength {stop : Bool} {ys tl : List Token} {c : Token} (hys : Transparent stop ys)
    (hc : Ends stop c.text) {w : Bytes} {pos : ℕ} (h : lex pos w = ys ++ c :: tl) :
    lex (pos + endifLength w stop) (w.drop (endifLength w stop)) = tl := by
  obtain ⟨n, hn, hen⟩ := hys w pos _ h
  obtain ⟨hw, rfl, hrest⟩ := lex_eq_cons hn
  rw [hen, endifLength_ends hw hc, ← Nat.add_assoc, ← List.drop_drop]
  exact hrest

theorem transparent_block {stop : Bool} {o c : Token} {ys : List Token}
    (ho : startsWith (ascii "--if") o.text = true) (hys : Transparent false ys)
    (hc : IsClosing c.text) : Transparent stop (o :: (ys ++ [c])) := by
  intro w pos tl h
  have hlex : lex pos w = o :: (ys ++ c :: tl) := by simpa using h
  obtain ⟨hw, rfl, hrest⟩ := lex_eq_cons hlex
  have hkey := keywords_token (keywords_if ho)
  have hend := lex_endifLength hys (.inl hc) hrest
  refine ⟨(tokenLength w).1 + endifLength (w.drop (tokenLength w).1) false, ?_, ?_⟩
  · rw [← Nat.add_assoc, ← List.drop_drop]
    exact hend
  · rw [endifLength_cons hw, hkey.endifs, hkey.elses, hkey.ifs, List.drop_drop]
    simp

/-- The search goes over a whole script, with all blocks in it. -/
theorem Script.Valid.transparent {s : Script} {client : ℕ} (h : s.Valid client) (stop : Bool) :
    Transparent stop s.tokens := by
  induction s generalizing stop with
  | nil => exact transparent_nil stop
  | text t rest ih =>
    exact (transparent_token (keywords_text h.1) (Bool.and_false stop)).append (ih h.2 stop)
  | command t rest ih =>
    exact (transparent_token (keywords_plain h.1) (Bool.and_false stop)).append (ih h.2 stop)
  | cond opening yes closing rest ihy ihr =>
    obtain ⟨ho, hy, hc, hr⟩ := h
    have hblock := (transparent_block ho (ihy hy false) hc).append (ihr hr stop)
    simpa [Script.tokens] using hblock
  | condElse opening yes middle no closing rest ihy ihn ihr =>
    obtain ⟨ho, hy, hm, hn, hc, hr⟩ := h
    have hmiddle : Transparent false [middle] :=
      transparent_token (keywords_else hm) (Bool.false_and true)
    have hblock := (transparent_block ho ((ihy hy false).append (hmiddle.append (ihn hn false)))
      hc).append (ihr hr stop)
    simpa [Script.tokens] using hblock

/-! ## The loop -/

/-- The positions of the commands that run. -/
def commandsRun (events : List Event) : List ℕ :=
  events.filterMap fun
    | .sql .. => none
    | .command pos .. => some pos

@[simp] theorem commandsRun_flush (iBegin ii : ℕ) : commandsRun (flush iBegin ii) = [] := by
  rw [flush]
  split <;> rfl

/-- The cursor stands before these tokens. -/
structure At (z : Bytes) (ii : ℕ) (tl : List Token) : Prop where
  le : ii ≤ z.length
  lexes : lex ii (z.drop ii) = tl

/-- From before `tl` the loop comes to `tl'`, and runs the commands at `cs` on its way. -/
def Leads (env : Env) (z : Bytes) (cs : List ℕ) (tl tl' : List Token) : Prop :=
  ∀ fuel ii iBegin line, At z ii tl → z.length < ii + fuel →
    ∃ fuel' ii' iBegin' line', At z ii' tl' ∧ z.length < ii' + fuel' ∧
      commandsRun (runLoop env z fuel ii iBegin line) =
        cs ++ commandsRun (runLoop env z fuel' ii' iBegin' line')

section

variable {env : Env} {z : Bytes} {cs cs' : List ℕ} {tl tl' tl'' : List Token} {t : Token}

theorem leads_refl : Leads env z [] tl tl :=
  fun fuel ii iBegin line hat hfuel => ⟨fuel, ii, iBegin, line, hat, hfuel, rfl⟩

theorem Leads.trans (h : Leads env z cs tl tl') (h' : Leads env z cs' tl' tl'') :
    Leads env z (cs ++ cs') tl tl'' := by
  intro fuel ii iBegin line hat hfuel
  obtain ⟨fuel₁, ii₁, iBegin₁, line₁, hat₁, hfuel₁, heq₁⟩ := h fuel ii iBegin line hat hfuel
  obtain ⟨fuel₂, ii₂, iBegin₂, line₂, hat₂, hfuel₂, heq₂⟩ := h' fuel₁ ii₁ iBegin₁ line₁ hat₁ hfuel₁
  exact ⟨fuel₂, ii₂, iBegin₂, line₂, hat₂, hfuel₂, by rw [heq₁, heq₂, List.append_assoc]⟩

theorem At.ne_nil {ii : ℕ} (h : At z ii (t :: tl)) : z.drop ii ≠ [] := (lex_eq_cons h.lexes).1

theorem At.lt {ii : ℕ} (h : At z ii (t :: tl)) : ii < z.length := by
  by_contra hge
  exact h.ne_nil (List.drop_eq_nil_iff.mpr (by omega))

theorem At.le_of_token {ii : ℕ} (h : At z ii (t :: tl)) :
    ii + (tokenLength (z.drop ii)).1 ≤ z.length := by
  have hlen := (tokenLength_bounds h.ne_nil).2
  have := h.le
  rw [List.length_drop] at hlen
  omega

theorem leads_text (ht : isCommand t.text = false) : Leads env z [] (t :: tl) tl := by
  intro fuel ii iBegin line hat hfuel
  obtain ⟨hne, rfl, hrest⟩ := lex_eq_cons hat.lexes
  have hlen := tokenLength_bounds hne
  obtain ⟨fuel, rfl⟩ : ∃ k, fuel = k + 1 := ⟨fuel - 1, by have := hat.lt; omega⟩
  rw [isCommand_token_eq] at ht
  obtain ⟨line', hstep⟩ := runLoop_text hne ht fuel iBegin line
  refine ⟨fuel, ii + (tokenLength (z.drop ii)).1, iBegin, line', ⟨hat.le_of_token, ?_⟩, by omega,
    by rw [hstep]; rfl⟩
  rw [← List.drop_drop]
  exact hrest

/-- A command leads to the tokens behind what it skips. -/
theorem leads_command (ht : isCommand t.text = true)
    (hexit : commandName t.text ≠ ascii "exit")
    (htask : ¬ (commandName t.text = ascii "task" ∧ env.client = 0))
    (hskip : ∀ ii, At z ii (t :: tl) → At z (ii + skipped env z ii + (tokenLength (z.drop ii)).1) tl') :
    Leads env z [t.pos] (t :: tl) tl' := by
  intro fuel ii iBegin line hat hfuel
  have hto := hskip ii hat
  obtain ⟨hne, rfl, -⟩ := lex_eq_cons hat.lexes
  have hlen := tokenLength_bounds hne
  obtain ⟨fuel, rfl⟩ : ∃ k, fuel = k + 1 := ⟨fuel - 1, by have := hat.lt; omega⟩
  rw [isCommand_token_eq] at ht
  obtain ⟨line', hstep⟩ := runLoop_command ht hexit htask fuel iBegin line
  refine ⟨fuel, _, begun iBegin ii (tokenLength (z.drop ii)).1, line', hto, by omega, ?_⟩
  rw [hstep, commandsRun, List.filterMap_append, ← commandsRun, commandsRun_flush]
  rfl

/-- A command that skips nothing. -/
theorem leads_next (ht : isCommand t.text = true) (hexit : commandName t.text ≠ ascii "exit")
    (htask : ¬ (commandName t.text = ascii "task" ∧ env.client = 0))
    (hif : commandName t.text = ascii "if" → env.test t.pos = true)
    (helse : commandName t.text ≠ ascii "else") : Leads env z [t.pos] (t :: tl) tl := by
  refine leads_command ht hexit htask fun ii hat => ?_
  have hle := hat.le_of_token
  obtain ⟨hne, rfl, hrest⟩ := lex_eq_cons hat.lexes
  have hzero : skipped env z ii = 0 := by
    rw [skipped]
    simp only [if_neg helse]
    split
    · next hname => rw [if_pos (hif hname)]
    · rfl
  rw [hzero, Nat.add_zero]
  refine ⟨hle, ?_⟩
  rw [← List.drop_drop]
  exact hrest

/-- A command that skips the branch `ys`. -/
theorem leads_skip {stop : Bool} {ys : List Token} {c : Token} (ht : isCommand t.text = true)
    (hname : commandName t.text = ascii "if" ∧ env.test t.pos = false ∧ stop = true ∨
      commandName t.text = ascii "else" ∧ stop = false)
    (hys : Transparent stop ys) (hc : Ends stop c.text) :
    Leads env z [t.pos] (t :: (ys ++ c :: tl)) tl := by
  have hnames : commandName t.text = ascii "if" ∨ commandName t.text = ascii "else" :=
    hname.imp And.left And.left
  have hexit : commandName t.text ≠ ascii "exit" := by
    rcases hnames with h | h <;> rw [h] <;> decide
  have htask : ¬ (commandName t.text = ascii "task" ∧ env.client = 0) := by
    rintro ⟨h', -⟩
    rcases hnames with h | h <;> rw [h] at h' <;> revert h' <;> decide
  refine leads_command ht hexit htask fun ii hat => ?_
  have hle := hat.le_of_token
  obtain ⟨hne, rfl, hrest⟩ := lex_eq_cons hat.lexes
  have hlen : ((z.drop ii).drop (tokenLength (z.drop ii)).1).length ≤ z.length := by
    rw [List.length_drop, List.length_drop]
    omega
  have hskipped : skipped env z ii =
      endifLength ((z.drop ii).drop (tokenLength (z.drop ii)).1) stop := by
    rw [skipped]
    rcases hname with ⟨hif, htest, rfl⟩ | ⟨helse, rfl⟩
    · simp only [show commandName _ = ascii "if" from hif, if_true,
        show env.test ii = false from htest, Bool.false_eq_true, if_false, endifLength_eq hlen]
    · have hne' : ascii "else" ≠ ascii "if" := by decide
      simp only [show commandName _ = ascii "else" from helse, if_neg hne', if_true,
        endifLength_eq hlen]
  have hend := lex_endifLength hys hc hrest
  rw [hskipped, Nat.add_right_comm]
  refine ⟨?_, ?_⟩
  · have hbound := endifLength_le ((z.drop ii).drop (tokenLength (z.drop ii)).1) stop
    rw [List.length_drop, List.length_drop] at hbound
    omega
  · rw [← List.drop_drop, ← List.drop_drop]
    exact hend

/-- A whole script leads to what follows it, by the commands of the branches that are taken. -/
theorem Script.Valid.leads {s : Script} (h : s.Valid env.client) (tl : List Token) :
    Leads env z ((s.commands env.test).map Token.pos) (s.tokens ++ tl) tl := by
  have hopen : ∀ {t : Token}, startsWith (ascii "--if") t.text = true → isCommand t.text = true :=
    fun ht => isCommand_of_startsWith (by decide) ht
  have hclosing : ∀ {c : Token} (tl : List Token), IsClosing c.text →
      Leads env z [c.pos] (c :: tl) tl := by
    intro c tl hc
    have hname := commandName_endif hc
    refine leads_next hc.isCommand ?_ ?_ ?_ ?_ <;> rw [hname]
    · decide
    · exact fun h => absurd h.1 (by decide)
    · exact fun h => absurd h (by decide)
    · decide
  have htaken : ∀ {o : Token} (tl : List Token), startsWith (ascii "--if") o.text = true →
      env.test o.pos = true → Leads env z [o.pos] (o :: tl) tl := by
    intro o tl ho htest
    have hname := commandName_if ho
    refine leads_next (hopen ho) ?_ ?_ (fun _ => htest) ?_ <;> rw [hname]
    · decide
    · exact fun h => absurd h.1 (by decide)
    · decide
  induction s generalizing tl with
  | nil => exact leads_refl
  | text t rest ih => exact (leads_text h.1).trans (ih h.2 tl)
  | command t rest ih =>
    obtain ⟨⟨hcmd, hname, htask⟩, hr⟩ := h
    have hne : ∀ name ∈ ["if", "else", "endif", "exit", "source"],
        commandName t.text ≠ ascii name := by
      intro name hmem heq
      exact hname (List.mem_map.mpr ⟨name, hmem, heq.symm⟩)
    exact (leads_next hcmd (hne _ (by simp)) htask (fun h => absurd h (hne _ (by simp)))
      (hne _ (by simp))).trans (ih hr tl)
  | cond opening yes closing rest ihy ihr =>
    obtain ⟨ho, hy, hc, hr⟩ := h
    have htokens : (cond opening yes closing rest).tokens ++ tl =
        opening :: (yes.tokens ++ closing :: (rest.tokens ++ tl)) := by
      simp [Script.tokens]
    rw [htokens]
    simp only [commands, List.map_cons, List.map_append]
    split
    · next htest =>
      have hpath := (htaken _ ho htest).trans
        ((ihy hy _).trans ((hclosing _ hc).trans (ihr hr tl)))
      simpa using hpath
    · next htest =>
      rw [Bool.not_eq_true] at htest
      exact (leads_skip (hopen ho) (.inl ⟨commandName_if ho, htest, rfl⟩) (hy.transparent true)
        (.inl hc)).trans (ihr hr tl)
  | condElse opening yes middle no closing rest ihy ihn ihr =>
    obtain ⟨ho, hy, hm, hn, hc, hr⟩ := h
    have htokens : (condElse opening yes middle no closing rest).tokens ++ tl = opening ::
        (yes.tokens ++ middle :: (no.tokens ++ closing :: (rest.tokens ++ tl))) := by
      simp [Script.tokens]
    rw [htokens]
    simp only [commands, List.map_cons, List.map_append]
    split
    · next htest =>
      -- The `--else` behind the taken branch skips the other one.
      have hmiddle : Leads env z [middle.pos] (middle :: (no.tokens ++ closing ::
          (rest.tokens ++ tl))) (rest.tokens ++ tl) :=
        leads_skip (isCommand_of_startsWith (by decide) hm) (.inr ⟨commandName_else hm, rfl⟩)
          (hn.transparent false) (.inl hc)
      have hpath := (htaken _ ho htest).trans ((ihy hy _).trans (hmiddle.trans (ihr hr tl)))
      simpa using hpath
    · next htest =>
      rw [Bool.not_eq_true] at htest
      have hskip : Leads env z [opening.pos] (opening :: (yes.tokens ++ middle ::
          (no.tokens ++ closing :: (rest.tokens ++ tl)))) (no.tokens ++ closing ::
            (rest.tokens ++ tl)) :=
        leads_skip (hopen ho) (.inl ⟨commandName_if ho, htest, rfl⟩) (hy.transparent true)
          (.inr ⟨rfl, hm⟩)
      have hpath := hskip.trans ((ihn hn _).trans ((hclosing _ hc).trans (ihr hr tl)))
      simpa using hpath

end

/-- **A run carries out the commands of the branches that are taken**, in order, and no others. -/
theorem runScript_commands {z : Bytes} {s : Script} {env : Env} (hlex : lex 0 z = s.tokens)
    (hvalid : s.Valid env.client) :
    commandsRun (runScript env z) = (s.commands env.test).map Token.pos := by
  have hat : At z 0 (s.tokens ++ []) := ⟨Nat.zero_le _, by rw [List.drop_zero, List.append_nil, hlex]⟩
  obtain ⟨fuel, ii, iBegin, line, hend, hfuel, heq⟩ :=
    hvalid.leads [] (z.length + 1) 0 0 1 hat (by omega)
  have hnil : z.drop ii = [] := by
    by_contra hne
    have hlex' := hend.lexes
    rw [lex_cons ii hne] at hlex'
    cases hlex'
  have hstop : commandsRun (runLoop env z fuel ii iBegin line) = [] := by
    cases fuel with
    | zero => rfl
    | succ fuel => rw [runLoop, hnil, if_pos rfl, commandsRun_flush]
  rw [runScript, heq, hstop, List.append_nil]

end Fstest.Mptest
