import Fstest.Lib.Bytes

/-!
# The tokens of a script

`tokenLength` is `token_length`: the length of the token at the start of a text, with the number of
line ends that it counts. `lex` cuts a whole script into its tokens. `findEnd` and `findEndif` look
ahead for the end of a task or of a conditional block; they return how many bytes and lines they
skip.

The functions that the source writes as loops over an index are recursions over the rest of the
text. Those that go on with the next token take a bound on the number of tokens; the length of the
text is always enough (`findEndif_fuel`).
-/

namespace Fstest.Mptest

abbrev newline : UInt8 := 10
abbrev doubleQuote : UInt8 := 34
abbrev singleQuote : UInt8 := 39
abbrev star : UInt8 := 42
abbrev dash : UInt8 := 45
abbrev slash : UInt8 := 47
abbrev semicolon : UInt8 := 59

/-- The bytes of an ASCII text. -/
def ascii (s : String) : Bytes := s.toList.map fun c => UInt8.ofNat c.toNat

def isSpace (b : UInt8) : Bool :=
  b == 32 || b == 9 || b == newline || b == 11 || b == 12 || b == 13

def isAlphabetic (b : UInt8) : Bool := (65 ≤ b && b ≤ 90) || (97 ≤ b && b ≤ 122)

def isDigit (b : UInt8) : Bool := 48 ≤ b && b ≤ 57

/-- Bytes and lines. -/
abbrev Extent := ℕ × ℕ

/-- One more byte, and a line where it is a line end. -/
def Extent.step (c : UInt8) (e : Extent) : Extent := (e.1 + 1, e.2 + if c = newline then 1 else 0)

/-- White space and comments. -/
def blankLength : Bool → Bytes → Extent
  | _, [] => (0, 0)
  | inC, c :: r =>
    if isSpace c then Extent.step c (blankLength inC r)
    else
      match r with
      | [] => if inC then (1, 0) else (0, 0)
      | d :: r' =>
        if inC && c == star && d == slash then
          Extent.step c (Extent.step 0 (blankLength false r'))
        else if !inC && c == slash && d == star then
          Extent.step c (Extent.step 0 (blankLength true r'))
        else if inC then Extent.step c (blankLength inC (d :: r'))
        else (0, 0)

/-- The rest of a line, after the two dashes of a command or a comment. -/
def lineLength : Bytes → Extent
  | [] => (0, 0)
  | c :: r => if c = newline then (1, 1) else Extent.step 0 (lineLength r)

/-- The rest of a literal. After a delimiter the byte behind the next one decides whether the literal
goes on. -/
def literalLength (delim : UInt8) : Bytes → Extent
  | [] => (0, 0)
  | c :: r =>
    if c = delim then
      match r with
      | [] => Extent.step c (0, 0)
      | _ :: r' =>
        if r'.head? = some delim then Extent.step c (Extent.step 0 (literalLength delim r'))
        else Extent.step c (0, 0)
    else Extent.step c (literalLength delim r)

/-- The rest of a word. -/
def wordLength (z : Bytes) : ℕ :=
  (z.takeWhile fun c => !(isSpace c || c == doubleQuote || c == singleQuote || c == semicolon)).length

def tokenLength : Bytes → Extent
  | [] => (1, 0)
  | c :: r =>
    if isSpace c then blankLength false (c :: r)
    else if c = slash ∧ r.head? = some star then
      Extent.step 0 (Extent.step 0 (blankLength true r.tail))
    else if c = dash ∧ r.head? = some dash then
      Extent.step 0 (Extent.step 0 (lineLength r.tail))
    else if c = doubleQuote ∨ c = singleQuote then Extent.step 0 (literalLength c r)
    else (wordLength r + 1, 0)

/-- The bytes up to the first white space, and at most `cap`. -/
def extractToken (z : Bytes) (cap : ℕ) : Bytes := (z.take cap).takeWhile fun c => !isSpace c

/-- The text starts with the word, and white space after it. -/
def startsWith (word z : Bytes) : Bool :=
  word.isPrefixOf z && (z.drop word.length).head?.any isSpace

/-- The bytes and lines up to the next `--end`. -/
def findEnd : ℕ → Bytes → Extent
  | 0, _ => (0, 0)
  | fuel + 1, z =>
    if z = [] ∨ startsWith (ascii "--end") z then (0, 0)
    else
      let token := tokenLength z
      let more := findEnd fuel (z.drop token.1)
      (token.1 + more.1, token.2 + more.2)

/-- The bytes and lines past the next `--endif`, or `--else` where the search stops there. A nested
`--if` is skipped with its own `--endif`. -/
def findEndif : ℕ → Bytes → Bool → Extent
  | 0, _, _ => (0, 0)
  | fuel + 1, z, stopAtElse =>
    if z = [] then (0, 0)
    else
      let token := tokenLength z
      let rest := z.drop token.1
      if startsWith (ascii "--endif") z || stopAtElse && startsWith (ascii "--else") z then token
      else if startsWith (ascii "--if") z then
        let skip := findEndif fuel rest false
        let more := findEndif fuel (rest.drop skip.1) stopAtElse
        (token.1 + skip.1 + more.1, token.2 + skip.2 + more.2)
      else
        let more := findEndif fuel rest stopAtElse
        (token.1 + more.1, token.2 + more.2)

/-! ## The length of a token -/

@[simp] theorem Extent.step_fst (c : UInt8) (e : Extent) : (Extent.step c e).1 = e.1 + 1 := rfl

theorem blankLength_le (inC : Bool) (z : Bytes) : (blankLength inC z).1 ≤ z.length := by
  fun_induction blankLength inC z <;> grind [Extent.step]

theorem lineLength_le (z : Bytes) : (lineLength z).1 ≤ z.length := by
  fun_induction lineLength z <;> grind [Extent.step]

theorem literalLength_le (delim : UInt8) (z : Bytes) : (literalLength delim z).1 ≤ z.length := by
  fun_induction literalLength delim z <;> grind [Extent.step]

theorem wordLength_le (z : Bytes) : wordLength z ≤ z.length :=
  (List.takeWhile_sublist _).length_le

/-- A token is not empty and ends inside the text. -/
theorem tokenLength_bounds {z : Bytes} (h : z ≠ []) :
    0 < (tokenLength z).1 ∧ (tokenLength z).1 ≤ z.length := by
  cases z with
  | nil => exact absurd rfl h
  | cons c r =>
    rw [tokenLength]
    split
    · next hc =>
      refine ⟨?_, blankLength_le _ _⟩
      unfold blankLength
      rw [if_pos hc]
      exact Nat.succ_pos _
    · split
      · next hc =>
        obtain ⟨d, r, rfl⟩ := List.exists_cons_of_ne_nil (show r ≠ [] by rintro rfl; simp at hc)
        have := blankLength_le true r
        simp only [Extent.step_fst, List.tail_cons, List.length_cons]
        omega
      · split
        · next hc =>
          obtain ⟨d, r, rfl⟩ := List.exists_cons_of_ne_nil (show r ≠ [] by rintro rfl; simp at hc)
          have := lineLength_le r
          simp only [Extent.step_fst, List.tail_cons, List.length_cons]
          omega
        · split
          · have := literalLength_le c r
            simp only [Extent.step_fst, List.length_cons]
            omega
          · have := wordLength_le r
            simp only [List.length_cons]
            omega

/-! ## The tokens of a text -/

/-- A token with its position in the script. -/
structure Token where
  pos : ℕ
  text : Bytes
  deriving DecidableEq, Repr

/-- The tokens of a text that starts at `pos`. -/
def lexFrom : ℕ → ℕ → Bytes → List Token
  | 0, _, _ => []
  | fuel + 1, pos, z =>
    if z = [] then []
    else
      let len := (tokenLength z).1
      ⟨pos, z.take len⟩ :: lexFrom fuel (pos + len) (z.drop len)

def lex (pos : ℕ) (z : Bytes) : List Token := lexFrom z.length pos z

theorem lexFrom_fuel {f g : ℕ} (pos : ℕ) {z : Bytes} (hf : z.length ≤ f) (hg : z.length ≤ g) :
    lexFrom f pos z = lexFrom g pos z := by
  induction f generalizing g pos z with
  | zero =>
    obtain rfl : z = [] := List.length_eq_zero_iff.mp (Nat.le_zero.mp hf)
    cases g <;> simp [lexFrom]
  | succ f ih =>
    by_cases hz : z = []
    · subst hz
      cases g <;> simp [lexFrom]
    · have hlen := tokenLength_bounds hz
      obtain ⟨g, rfl⟩ : ∃ k, g = k + 1 := ⟨g - 1, by omega⟩
      have hrest : (z.drop (tokenLength z).1).length = z.length - (tokenLength z).1 :=
        List.length_drop
      simp only [lexFrom, if_neg hz]
      rw [ih _ (by omega) (show (z.drop (tokenLength z).1).length ≤ g by omega)]

theorem lex_cons {z : Bytes} (pos : ℕ) (hz : z ≠ []) :
    lex pos z = ⟨pos, z.take (tokenLength z).1⟩ ::
      lex (pos + (tokenLength z).1) (z.drop (tokenLength z).1) := by
  have hlen := tokenLength_bounds hz
  obtain ⟨n, hn⟩ : ∃ n, z.length = n + 1 := ⟨z.length - 1, by omega⟩
  rw [lex, hn, lexFrom, if_neg hz]
  refine congrArg _ (lexFrom_fuel _ ?_ (Nat.le_refl _))
  rw [List.length_drop]
  omega

/-- Induction over the tokens of a text. -/
theorem token_induction {P : Bytes → Prop} (nil : P [])
    (cons : ∀ z, z ≠ [] → P (z.drop (tokenLength z).1) → P z) (z : Bytes) : P z := by
  induction hn : z.length using Nat.strongRecOn generalizing z with
  | ind n ih =>
    by_cases hz : z = []
    · subst hz
      exact nil
    · have hlen := tokenLength_bounds hz
      refine cons z hz (ih _ ?_ _ rfl)
      rw [List.length_drop]
      omega

end Fstest.Mptest
