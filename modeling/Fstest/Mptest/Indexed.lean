import Fstest.Lib.Checked
import Fstest.Lib.Scan
import Fstest.Mptest.Branches
import Fstest.Mptest.Literal

/-!
# The scanners as loops over an index

`token_length`, `extract_token`, `find_end` and `find_endif` as the source writes them, with every
access to the script checked. `none` is a panic, or a loop that has not ended after as many rounds as
the script has bytes. Each of them returns, and gives what the recursion over the rest of the text
gives (`Token.lean`).
-/

namespace Fstest.Mptest.Indexed

open Scan

/-! ## Tokens -/

/-- The loop over white space and comments, from `n` on: where it ends and the lines up to there. -/
def blankLoop (z : Bytes) : ℕ → ℕ → Bool → ℕ → Option Extent
  | 0, _, _, _ => none
  | fuel + 1, n, inC, lines =>
    if z.length ≤ n then some (n + 1, lines)
    else do
      let c ← z[n]?
      let n := n + 1
      let lines := lines + if c = newline then 1 else 0
      if isSpace c then blankLoop z fuel n inC lines
      else do
        let closes ← andAlso (inC && c == star) (testAt z (· == slash) n)
        let opens ← andAlso (!inC && c == slash) (testAt z (· == star) n)
        if closes then blankLoop z fuel (n + 1) false lines
        else if opens then blankLoop z fuel (n + 1) true lines
        else if !inC then some (n, lines)
        else blankLoop z fuel n inC lines

/-- The loop over a literal. -/
def literalLoop (z : Bytes) (delim : UInt8) : ℕ → ℕ → ℕ → Option Extent
  | 0, _, _ => none
  | fuel + 1, n, lines =>
    if n < z.length then do
      let c ← z[n]?
      let lines := lines + if c = newline then 1 else 0
      if c = delim then
        let n := n + 1
        if z.length ≤ n ∨ (z[n + 1]?).getD 0 ≠ delim then some (n, lines)
        else literalLoop z delim fuel (n + 1) lines
      else literalLoop z delim fuel (n + 1) lines
    else some (n, lines)

def tokenLength (z : Bytes) : Option Extent :=
  if z = [] then some (1, 0)
  else do
    let c ← z[0]?
    let comment ← andAlso (c == slash) (testAt z (· == star) 1)
    let command ← andAlso (c == dash) (testAt z (· == dash) 1)
    if isSpace c || comment then
      let e ← blankLoop z (z.length + 1) (if c = slash then 2 else 0) (decide (c = slash)) 0
      let n ← subU64 e.1 1
      some (n, e.2)
    else if command then
      let n ← skipWhile (fun i => z[i]?) (· != newline) z.length (z.length + 1) 2
      if n < z.length then some (n + 1, 1) else some (n, 0)
    else if c = doubleQuote ∨ c = singleQuote then literalLoop z c (z.length + 1) 1 0
    else do
      let n ← skipWhile (fun i => z[i]?)
        (fun c => !(isSpace c || c == doubleQuote || c == singleQuote || c == semicolon))
        z.length (z.length + 1) 1
      some (n, 0)

theorem blankLoop_eq {z : Bytes} {fuel n : ℕ} (hn : n ≤ z.length) (hfuel : z.length - n < fuel)
    (inC : Bool) (lines : ℕ) :
    blankLoop z fuel n inC lines =
      some (n + (blankLength inC (z.drop n)).1 + 1, lines + (blankLength inC (z.drop n)).2) := by
  induction fuel generalizing n inC lines with
  | zero => omega
  | succ fuel ih =>
    unfold blankLoop
    cases hr : z.drop n with
    | nil =>
      rw [if_pos (List.drop_eq_nil_iff.mp hr)]
      rfl
    | cons c r =>
      have hlt := lt_of_drop hr
      have hdrop := drop_succ_of_drop hr
      rw [if_neg (by omega), getElem?_of_drop hr]
      simp only [Option.bind_eq_bind, Option.bind_some, testAt_eq, hdrop]
      unfold blankLength
      by_cases hs : isSpace c = true
      · rw [if_pos hs, if_pos hs, ih hlt (by omega), hdrop]
        simp only [Extent.step]
        congr 2 <;> omega
      · have hc := not_newline_of_not_isSpace hs
        have hnext := fun inC lines => ih (n := n + 1) hlt (by omega) inC lines
        rw [hdrop] at hnext
        rw [if_neg hs, if_neg hs]
        cases r with
        | nil =>
          cases inC
          · simp [if_neg hc]
          · simp [if_neg hc, hnext, blankLength]
        | cons d r =>
          have hlt' := lt_of_drop hdrop
          have hskip := fun inC lines => ih (n := n + 1 + 1) hlt' (by omega) inC lines
          rw [drop_succ_of_drop hdrop] at hskip
          have hzero : (0 : UInt8) ≠ newline := by decide
          cases inC
          · simp only [Bool.false_and, Bool.false_eq_true, if_false, Bool.not_false, Bool.true_and,
              hskip, List.head?_cons, Option.any_some, if_neg hc]
            by_cases hopen : c = slash <;> by_cases hstar : d = star <;>
              simp [hopen, hstar, Extent.step, hzero]
            exact ⟨by omega, by decide⟩
          · simp only [Bool.not_true, Bool.false_and, Bool.false_eq_true, if_false, Bool.true_and,
              hskip, hnext, List.head?_cons, Option.any_some, if_neg hc]
            by_cases hclose : c = star <;> by_cases hslash : d = slash <;>
              simp [hclose, hslash, Extent.step, hzero]
            · exact ⟨by omega, by decide⟩
            · exact ⟨by omega, by decide⟩
            · exact ⟨by omega, hc⟩
            · exact ⟨by omega, hc⟩

theorem literalLoop_eq {z : Bytes} {delim : UInt8} (hdelim : delim ≠ 0) {fuel n : ℕ}
    (hfuel : z.length - n < fuel) (lines : ℕ) :
    literalLoop z delim fuel n lines =
      some (n + (literalLength delim (z.drop n)).1, lines + (literalLength delim (z.drop n)).2) := by
  induction fuel generalizing n lines with
  | zero => omega
  | succ fuel ih =>
    unfold literalLoop
    cases hr : z.drop n with
    | nil =>
      have hlen := List.drop_eq_nil_iff.mp hr
      rw [if_neg (by omega)]
      rfl
    | cons c r =>
      have hlt := lt_of_drop hr
      have hdrop := drop_succ_of_drop hr
      have hnext := fun lines => ih (n := n + 1) (by omega) lines
      rw [if_pos hlt, getElem?_of_drop hr, Option.bind_eq_bind, Option.bind_some]
      unfold literalLength
      rw [hdrop] at hnext
      by_cases hc : c = delim
      · rw [if_pos hc, if_pos hc]
        cases r with
        | nil =>
          rw [if_pos (.inl (List.drop_eq_nil_iff.mp hdrop))]
          simp only [Extent.step, Nat.zero_add]
        | cons d r =>
          have hlt' := lt_of_drop hdrop
          have hskip := fun lines => ih (n := n + 1 + 1) (by omega) lines
          rw [drop_succ_of_drop hdrop] at hskip
          have hhead : z[n + 1 + 1]? = r.head? := by rw [← List.head?_drop, drop_succ_of_drop hdrop]
          have hgoes : (z.length ≤ n + 1 ∨ r.head?.getD 0 ≠ delim) ↔ ¬ r.head? = some delim := by
            rw [or_iff_right (by omega)]
            cases r with
            | nil => simpa using hdelim.symm
            | cons e r => simp
          simp only [hhead, hskip, hgoes, ite_not]
          split
          · simp only [Extent.step, if_neg (show (0 : UInt8) ≠ newline by decide), Nat.add_zero]
            congr 2 <;> omega
          · simp only [Extent.step, Nat.zero_add]
      · rw [if_neg hc, if_neg hc, hnext]
        simp only [Extent.step]
        congr 2 <;> omega

theorem head?_any_beq (r : Bytes) (b : UInt8) : r.head?.any (· == b) = decide (r.head? = some b) := by
  cases r with
  | nil => rfl
  | cons d r => by_cases h : d = b <;> simp [h]

/-- The rest of a line, from the bytes before its end. -/
theorem lineLength_eq (z : Bytes) :
    lineLength z = if (z.takeWhile (· != newline)).length < z.length then
      ((z.takeWhile (· != newline)).length + 1, 1) else ((z.takeWhile (· != newline)).length, 0) := by
  induction z with
  | nil => rfl
  | cons c r ih =>
    rw [lineLength, List.takeWhile_cons]
    by_cases hc : c = newline
    · simp [hc]
    · rw [if_neg hc, ih]
      simp only [bne_iff_ne, ne_eq, hc, not_false_eq_true, if_true, List.length_cons,
        Nat.add_lt_add_iff_right]
      split <;> simp only [Extent.step, if_neg (show (0 : UInt8) ≠ newline by decide), Nat.add_zero]

/-- White space and comments: the loop ends one byte behind them. -/
theorem blank_eq {z : Bytes} {fuel n : ℕ} (hn : n ≤ z.length) (hfuel : z.length - n < fuel) (inC : Bool) :
    ((blankLoop z fuel n inC 0).bind fun e => (subU64 e.1 1).bind fun n => some (n, e.2)) =
      some (n + (blankLength inC (z.drop n)).1, (blankLength inC (z.drop n)).2) := by
  rw [blankLoop_eq hn hfuel, Option.bind_some, subU64_of (Nat.le_add_left 1 _), Option.bind_some,
    Nat.add_sub_cancel, Nat.zero_add]

/-- A comment or command up to the end of its line. -/
theorem line_eq (c d : UInt8) (r : Bytes) :
    ((skipWhile (fun i => (c :: d :: r)[i]?) (· != newline) (c :: d :: r).length ((c :: d :: r).length + 1) 2).bind
      fun n => if n < (c :: d :: r).length then some (n + 1, 1) else some (n, 0)) =
      some (Extent.step 0 (Extent.step 0 (lineLength r))) := by
  have hzero : (0 : UInt8) ≠ newline := by decide
  have hlen : (c :: d :: r).length = r.length + 1 + 1 := rfl
  rw [skipWhile_getElem? rfl (by omega) (by omega), Option.bind_some, List.drop_succ_cons, List.drop_succ_cons,
    List.drop_zero, lineLength_eq, hlen]
  split
  · rw [if_pos (by omega)]
    simp only [Extent.step, if_neg hzero, Nat.add_zero]
    congr 2
    omega
  · rw [if_neg (by omega)]
    simp only [Extent.step, if_neg hzero, Nat.add_zero]
    congr 2
    omega

/-- `token_length` returns, and its value is the one of the recursion. -/
theorem tokenLength_eq (z : Bytes) : tokenLength z = some (Mptest.tokenLength z) := by
  cases z with
  | nil => rfl
  | cons c r =>
    have hzero : (0 : UInt8) ≠ newline := by decide
    unfold tokenLength Mptest.tokenLength
    rw [if_neg (List.cons_ne_nil c r)]
    simp only [List.getElem?_cons_zero, Option.bind_eq_bind, Option.bind_some, testAt_eq,
      List.drop_succ_cons, List.drop_zero, head?_any_beq, andAlso_some, Bool.or_eq_true, Bool.and_eq_true,
      beq_iff_eq, decide_eq_true_eq]
    by_cases hs : isSpace c = true
    · have hslash : c ≠ slash := by
        rintro rfl
        cases hs
      rw [if_pos (.inl hs), if_pos hs, if_neg hslash, decide_eq_false hslash]
      refine (blank_eq (Nat.zero_le _) (by simp) false).trans ?_
      rw [Nat.zero_add, List.drop_zero]
    · rw [if_neg hs]
      by_cases hcomment : c = slash ∧ r.head? = some star
      · rw [if_pos (.inr hcomment), if_pos hcomment, if_pos hcomment.1, decide_eq_true hcomment.1]
        obtain ⟨d, r, rfl⟩ := List.exists_cons_of_ne_nil
          (show r ≠ [] by rintro rfl; cases hcomment.2)
        refine (blank_eq (by simp) (by simp; omega) true).trans ?_
        simp only [List.drop_succ_cons, List.drop_zero, List.tail_cons, Extent.step, if_neg hzero,
          Nat.add_zero]
        rw [Nat.add_comm 2]
      · rw [if_neg (not_or.mpr ⟨hs, hcomment⟩), if_neg hcomment]
        split
        · rename_i hcommand
          obtain ⟨d, r, rfl⟩ := List.exists_cons_of_ne_nil
            (show r ≠ [] by rintro rfl; cases hcommand.2)
          exact line_eq c d r
        · split
          · rename_i hquote
            have hdelim : c ≠ 0 := by rcases hquote with rfl | rfl <;> decide
            have hc : c ≠ newline := by rcases hquote with rfl | rfl <;> decide
            rw [literalLoop_eq hdelim (by rw [List.length_cons]; omega), List.drop_succ_cons, List.drop_zero]
            simp only [Extent.step, if_neg hzero, Nat.add_zero, Nat.zero_add]
            rw [Nat.add_comm]
          · rw [skipWhile_getElem? (r := r) rfl (by simp) (by rw [List.length_cons]; omega), Option.bind_some,
              Nat.add_comm]
            rfl

/-! ## Words -/

/-- `extract_token(z, n_in, cap)` -/
def extractToken (z : Bytes) (nIn cap : ℕ) : Option Bytes := do
  let i ← skipWhile (fun i => z[i]?) (fun c => !isSpace c) (min nIn (min z.length cap)) (nIn + 1) 0
  some (z.take i)

theorem extractToken_eq (z : Bytes) (cap : ℕ) :
    extractToken z z.length cap = some (Mptest.extractToken z cap) := by
  have hstop : min z.length (min z.length cap) = (z.take cap).length := by
    rw [List.length_take]
    omega
  have hget : ∀ i < (z.take cap).length, z[i]? = (z.take cap)[i]? := by
    intro i hi
    rw [List.length_take] at hi
    rw [List.getElem?_take, if_pos (by omega)]
  have hle : (z.take cap).length ≤ z.length := List.length_take_le' cap z
  have hword : (z.take cap).takeWhile (fun c => !isSpace c) <+: z.take cap := List.takeWhile_prefix _
  have hpre := hword.trans (List.take_prefix cap z)
  unfold extractToken Mptest.extractToken
  rw [hstop, skipWhile_congr hget, skipWhile_getElem? rfl (Nat.zero_le _) (by omega), Option.bind_eq_bind,
    Option.bind_some, List.drop_zero, Nat.zero_add, ← List.prefix_iff_eq_take.mp hpre]

/-- The text at `n` starts with the word, and white space after it. -/
def wordAt (z : Bytes) (n : ℕ) (word : Bytes) : Option Bool := do
  let rest ← sliceFrom z n
  andAlso (word.isPrefixOf rest) (testAt z isSpace (n + word.length))

theorem wordAt_eq {z : Bytes} {n : ℕ} (hn : n ≤ z.length) (word : Bytes) :
    wordAt z n word = some (startsWith word (z.drop n)) := by
  unfold wordAt
  rw [sliceFrom_of hn, Option.bind_eq_bind, Option.bind_some, testAt_eq, andAlso_some, startsWith,
    List.drop_drop]

/-! ## Looking ahead -/

/-- The loop of `find_end`. -/
def findEnd (z : Bytes) : ℕ → ℕ → ℕ → Option Extent
  | 0, _, _ => none
  | fuel + 1, n, lines =>
    if n < z.length then do
      let ends ← wordAt z n (ascii "--end")
      if ends then some (n, lines)
      else
        let rest ← sliceFrom z n
        let token ← tokenLength rest
        findEnd z fuel (n + token.1) (lines + token.2)
    else some (n, lines)

/-- The loop of `find_endif`. -/
def findEndif : ℕ → Bytes → Bool → ℕ → ℕ → Option Extent
  | 0, _, _, _, _ => none
  | fuel + 1, z, stopAtElse, n, lines =>
    if n < z.length then do
      let rest ← sliceFrom z n
      let token ← tokenLength rest
      let lines := lines + token.2
      let isEndif ← wordAt z n (ascii "--endif")
      let isElse ← andAlso stopAtElse (wordAt z n (ascii "--else"))
      if isEndif || isElse then some (n + token.1, lines)
      else
        let isIf ← wordAt z n (ascii "--if")
        if isIf then
          let inner ← sliceFrom z (n + token.1)
          let skip ← findEndif fuel inner false 0 lines
          findEndif fuel z stopAtElse (n + (skip.1 + token.1)) skip.2
        else findEndif fuel z stopAtElse (n + token.1) lines
    else some (n, lines)

theorem findEnd_eq {z : Bytes} {fuel g n : ℕ} (hn : n ≤ z.length) (hfuel : z.length - n < fuel)
    (hg : z.length - n ≤ g) (lines : ℕ) :
    findEnd z fuel n lines =
      some (n + (Mptest.findEnd g (z.drop n)).1, lines + (Mptest.findEnd g (z.drop n)).2) := by
  induction fuel generalizing g n lines with
  | zero => omega
  | succ fuel ih =>
    unfold findEnd
    split
    · rename_i hlt
      have hz : z.drop n ≠ [] := fun h => absurd (List.drop_eq_nil_iff.mp h) (by omega)
      have hlen := tokenLength_bounds hz
      rw [List.length_drop] at hlen
      obtain ⟨g, rfl⟩ : ∃ k, g = k + 1 := ⟨g - 1, by omega⟩
      simp only [wordAt_eq hn, sliceFrom_of hn, tokenLength_eq, Option.bind_eq_bind, Option.bind_some,
        Mptest.findEnd, hz, false_or]
      split
      · rfl
      · rw [ih (by omega) (by omega) (show _ ≤ g by omega), List.drop_drop]
        simp only [Nat.add_assoc]
    · rename_i hlt
      rw [List.drop_eq_nil_of_le (by omega)]
      cases g <;> simp [Mptest.findEnd]

theorem findEndif_eq {z : Bytes} {fuel g n : ℕ} (hn : n ≤ z.length) (hfuel : z.length - n < fuel)
    (hg : z.length - n ≤ g) (stop : Bool) (lines : ℕ) :
    findEndif fuel z stop n lines =
      some (n + (Mptest.findEndif g (z.drop n) stop).1, lines + (Mptest.findEndif g (z.drop n) stop).2) := by
  induction fuel generalizing z g n stop lines with
  | zero => omega
  | succ fuel ih =>
    unfold findEndif
    split
    · rename_i hlt
      have hz : z.drop n ≠ [] := fun h => absurd (List.drop_eq_nil_iff.mp h) (by omega)
      have hlen := tokenLength_bounds hz
      rw [List.length_drop] at hlen
      obtain ⟨g, rfl⟩ : ∃ k, g = k + 1 := ⟨g - 1, by omega⟩
      have htoken : n + (Mptest.tokenLength (z.drop n)).1 ≤ z.length := by omega
      simp only [wordAt_eq hn, sliceFrom_of hn, sliceFrom_of htoken, tokenLength_eq, Option.bind_eq_bind,
        Option.bind_some, andAlso_some, Mptest.findEndif, if_neg hz]
      split
      · rfl
      · split
        · -- the nested block, and then the rest of this one
          have hbelow : z.length - (n + (Mptest.tokenLength (z.drop n)).1) ≤ g := by omega
          have hskip : (Mptest.findEndif g (z.drop (n + (Mptest.tokenLength (z.drop n)).1)) false).1 ≤
              z.length - (n + (Mptest.tokenLength (z.drop n)).1) := by
            rw [endifLength_eq (by rwa [List.length_drop]), ← List.length_drop]
            exact endifLength_le _ _
          rw [ih (Nat.zero_le _) (by rw [List.length_drop]; omega)
            (show _ ≤ g by rw [List.length_drop]; omega), Option.bind_some]
          simp only [List.drop_drop, Nat.add_zero, Nat.zero_add]
          rw [ih (by omega) (by omega) (show _ ≤ g by omega)]
          simp only [Nat.add_assoc, Nat.add_comm]
        · rw [ih (by omega) (by omega) (show _ ≤ g by omega), List.drop_drop]
          simp only [Nat.add_assoc]
    · rename_i hlt
      rw [List.drop_eq_nil_of_le (by omega)]
      cases g <;> simp [Mptest.findEndif]

/-- The call `find_end(w, ..)`. -/
theorem findEnd_call {w : Bytes} {g : ℕ} (hg : w.length ≤ g) (lines : ℕ) :
    findEnd w (w.length + 1) 0 lines = some ((Mptest.findEnd g w).1, lines + (Mptest.findEnd g w).2) := by
  rw [findEnd_eq (Nat.zero_le _) (Nat.lt_succ_self w.length) hg lines, Nat.zero_add, List.drop_zero]

/-- The call `find_endif(w, stop_at_else, ..)`. -/
theorem findEndif_call {w : Bytes} {g : ℕ} (hg : w.length ≤ g) (stop : Bool) (lines : ℕ) :
    findEndif (w.length + 1) w stop 0 lines =
      some ((Mptest.findEndif g w stop).1, lines + (Mptest.findEndif g w stop).2) := by
  rw [findEndif_eq (Nat.zero_le _) (Nat.lt_succ_self w.length) hg stop lines, Nat.zero_add, List.drop_zero]

end Fstest.Mptest.Indexed
