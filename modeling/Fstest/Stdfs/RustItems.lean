import Fstest.Stdfs.RustTests
import Mathlib.Data.List.Perm.Subperm

/-!
# The items of a Rust source

A source is a list of items, some of which are tests: attributes above a line `#[test]`, attributes
below it, and a function whose braces are balanced. The rewrite is to move whole items: what belongs to
an excluded test goes, the code of the other items stays, and the table has every kept test with all of
its attributes (`Source.Moved`). What the first pass reads of an item does not depend on the items
behind it (`locate_idle`, `locate_lines`).
-/

namespace Fstest.Stdfs.Rust

open Text

/-! ## Attributes -/

/-- An attribute: it ends with the first line behind which no bracket is open. The text of several
lines ends with a line of its own. -/
structure Attr where
  lines : List Text
  opens : ∃ l ls, lines = l :: ls ∧ isAttr (trim l) = true
  balanced : closesAt bracketStep bracketDone 0 lines = true
  closes : 1 < lines.length → ∀ l ∈ lines.getLast?, looksAbove l = false
  own : ∀ l ∈ lines, trim l ≠ testMark ∧ trim l ≠ useDir

def Attr.text (a : Attr) : Text := attrText a.lines

/-- Blank lines and line comments. -/
def isSpace (l : Text) : Bool := trim l == [] || isComment (trim l)

/-- An attribute, or a line between attributes. -/
inductive Piece (p : Text → Bool) where
  | attr (a : Attr)
  | gap (l : Text) (h : p l = true)

namespace Piece

variable {p : Text → Bool}

def lines : Piece p → List Text
  | .attr a => a.lines
  | .gap l _ => [l]

def attrs : Piece p → List Attr
  | .attr a => [a]
  | .gap _ _ => []

end Piece

/-! ## Tests -/

structure Test where
  above : List (Piece isSpace)
  mark : Text
  below : List (Piece isGap)
  block : List Text
  marked : trim mark = testMark
  named : declName (trim (block.headD [])) ≠ []
  balanced : closesAt braceStep braceDone (0, false) block = true

namespace Test

def aboveLines (T : Test) : List Text := T.above.flatMap Piece.lines

def belowLines (T : Test) : List Text := T.below.flatMap Piece.lines

def lines (T : Test) : List Text := T.aboveLines ++ T.mark :: (T.belowLines ++ T.block)

def aboveAttrs (T : Test) : List Attr := T.above.flatMap Piece.attrs

def belowAttrs (T : Test) : List Attr := T.below.flatMap Piece.attrs

def name (T : Test) : Text := declName (trim (T.block.headD []))

/-- The attributes of the function. -/
def attrs (T : Test) : List Text := (T.aboveAttrs ++ T.belowAttrs).map Attr.text

def excluded (T : Test) : Bool := isExcluded T.name T.block

/-- Every attribute above the line `#[test]` is on one line. -/
def OneLine (T : Test) : Prop := ∀ a ∈ T.aboveAttrs, a.lines.length = 1

end Test

/-- Lines without a test. Behind a line `#[test]` there is a declaration that is not recognized. -/
def Idle (ls : List Text) : Prop :=
  ∀ l rest, l :: rest <:+ ls → trim l = testMark →
    ∃ (below : List (Piece isGap)) (d : Text) (more : List Text),
      rest = below.flatMap Piece.lines ++ d :: more ∧ isAttr (trim d) = false ∧ isGap d = false ∧
        declName (trim d) = []

inductive Item where
  | other (ls : List Text) (h : Idle ls)
  | test (T : Test)

def Item.lines : Item → List Text
  | .other ls _ => ls
  | .test T => T.lines

/-- The tests that are kept. -/
def Item.kept : Item → List Test
  | .other _ _ => []
  | .test T => if T.excluded then [] else [T]

structure Source where
  text : Text
  items : List Item
  made : Text.lines text = items.flatMap Item.lines

/-! ## What is due -/

/-- Code, other than the lines `#[test]` and `use super::Dir;`. -/
def isCode (l : Text) : Bool := !isSpace l && trim l != testMark && trim l != useDir

/-- A line of what is kept. -/
def dueLine (l : Text) : Text × Option Bool := (l, if isCode l then some true else none)

/-- The lines above an excluded test: attributes go, comments and blank lines may go. -/
def Piece.dues {p : Text → Bool} : Piece p → List (Text × Option Bool)
  | .attr a => a.lines.map fun l => (l, some false)
  | .gap l _ => [(l, none)]

namespace Test

def aboveDues (T : Test) : List (Text × Option Bool) :=
  if T.excluded then T.above.flatMap Piece.dues else T.aboveLines.map dueLine

def restDues (T : Test) : List (Text × Option Bool) :=
  (T.mark, some false) ::
    (T.belowLines ++ T.block).map fun l => if T.excluded then (l, some false) else dueLine l

end Test

/-- The lines of an item with whether they are to be in the result, or neither. -/
def Item.dues : Item → List (Text × Option Bool)
  | .other ls _ => ls.map dueLine
  | .test T => T.aboveDues ++ T.restDues

def dues (items : List Item) : List (Text × Option Bool) := items.flatMap Item.dues

/-! ## What becomes of a line -/

/-- `pub ` stands before the `fn ` with which the line of a declaration begins. -/
inductive Published (declares : Prop) : Text → Text → Prop where
  | fn {ws x : Text} (h : declares) (hws : ∀ c ∈ ws, isWhitespace c = true) :
    Published declares (ws ++ (text "fn " ++ x)) (ws ++ (text "pub fn " ++ x))
  | stays {l : Text} (h : declares → ¬text "fn " <+: trimStart l) : Published declares l l

/-- One line takes the place of another. -/
def Exchanged (old new l r : Text) : Prop := (trim l = old → r = new) ∧ (trim l ≠ old → r = l)

/-- A line with its textual rewrites. -/
def Rewritten (declares : Prop) (l r : Text) : Prop :=
  ∃ l₁ l₂ l₃ l₄ l₅, Published declares l l₁ ∧
    Replaced (text "crate::") (text "std::") l₁ l₂ ∧
    Replaced (text "std::test_helpers") (text "crate::shim::test_helpers") l₂ l₃ ∧
    Replaced (text "use std::io::\x7bBorrowedBuf, ") (text "use std::io::\x7b") l₃ l₄ ∧
    Exchanged (text "use rand::RngCore;") (text "use crate::shim::rand::RngCore;") l₄ l₅ ∧
    Exchanged (text "use std::\x7bassert_matches, env, io, str, thread\x7d;")
      (text "use crate::shim::assert_matches;\nuse std::\x7benv, io, str, thread\x7d;") l₅ r

namespace Source

def located (S : Source) : Located := locate [] 0 (Text.lines S.text)

/-- The function of a test that is kept begins at this position. -/
def Declares (S : Source) (i : ℕ) : Prop :=
  ∃ before T after, S.items = before ++ .test T :: after ∧ T.excluded = false ∧
    i = (before.flatMap Item.lines ++ (T.aboveLines ++ T.mark :: T.belowLines)).length

/-- The lines that stay, with their positions. -/
def shown (S : Source) : List (Text × ℕ) :=
  (Text.lines S.text).zipIdx.filter fun x => (S.located.emit x.2 x.1).isSome

/-- **Whole items are moved.** -/
structure Moved (S : Source) : Prop where
  lines : ∀ (i : ℕ) (l : Text) (b : Bool), (dues S.items)[i]? = some (l, some b) →
    ((l, i) ∈ S.shown ↔ b = true)
  text : ∃ result : List Text, (transformRustTests S.text).1 = result.flatMap (· ++ ['\n']) ∧
    List.Forall₂ (fun x r => Rewritten (S.Declares x.2) x.1 r) S.shown result
  table : List.Forall₂ (fun T e => T.name = e.2 ∧ T.attrs.Subperm e.1)
    (S.items.flatMap Item.kept) (transformRustTests S.text).2.1

end Source

/-! ## Attributes above and below -/

theorem isGap_of_isSpace {l : Text} (h : isSpace l = true) : isGap l = true := by
  simp only [isSpace, isGap, Bool.or_eq_true] at h ⊢
  tauto

theorem looksAbove_of_isSpace {l : Text} (h : isSpace l = true) : looksAbove l = true := by
  simp only [isSpace, looksAbove, Bool.or_eq_true] at h ⊢
  tauto

theorem attrText_singleton (l : Text) : attrText [l] = trim l := by
  rw [attrText, List.foldl_cons, List.foldl_nil, if_pos rfl, List.nil_append]

/-- What the first pass reads below the line `#[test]`. -/
theorem findDecl_pieces {d : Text} (hattr : isAttr (trim d) = false) (hgap : isGap d = false)
    (more : List Text) (ps : List (Piece isGap)) :
    findDecl 0 (ps.flatMap Piece.lines ++ d :: more) =
      ⟨(ps.flatMap Piece.attrs).map Attr.text, (ps.flatMap Piece.lines).length, declName (trim d)⟩ := by
  induction ps with
  | nil => exact findDecl_decl hattr hgap more
  | cons x ps ih =>
    rw [List.flatMap_cons, List.append_assoc]
    cases x with
    | attr a =>
      obtain ⟨l, ls, hlines, hopens⟩ := a.opens
      have hread := findDecl_attr hopens (hlines ▸ a.balanced) (ps.flatMap Piece.lines ++ d :: more)
      rw [Piece.lines, hlines, hread, ih, ← hlines]
      simp only [Decl.below, List.flatMap_cons, Piece.attrs, List.length_append, List.singleton_append,
        List.map_cons, Attr.text, hlines, List.length_cons, Nat.add_comm]
    | gap l h =>
      rw [Piece.lines, List.singleton_append, findDecl_gap (not_isAttr_of_isGap h) h, ih]
      simp only [Decl.below, List.flatMap_cons, Piece.attrs, List.nil_append, List.length_append,
        List.length_singleton, Nat.add_comm]

theorem Idle.of_unmarked {ls : List Text} (h : ∀ l ∈ ls, trim l ≠ testMark) : Idle ls :=
  fun l _ hsuffix hl => absurd hl (h l (hsuffix.subset List.mem_cons_self))

theorem locate_idle {ls : List Text} (h : Idle ls) (before more : List Text) :
    locate before 0 (ls ++ more) = locate (before ++ ls) 0 more := by
  induction ls generalizing before with
  | nil => rw [List.nil_append, List.append_nil]
  | cons l ls ih =>
    have hlater := ih (fun m rest hsuffix => h m rest (hsuffix.trans (List.suffix_cons l ls))) (before ++ [l])
    rw [List.append_assoc, List.singleton_append] at hlater
    rw [List.cons_append, ← hlater]
    by_cases hl : trim l = testMark
    · obtain ⟨below, d, rest, rfl, hattr, hgap, hname⟩ := h l ls List.suffix_rfl hl
      refine locate_unnamed ?_ before
      rw [List.append_assoc, List.cons_append, findDecl_pieces hattr hgap]
      exact hname
    · exact locate_other hl before _

theorem Test.above_unmarked (T : Test) : ∀ l ∈ T.aboveLines, trim l ≠ testMark := by
  intro l hl heq
  obtain ⟨x, -, hx⟩ := List.mem_flatMap.mp hl
  cases x with
  | attr a => exact (a.own l hx).1 heq
  | gap m h =>
    cases List.mem_singleton.mp hx
    have hattr := not_isAttr_of_isGap (isGap_of_isSpace h)
    rw [heq] at hattr
    exact absurd hattr (by decide)

theorem Test.block_cons (T : Test) : ∃ d rest, T.block = d :: rest ∧ T.name = declName (trim d) := by
  rw [Test.name]
  cases hblock : T.block with
  | nil =>
    have hbalanced := T.balanced
    rw [hblock] at hbalanced
    cases hbalanced
  | cons d rest => exact ⟨d, rest, rfl, rfl⟩

/-- **What the first pass notes of a test.** -/
theorem locate_lines (T : Test) (before more : List Text) :
    locate before 0 (T.lines ++ more) =
      .note (before ++ T.aboveLines) ⟨T.belowAttrs.map Attr.text, T.belowLines.length, T.name⟩ T.block
        (locate (before ++ T.lines) 0 more) := by
  have hdecl : findDecl 0 (T.belowLines ++ (T.block ++ more)) =
      ⟨T.belowAttrs.map Attr.text, T.belowLines.length, T.name⟩ := by
    obtain ⟨d, rest, hblock, hname⟩ := T.block_cons
    have hnamed := T.named
    rw [hname, hblock] at *
    exact findDecl_pieces (isAttr_of_declares hnamed) (isGap_of_declares hnamed) (rest ++ more) T.below
  have hnamed : T.name ≠ [] := T.named
  have hassoc : T.lines ++ more =
      T.aboveLines ++ T.mark :: (T.belowLines ++ (T.block ++ more)) := by
    simp only [Test.lines, List.append_assoc, List.cons_append]
  rw [hassoc, locate_idle (.of_unmarked T.above_unmarked),
    locate_test T.marked hnamed hdecl T.balanced, List.append_assoc, Test.lines]

/-- Where the first pass finds the functions of the tests that are kept. -/
theorem mem_pubs (items : List Item) (i : ℕ) (passed : List Text) :
    i ∈ (locate passed 0 (items.flatMap Item.lines)).pubs ↔
      ∃ before T after, items = before ++ .test T :: after ∧ T.excluded = false ∧
        i = (passed ++ before.flatMap Item.lines ++ (T.aboveLines ++ T.mark :: T.belowLines)).length := by
  induction items generalizing passed with
  | nil =>
    constructor
    · intro h
      cases h
    · rintro ⟨before, T, after, heq, -⟩
      cases before <;> cases heq
  | cons it items ih =>
    have hlater := ih (passed ++ it.lines)
    have hsplit : (∃ before T after, it :: items = before ++ .test T :: after ∧ T.excluded = false ∧
        i = (passed ++ before.flatMap Item.lines ++ (T.aboveLines ++ T.mark :: T.belowLines)).length) ↔
        (∃ T, it = .test T ∧ T.excluded = false ∧
          i = (passed ++ (T.aboveLines ++ T.mark :: T.belowLines)).length) ∨
        i ∈ (locate (passed ++ it.lines) 0 (items.flatMap Item.lines)).pubs := by
      rw [hlater]
      constructor
      · rintro ⟨before, T, after, heq, hexcl, hi⟩
        obtain ⟨rfl, heq⟩ | ⟨before, rfl, rfl⟩ := List.cons_eq_append_iff.mp heq
        · cases heq
          exact .inl ⟨T, rfl, hexcl, by rw [hi, List.flatMap_nil, List.append_nil]⟩
        · refine .inr ⟨before, T, after, rfl, hexcl, ?_⟩
          rw [hi, List.flatMap_cons, ← List.append_assoc passed]
      · rintro (⟨T, rfl, hexcl, hi⟩ | ⟨before, T, after, rfl, hexcl, hi⟩)
        · exact ⟨[], T, items, rfl, hexcl, by rw [hi, List.flatMap_nil, List.append_nil]⟩
        · refine ⟨it :: before, T, after, rfl, hexcl, ?_⟩
          rw [hi, List.flatMap_cons, ← List.append_assoc passed]
    rw [hsplit, List.flatMap_cons]
    cases it with
    | other ls h =>
      rw [Item.lines, locate_idle h]
      simp
    | test T =>
      have hexcl : isExcluded T.name T.block = T.excluded := rfl
      have hi : (passed ++ T.aboveLines).length + 1 + T.belowLines.length =
          (passed ++ (T.aboveLines ++ T.mark :: T.belowLines)).length := by
        simp only [List.length_append, List.length_cons]
        omega
      rw [Item.lines, locate_lines, Located.note, hexcl]
      simp only [hi]
      split
      · simp [*]
      · simp [*]

end Fstest.Stdfs.Rust
