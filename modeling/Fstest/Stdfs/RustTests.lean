import Fstest.Lib.Text
import Fstest.Lib.Through

/-!
# The rewrite of the Rust tests

`transform_rust_tests` goes over the lines of a source twice. The first pass finds every line `#[test]`,
what belongs to the test above and below it, and the extent of its body (`locate`): the attributes
above are looked for backwards line by line, those below by their brackets, and the body by its braces.
The second one leaves out what the first one has found, and rewrites the lines that remain (`emit`).
-/

namespace Fstest.Stdfs.Rust

open Text

def rustExclude : List Text :=
  [text "test_dir_smoke_test", text "test_dir_read_file", text "file_test_io_smoke_test",
    text "file_test_io_non_positional_read", text "test_read_buf_at", text "test_read_buf_exact_at",
    text "test_seek_read_buf", text "file_test_read_buf", text "test_fs_set_times",
    text "test_fs_set_times_nofollow", text "test_fs_set_times_follows_symlink",
    text "test_fs_set_times_on_dir", text "metadata_access_times", text "dir_entry_debug"]

def testMark : Text := text "#[test]"

def useDir : Text := text "use super::Dir;"

/-! ## Lines -/

def isAttr (t : Text) : Bool := (text "#[").isPrefixOf t

def isComment (t : Text) : Bool := (text "//").isPrefixOf t

/-- The backward scan goes on over this line. -/
def looksAbove (line : Text) : Bool := trim line == [] || isAttr (trim line) || isComment (trim line)

/-- A line that stands between the line `#[test]` and the function. -/
def isGap (line : Text) : Bool :=
  isComment (trim line) || (text "/*").isPrefixOf (trim line) || trim line == []

/-! ## Attributes and bodies -/

def bracketStep (depth : ℤ) (line : Text) : ℤ :=
  line.foldl (fun d ch => if ch = '[' then d + 1 else if ch = ']' then d - 1 else d) depth

def bracketDone (depth : ℤ) : Bool := decide (depth ≤ 0)

/-- The text of an attribute, joined onto one line. -/
def attrText (lines : List Text) : Text :=
  lines.foldl (fun t line => (if t = [] then t else t ++ [' ']) ++ trim line) []

/-- `read_attr`: the lines of the attribute, and those after it. -/
def readAttr (lines : List Text) : List Text × List Text := readThrough bracketStep bracketDone 0 lines

/-- The net depth of the braces, and whether there has been an opening one. -/
def braceStep (s : ℤ × Bool) (line : Text) : ℤ × Bool :=
  line.foldl (fun s ch => if ch = '{' then (s.1 + 1, true) else if ch = '}' then (s.1 - 1, s.2) else s) s

def braceDone (s : ℤ × Bool) : Bool := s.2 && decide (s.1 ≤ 0)

/-- The lines of a function that begins with the first line. -/
def readBlock (lines : List Text) : List Text := (readThrough braceStep braceDone (0, false) lines).1

/-- The name of the function that a line declares, or nothing. -/
def declName (t : Text) : Text :=
  if (text "fn ").isPrefixOf t || (text "pub fn ").isPrefixOf t || (text "async fn ").isPrefixOf t then
    let rest := ((splitOnce (text "fn ") t).map Prod.snd).getD []
    let part := ((splitOnce (text "fn ") rest).map Prod.fst).getD rest
    trim (part.takeWhile fun c => c != '(' && c != '<' && c != ':')
  else []

/-- What stands behind a line `#[test]`: the attributes, the lines before the declaration, and the
name in it. -/
structure Decl where
  attrs : List Text
  offset : ℕ
  name : Text
  deriving DecidableEq, Repr

def Decl.below (d : Decl) (n : ℕ) : Decl := { d with offset := d.offset + n }

/-- The search for the declaration behind the next `n` lines, which belong to the last attribute. -/
def findDecl : ℕ → List Text → Decl
  | _, [] => ⟨[], 0, []⟩
  | n + 1, _ :: lines => (findDecl n lines).below 1
  | 0, l :: lines =>
    if isAttr (trim l) then
      let a := (readAttr (l :: lines)).1
      let d := findDecl (a.length - 1) lines
      { d.below 1 with attrs := attrText a :: d.attrs }
    else if isGap l then (findDecl 0 lines).below 1
    else ⟨[], 0, declName (trim l)⟩

/-! ## The first pass -/

/-- What the first pass finds. Positions are those of the lines; a range has both of its ends. -/
structure Located where
  skip : List (ℕ × ℕ) := []
  drops : List ℕ := []
  pubs : List ℕ := []
  tests : List (List Text × Text) := []
  excluded : List Text := []
  deriving DecidableEq, Repr

/-- Whether the second pass gets to the line at this position. -/
def Located.emits (r : Located) (idx : ℕ) : Bool :=
  !(r.skip.any (fun ab => decide (ab.1 ≤ idx) && decide (idx ≤ ab.2)) || r.drops.contains idx)

def isExcluded (name : Text) (block : List Text) : Bool :=
  rustExclude.contains name || block.any fun l => contains l (text "Dir::")

/-- The first pass behind the lines `before`, of which it has still to pass by `n`. -/
def locate (before : List Text) : ℕ → List Text → Located
  | _, [] => {}
  | n + 1, l :: rest => locate (before ++ [l]) n rest
  | 0, l :: rest =>
    if trim l ≠ testMark then locate (before ++ [l]) 0 rest
    else
      let above := before.rtakeWhile looksAbove
      let backAttrs := (above.map trim).filter isAttr
      let d := findDecl 0 rest
      -- an unrecognized declaration shape is left untouched
      if d.name = [] then locate (before ++ [l]) 0 rest
      else
        let block := readBlock (rest.drop d.offset)
        let i := before.length
        let j := i + 1 + d.offset
        let k := j + block.length
        let later := locate (before ++ [l]) (d.offset + block.length) rest
        if isExcluded d.name block then
          { later with
            skip := (i - above.length, k - 1) :: later.skip
            excluded := d.name :: later.excluded }
        else
          { later with
            drops := i :: later.drops
            pubs := j :: later.pubs
            tests := (backAttrs ++ d.attrs, d.name) :: later.tests }

/-! ## The second pass -/

/-- `pub ` before the first `fn `. -/
def insertPub (l : Text) : Text :=
  match splitOnce (text "fn ") l with
  | some (a, b) => a ++ text "pub " ++ text "fn " ++ b
  | none => l

def makePub (l : Text) : Text := if (text "fn ").isPrefixOf (trimStart l) then insertPub l else l

/-- The textual rewrites of a line that stays. -/
def rewritePaths (l : Text) : Text :=
  let l := replaceAll (text "crate::") (text "std::") l
  let l := replaceAll (text "std::test_helpers") (text "crate::shim::test_helpers") l
  let l := replaceAll (text "use std::io::\x7bBorrowedBuf, ") (text "use std::io::\x7b") l
  let l := if trim l = text "use rand::RngCore;" then text "use crate::shim::rand::RngCore;" else l
  if trim l = text "use std::\x7bassert_matches, env, io, str, thread\x7d;" then
    text "use crate::shim::assert_matches;\nuse std::\x7benv, io, str, thread\x7d;"
  else l

/-- What the second pass makes of the line at a position. -/
def Located.emit (r : Located) (idx : ℕ) (line : Text) : Option Text :=
  if r.emits idx then
    let l := if r.pubs.contains idx then makePub line else line
    if trim l = useDir then none else some (rewritePaths l)
  else none

def transformRustTests (src : Text) : Text × List (List Text × Text) × List Text :=
  let r := locate [] 0 (lines src)
  let kept := (lines src).zipIdx.filterMap fun x => r.emit x.2 x.1
  (kept.flatMap (· ++ ['\n']), r.tests, r.excluded)

/-! ## What the search for a declaration reads -/

theorem Decl.below_below (d : Decl) (m n : ℕ) : (d.below m).below n = d.below (m + n) := by
  rw [below, below, below, Nat.add_assoc]

theorem findDecl_pass (ls more : List Text) :
    findDecl ls.length (ls ++ more) = (findDecl 0 more).below ls.length := by
  induction ls with
  | nil => rfl
  | cons l ls ih => rw [List.length_cons, List.cons_append, findDecl, ih, Decl.below_below]

theorem findDecl_attr {l : Text} {ls : List Text} (hattr : isAttr (trim l) = true)
    (hclose : closesAt bracketStep bracketDone 0 (l :: ls) = true) (more : List Text) :
    findDecl 0 (l :: ls ++ more) =
      { (findDecl 0 more).below (ls.length + 1) with
        attrs := attrText (l :: ls) :: (findDecl 0 more).attrs } := by
  have hread : readAttr (l :: (ls ++ more)) = (l :: ls, more) := readThrough_closes hclose more
  have hlen : (l :: ls).length - 1 = ls.length := rfl
  simp only [List.cons_append, findDecl, if_pos hattr, hread, hlen, findDecl_pass, Decl.below_below]
  rfl

theorem findDecl_gap {l : Text} (hattr : isAttr (trim l) = false) (hgap : isGap l = true)
    (more : List Text) : findDecl 0 (l :: more) = (findDecl 0 more).below 1 := by
  rw [findDecl, if_neg (by simp [hattr]), if_pos hgap]

theorem findDecl_decl {l : Text} (hattr : isAttr (trim l) = false) (hgap : isGap l = false)
    (more : List Text) : findDecl 0 (l :: more) = ⟨[], 0, declName (trim l)⟩ := by
  rw [findDecl, if_neg (by simp [hattr]), if_neg (by simp [hgap])]

theorem not_isAttr_of_isGap {l : Text} (h : isGap l = true) : isAttr (trim l) = false := by
  by_contra hattr
  have hhash : (trim l).head? = some '#' := head?_of_isPrefixOf (Bool.not_eq_false _ ▸ hattr)
  simp only [isGap, isComment, Bool.or_eq_true, beq_iff_eq] at h
  obtain (h | h) | h := h
  · cases hhash.symm.trans (head?_of_isPrefixOf h)
  · cases hhash.symm.trans (head?_of_isPrefixOf h)
  · rw [h] at hhash
    cases hhash

/-- A line that declares a function is neither an attribute nor a comment. -/
theorem declares_head {l : Text} (h : declName (trim l) ≠ []) :
    ∃ c, (trim l).head? = some c ∧ c ≠ '#' ∧ c ≠ '/' := by
  rw [declName] at h
  split at h
  · rename_i hfn
    simp only [Bool.or_eq_true] at hfn
    obtain (hfn | hfn) | hfn := hfn
    · exact ⟨'f', head?_of_isPrefixOf hfn, by decide, by decide⟩
    · exact ⟨'p', head?_of_isPrefixOf hfn, by decide, by decide⟩
    · exact ⟨'a', head?_of_isPrefixOf hfn, by decide, by decide⟩
  · exact absurd rfl h

theorem isAttr_of_declares {l : Text} (h : declName (trim l) ≠ []) : isAttr (trim l) = false := by
  obtain ⟨c, hc, hhash, -⟩ := declares_head h
  by_contra hattr
  have hhead : (trim l).head? = some '#' := head?_of_isPrefixOf (Bool.not_eq_false _ ▸ hattr)
  exact hhash (Option.some.inj (hc.symm.trans hhead))

theorem isGap_of_declares {l : Text} (h : declName (trim l) ≠ []) : isGap l = false := by
  obtain ⟨c, hc, -, hslash⟩ := declares_head h
  by_contra hgap
  simp only [isGap, isComment, Bool.not_eq_false, Bool.or_eq_true, beq_iff_eq] at hgap
  obtain (hgap | hgap) | hgap := hgap
  · exact hslash (Option.some.inj (hc.symm.trans (head?_of_isPrefixOf hgap)))
  · exact hslash (Option.some.inj (hc.symm.trans (head?_of_isPrefixOf hgap)))
  · rw [hgap] at hc
    cases hc

/-! ## What the first pass does at a line -/

theorem locate_pass (before ls more : List Text) :
    locate before ls.length (ls ++ more) = locate (before ++ ls) 0 more := by
  induction ls generalizing before with
  | nil => rw [List.append_nil]; rfl
  | cons l ls ih =>
    rw [List.length_cons, List.cons_append, locate, ih, List.append_assoc, List.singleton_append]

theorem locate_other {l : Text} (h : trim l ≠ testMark) (before rest : List Text) :
    locate before 0 (l :: rest) = locate (before ++ [l]) 0 rest := by
  rw [locate, if_pos h]

theorem locate_unnamed {l : Text} {rest : List Text} (h : (findDecl 0 rest).name = [])
    (before : List Text) : locate before 0 (l :: rest) = locate (before ++ [l]) 0 rest := by
  by_cases hl : trim l = testMark
  · simp only [locate, if_neg (not_not_intro hl), if_pos h]
  · exact locate_other hl before rest

/-- What the first pass notes of a test, behind the lines `before` and the line `#[test]`, and what
it finds later. -/
def Located.note (before : List Text) (d : Decl) (block : List Text) (later : Located) : Located :=
  if isExcluded d.name block then
    { later with
      skip := (before.length - (before.rtakeWhile looksAbove).length,
        before.length + 1 + d.offset + block.length - 1) :: later.skip
      excluded := d.name :: later.excluded }
  else
    { later with
      drops := before.length :: later.drops
      pubs := (before.length + 1 + d.offset) :: later.pubs
      tests := (((before.rtakeWhile looksAbove).map trim).filter isAttr ++ d.attrs, d.name) ::
        later.tests }

theorem locate_test {l : Text} {gone block more : List Text} {attrs : List Text} {name : Text}
    (hl : trim l = testMark) (hname : name ≠ [])
    (hd : findDecl 0 (gone ++ (block ++ more)) = ⟨attrs, gone.length, name⟩)
    (hblock : closesAt braceStep braceDone (0, false) block = true) (before : List Text) :
    locate before 0 (l :: (gone ++ (block ++ more))) =
      .note before ⟨attrs, gone.length, name⟩ block
        (locate (before ++ (l :: (gone ++ block))) 0 more) := by
  have hread : readBlock ((gone ++ (block ++ more)).drop gone.length) = block := by
    rw [List.drop_left, readBlock, readThrough_closes hblock]
  have hlater : locate (before ++ [l]) (gone.length + block.length) (gone ++ (block ++ more)) =
      locate (before ++ (l :: (gone ++ block))) 0 more := by
    rw [← List.length_append, ← List.append_assoc, locate_pass, List.append_assoc,
      List.singleton_append]
  simp only [locate, if_neg (not_not_intro hl), hd, if_neg hname, hread, hlater, Located.note]

/-! ## What the second pass leaves out -/

theorem trim_trimStart (l : Text) : trim (trimStart l) = trim l := by
  rw [trim, trim, trimStart, trimStart, List.dropWhile_idempotent]

theorem head_trim {c : Char} {l r : Text} (hc : isWhitespace c = false) (h : trimStart l = c :: r) :
    (trim l).head? = some c := by
  obtain ⟨r', hr, -⟩ := trim_cons hc r
  rw [← trim_trimStart, h, hr, List.head?_cons]

theorem splitOnce_fn {ws : Text} (h : ∀ c ∈ ws, isWhitespace c = true) (r : Text) :
    splitOnce (text "fn ") (ws ++ (text "fn " ++ r)) = some (ws, r) := by
  induction ws with
  | nil => rfl
  | cons c ws ih =>
    obtain ⟨hc, hws⟩ := List.forall_mem_cons.mp h
    have hstrip : stripPrefix (text "fn ") (c :: (ws ++ (text "fn " ++ r))) = none := by
      refine stripPrefix_of_not ?_
      by_contra hpre
      cases head?_of_isPrefixOf (Bool.not_eq_false _ ▸ hpre)
      cases hc
    rw [List.cons_append, splitOnce, hstrip]
    simp only []
    rw [ih hws]
    rfl

/-- `makePub` at a line that begins with `fn `. -/
theorem makePub_of {l : Text} (h : (text "fn ").isPrefixOf (trimStart l) = true) :
    ∃ ws r, (∀ c ∈ ws, isWhitespace c = true) ∧ l = ws ++ (text "fn " ++ r) ∧
      makePub l = ws ++ (text "pub fn " ++ r) := by
  obtain ⟨r, hr⟩ := List.isPrefixOf_iff_prefix.mp h
  have hsplit : l = l.takeWhile isWhitespace ++ (text "fn " ++ r) := by
    rw [hr, trimStart, List.takeWhile_append_dropWhile]
  have hws : ∀ c ∈ l.takeWhile isWhitespace, isWhitespace c = true :=
    fun c hc => List.mem_takeWhile_imp hc
  refine ⟨l.takeWhile isWhitespace, r, hws, hsplit, ?_⟩
  rw [makePub, if_pos h]
  conv_lhs => rw [insertPub, hsplit, splitOnce_fn hws]
  simp only [List.append_assoc]
  rfl

/-- `makePub` changes no line into the one that is left out, nor that one. -/
theorem trim_makePub (l : Text) : trim (makePub l) = useDir ↔ trim l = useDir := by
  by_cases hfn : (text "fn ").isPrefixOf (trimStart l) = true
  · obtain ⟨ws, r, hws, hl, hpub⟩ := makePub_of hfn
    have hstart (s : Text) : trimStart (ws ++ s) = trimStart s := by
      rw [trimStart, List.dropWhile_append_of_pos hws, trimStart]
    have hp : (trim (makePub l)).head? = some 'p' :=
      head_trim (r := text "ub fn " ++ r) (by decide) (by rw [hpub, hstart]; rfl)
    have hf : (trim l).head? = some 'f' :=
      head_trim (r := text "n " ++ r) (by decide) (by rw [hl, hstart]; rfl)
    constructor
    · intro h
      rw [h] at hp
      cases hp
    · intro h
      rw [h] at hf
      cases hf
  · rw [makePub, if_neg hfn]

/-- The second pass leaves out what the first one has found, and the lines `use super::Dir;`. -/
theorem emit_isSome (r : Located) (idx : ℕ) (line : Text) :
    (r.emit idx line).isSome = true ↔ r.emits idx = true ∧ trim line ≠ useDir := by
  have hpub : trim (if r.pubs.contains idx then makePub line else line) = useDir ↔
      trim line = useDir := by
    split
    · exact trim_makePub line
    · exact Iff.rfl
  rw [Located.emit]
  split
  · rename_i hemits
    simp only [hpub]
    split
    · simp [*]
    · simp [*]
  · rename_i hemits
    simp [hemits]

end Fstest.Stdfs.Rust
