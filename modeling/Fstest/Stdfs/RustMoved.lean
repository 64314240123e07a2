import Fstest.Stdfs.RustItems

/-!
# Whole items

The backward scan of the first pass stops at a line that is neither blank nor a comment nor begins an
attribute, so the last line of an attribute above `#[test]` that has several lines stops it. It does not
stop at a line of another item that begins with an attribute. The rewrite moves whole items exactly if
it meets neither (`moved_iff`). The proof follows the lines with marks: whether they are shown so far,
and what is due (`pass`). A mark that does not fit stays so (`broken_pass`). The text is that of the lines
that are shown in the end, each with its rewrites (`Source.text_shown`).
-/

namespace Fstest.Stdfs.Rust

open Text

/-! ## The lines with marks -/

/-- A line, whether it is shown, and what is due. -/
structure Mark where
  line : Text
  shown : Bool
  due : Option Bool

namespace Mark

def of (shown : Bool) (x : Text × Option Bool) : Mark := ⟨x.1, shown, x.2⟩

def hide (x : Mark) : Mark := { x with shown := false }

def looks (x : Mark) : Bool := looksAbove x.line

/-- What is asked of the line, without the mark. -/
def asked (x : Mark) : Text × Option Bool := (x.line, x.due)

end Mark

/-- The run at the end that the backward scan goes over is left out. -/
def hideRun (X : List Mark) : List Mark :=
  X.rdropWhile Mark.looks ++ (X.rtakeWhile Mark.looks).map Mark.hide

/-- The first pass at an item. -/
def pass (X : List Mark) : Item → List Mark
  | .other ls _ => X ++ (ls.map dueLine).map (.of true)
  | .test T =>
    if T.excluded then hideRun (X ++ T.aboveDues.map (.of true)) ++ T.restDues.map (.of false)
    else
      X ++ T.aboveDues.map (.of true) ++
        .of false (T.mark, some false) :: ((T.belowLines ++ T.block).map dueLine).map (.of true)

def marks (items : List Item) : List Mark := items.foldl pass []

theorem marks_concat (items : List Item) (it : Item) : marks (items ++ [it]) = pass (marks items) it := by
  rw [marks, List.foldl_append, List.foldl_cons, List.foldl_nil, marks]

theorem dues_concat (items : List Item) (it : Item) : dues (items ++ [it]) = dues items ++ it.dues := by
  rw [dues, List.flatMap_append, List.flatMap_singleton, dues]

@[simp]
theorem map_asked_of (b : Bool) (l : List (Text × Option Bool)) :
    (l.map (Mark.of b)).map Mark.asked = l := by
  rw [List.map_map]
  exact List.map_id l

theorem map_asked_hideRun (X : List Mark) : (hideRun X).map Mark.asked = X.map Mark.asked := by
  conv_rhs => rw [← List.rdropWhile_append_rtakeWhile (p := Mark.looks) (l := X)]
  rw [hideRun, List.map_append, List.map_append, List.map_map]
  rfl

theorem map_asked_pass (X : List Mark) (it : Item) :
    (pass X it).map Mark.asked = X.map Mark.asked ++ it.dues := by
  cases it with
  | other ls h => rw [pass, List.map_append, map_asked_of, Item.dues]
  | test T =>
    rw [pass, Item.dues]
    split
    · rw [List.map_append, map_asked_hideRun, List.map_append, map_asked_of, map_asked_of,
        List.append_assoc]
    · rename_i hkept
      have hrest : T.restDues = (T.mark, some false) :: (T.belowLines ++ T.block).map dueLine := by
        simp only [Test.restDues, if_neg hkept]
      rw [List.map_append, List.map_append, map_asked_of, List.map_cons, map_asked_of, hrest,
        List.append_assoc]
      rfl

/-- The marks are about what is due. -/
theorem map_asked_marks (items : List Item) : (marks items).map Mark.asked = dues items := by
  induction items using List.reverseRecOn with
  | nil => rfl
  | append_singleton items it ih => rw [marks_concat, map_asked_pass, ih, dues_concat]

/-! ### The marks are what the first pass finds -/

/-- Whether the line at a position is shown; lines that are not there yet are. -/
def shownAt (X : List Mark) (i : ℕ) : Bool := (X[i]?.map Mark.shown).getD true

theorem shownAt_append (X Y : List Mark) (i : ℕ) :
    shownAt (X ++ Y) i = if i < X.length then shownAt X i else shownAt Y (i - X.length) := by
  rw [shownAt, List.getElem?_append]
  split
  · rfl
  · rfl

theorem shownAt_of_le {X : List Mark} {i : ℕ} (h : X.length ≤ i) : shownAt X i = true := by
  rw [shownAt, List.getElem?_eq_none h]
  rfl

/-- Lines of which all are shown, or none. -/
theorem shownAt_uniform {X : List Mark} {b : Bool} (h : ∀ x ∈ X, x.shown = b) (i : ℕ) :
    shownAt X i = (b || decide (X.length ≤ i)) := by
  by_cases hi : i < X.length
  · rw [shownAt, List.getElem?_eq_getElem hi, Option.map_some, Option.getD_some, h _ (List.getElem_mem hi),
      decide_eq_false (by omega), Bool.or_false]
  · rw [shownAt_of_le (by omega), decide_eq_true (by omega), Bool.or_true]

theorem shownAt_append_shown (X : List Mark) {Y : List Mark} (h : ∀ y ∈ Y, y.shown = true) (i : ℕ) :
    shownAt (X ++ Y) i = shownAt X i := by
  rw [shownAt_append]
  split
  · rfl
  · rw [shownAt_uniform h, Bool.true_or, shownAt_of_le (by omega)]

/-- Where the lines `H` stand in place of `R`, and none of them is shown. -/
theorem shownAt_cut (D : List Mark) {R H : List Mark} (h : ∀ x ∈ H, x.shown = false)
    (hle : R.length ≤ H.length) (i : ℕ) :
    shownAt (D ++ H) i =
      (shownAt (D ++ R) i && !(decide (D.length ≤ i) && decide (i < D.length + H.length))) := by
  rw [shownAt_append, shownAt_append]
  split
  · rename_i hi
    rw [decide_eq_false (by omega : ¬D.length ≤ i), Bool.false_and, Bool.not_false, Bool.and_true]
  · rename_i hi
    rw [shownAt_uniform h, Bool.false_or, decide_eq_true (by omega : D.length ≤ i), Bool.true_and]
    by_cases hlt : i < D.length + H.length
    · rw [decide_eq_true hlt, decide_eq_false (by omega), Bool.not_true, Bool.and_false]
    · rw [shownAt_of_le (by omega), decide_eq_false hlt, decide_eq_true (by omega)]
      rfl

theorem of_shown {b : Bool} {l : List (Text × Option Bool)} : ∀ x ∈ l.map (Mark.of b), x.shown = b := by
  intro x hx
  obtain ⟨y, -, rfl⟩ := List.mem_map.mp hx
  rfl

theorem hide_shown {X : List Mark} : ∀ x ∈ X.map Mark.hide, x.shown = false := by
  intro x hx
  obtain ⟨y, -, rfl⟩ := List.mem_map.mp hx
  rfl

theorem Piece.dues_fst {p : Text → Bool} (ps : List (Piece p)) :
    (ps.flatMap Piece.dues).map Prod.fst = ps.flatMap Piece.lines := by
  rw [List.map_flatMap]
  congr 1
  funext x
  cases x with
  | attr a =>
    rw [Piece.dues, List.map_map]
    exact List.map_id a.lines
  | gap l h => rfl

theorem dueLine_fst (ls : List Text) : (ls.map dueLine).map Prod.fst = ls := by
  rw [List.map_map]
  exact List.map_id ls

theorem Test.aboveDues_fst (T : Test) : T.aboveDues.map Prod.fst = T.aboveLines := by
  rw [aboveDues]
  split
  · exact Piece.dues_fst T.above
  · exact dueLine_fst T.aboveLines

theorem Test.restDues_fst (T : Test) :
    T.restDues.map Prod.fst = T.mark :: (T.belowLines ++ T.block) := by
  rw [restDues, List.map_cons]
  congr 1
  split
  · rw [List.map_map]
    exact List.map_id _
  · exact dueLine_fst _

theorem Item.dues_fst (it : Item) : it.dues.map Prod.fst = it.lines := by
  cases it with
  | other ls h => exact dueLine_fst ls
  | test T => rw [Item.dues, List.map_append, T.aboveDues_fst, T.restDues_fst, Item.lines, Test.lines]

theorem map_line (X : List Mark) : X.map Mark.line = (X.map Mark.asked).map Prod.fst := by
  rw [List.map_map]
  rfl

theorem map_line_pass (X : List Mark) (it : Item) :
    (pass X it).map Mark.line = X.map Mark.line ++ it.lines := by
  rw [map_line, map_asked_pass, List.map_append, ← map_line, it.dues_fst]

theorem map_line_of (b : Bool) (l : List (Text × Option Bool)) :
    (l.map (Mark.of b)).map Mark.line = l.map Prod.fst := by rw [map_line, map_asked_of]

theorem note_emits (before : List Text) (d : Decl) (block : List Text) (later : Located) (i : ℕ) :
    (Located.note before d block later).emits i =
      (later.emits i &&
        if isExcluded d.name block then
          !(decide (before.length - (before.rtakeWhile looksAbove).length ≤ i) &&
            decide (i ≤ before.length + 1 + d.offset + block.length - 1))
        else decide (i ≠ before.length)) := by
  rw [Located.note]
  split
  · simp only [Located.emits, List.any_cons, Bool.not_or, Bool.and_comm, Bool.and_left_comm]
  · simp only [Located.emits, List.contains_cons, Bool.not_or, ne_eq, decide_not, Bool.beq_eq_decide_eq]
    cases decide (i = before.length) <;> simp

/-- **The marks at one item** are what the first pass notes of it. -/
theorem shownAt_pass (X : List Mark) (it : Item) (more : List Text) (i : ℕ) :
    (shownAt (pass X it) i && (locate ((pass X it).map Mark.line) 0 more).emits i) =
      (shownAt X i && (locate (X.map Mark.line) 0 (it.lines ++ more)).emits i) := by
  rw [map_line_pass]
  cases it with
  | other ls h =>
    rw [Item.lines, locate_idle h, pass, shownAt_append_shown X of_shown]
  | test T =>
    have hbefore : X.map Mark.line ++ T.aboveLines = (X ++ T.aboveDues.map (Mark.of true)).map Mark.line := by
      rw [List.map_append, map_line_of, T.aboveDues_fst]
    have habove : shownAt (X ++ T.aboveDues.map (Mark.of true)) i = shownAt X i :=
      shownAt_append_shown X of_shown i
    have hexcl : isExcluded T.name T.block = T.excluded := rfl
    rw [Item.lines, locate_lines, note_emits, hbefore, ← habove, rtakeWhile_map, pass]
    generalize X ++ T.aboveDues.map (Mark.of true) = Y
    simp only [hexcl, List.length_map]
    split
    · have hlen : Y.length = (Y.rdropWhile Mark.looks).length + (Y.rtakeWhile Mark.looks).length := by
        rw [← List.length_append, List.rdropWhile_append_rtakeWhile]
      have hrest : T.restDues.length = 1 + T.belowLines.length + T.block.length := by
        rw [← List.length_map Prod.fst, T.restDues_fst]
        simp only [List.length_cons, List.length_append]
        omega
      have hcut := shownAt_cut (Y.rdropWhile Mark.looks) (R := Y.rtakeWhile Mark.looks)
        (H := (Y.rtakeWhile Mark.looks).map Mark.hide ++ T.restDues.map (Mark.of false))
        (List.forall_mem_append.mpr ⟨hide_shown, of_shown⟩) (by simp) i
      rw [hideRun, List.append_assoc, hcut, List.rdropWhile_append_rtakeWhile]
      simp only [List.length_append, List.length_map, hrest]
      have hrun : (Y.rtakeWhile fun b => looksAbove b.line).length = (Y.rtakeWhile Mark.looks).length := rfl
      rw [hrun, Bool.and_assoc, Bool.and_comm (Located.emits _ _)]
      congr 3
      · congr 1
        · exact decide_eq_decide.mpr (by omega)
        · exact decide_eq_decide.mpr (by omega)
    · have hcut := shownAt_cut Y (R := []) (H := [Mark.of false (T.mark, some false)])
        (by rintro x hx; rw [List.mem_singleton.mp hx]; rfl) (Nat.zero_le _) i
      rw [List.append_nil] at hcut
      rw [← List.singleton_append, ← List.append_assoc, shownAt_append_shown _ of_shown, hcut,
        Bool.and_assoc, Bool.and_comm (Located.emits _ _)]
      congr 2
      rw [Bool.eq_iff_iff]
      simp only [List.length_singleton, Bool.not_eq_true', Bool.and_eq_false_iff, decide_eq_false_iff_not,
        decide_eq_true_eq]
      omega

/-- **The marks are what the first pass finds.** -/
theorem shownAt_foldl (items : List Item) (X : List Mark) (i : ℕ) :
    shownAt (items.foldl pass X) i =
      (shownAt X i && (locate (X.map Mark.line) 0 (items.flatMap Item.lines)).emits i) := by
  induction items generalizing X with
  | nil =>
    rw [List.foldl_nil]
    exact (Bool.and_true _).symm
  | cons it items ih => rw [List.foldl_cons, ih, List.flatMap_cons, shownAt_pass]

theorem Source.shownAt_marks (S : Source) (i : ℕ) : shownAt (marks S.items) i = S.located.emits i := by
  rw [marks, shownAt_foldl, located, S.made]
  exact Bool.true_and _

/-! ### Whether the marks fit what is due -/

/-- No line of the run at the end is code of an item that is kept. -/
def Clear (items : List Item) : Prop :=
  ∀ x ∈ (dues items).rtakeWhile (fun x => looksAbove x.1), x.2 ≠ some true

/-- What an item asks for that stands behind others. -/
def Free (before : List Item) : Item → Prop
  | .other _ _ => True
  | .test T => T.excluded = true → T.OneLine ∧ Clear before

def Fits (X : List Mark) : Prop := ∀ x ∈ X, ∀ b, x.due = some b → x.shown = b

/-- A line that is left out against what is due, or one that is shown and that no scan goes over. -/
def Broken (X : List Mark) : Prop :=
  ∃ x ∈ X, x.due = some !x.shown ∧ (x.shown = true → x.looks = false ∧ trim x.line ≠ useDir)

theorem Attr.one_le (a : Attr) : 1 ≤ a.lines.length := by
  obtain ⟨l, ls, hlines, -⟩ := a.opens
  rw [hlines, List.length_cons]
  omega

/-- An attribute on one line. -/
theorem Attr.single {a : Attr} (h : a.lines.length = 1) :
    ∃ l, a.lines = [l] ∧ a.text = trim l ∧ isAttr (trim l) = true := by
  obtain ⟨l, ls, hlines, hopens⟩ := a.opens
  rw [hlines, List.length_cons] at h
  rw [List.eq_nil_of_length_eq_zero (by omega : ls.length = 0)] at hlines
  exact ⟨l, hlines, by rw [Attr.text, hlines, attrText_singleton], hopens⟩

/-- The last one of several lines. -/
theorem Attr.several {a : Attr} (h : a.lines.length ≠ 1) :
    ∃ ls l, a.lines = ls ++ [l] ∧ looksAbove l = false ∧ trim l ≠ useDir := by
  have hone := a.one_le
  obtain hnil | ⟨ls, l, hlines⟩ := List.eq_nil_or_concat' a.lines
  · rw [hnil] at hone
    cases hone
  have hlast : l ∈ a.lines.getLast? := by rw [hlines, List.getLast?_concat]; rfl
  exact ⟨ls, l, hlines, a.closes (by omega) l hlast, (a.own l (by rw [hlines]; simp)).2⟩

theorem looksAbove_of_isAttr {l : Text} (h : isAttr (trim l) = true) : looksAbove l = true := by
  rw [looksAbove, h, Bool.or_true, Bool.true_or]

theorem Piece.looks_of_single {ps : List (Piece isSpace)}
    (h : ∀ a ∈ ps.flatMap Piece.attrs, a.lines.length = 1) :
    ∀ l ∈ ps.flatMap Piece.lines, looksAbove l = true := by
  intro l hl
  obtain ⟨x, hx, hlx⟩ := List.mem_flatMap.mp hl
  cases x with
  | attr a =>
    obtain ⟨l', hlines, -, hattr⟩ := Attr.single (h a (List.mem_flatMap.mpr ⟨_, hx, List.mem_singleton_self a⟩))
    rw [Piece.lines, hlines, List.mem_singleton] at hlx
    exact hlx ▸ looksAbove_of_isAttr hattr
  | gap m hm => exact List.mem_singleton.mp hlx ▸ looksAbove_of_isSpace hm

theorem Test.above_looks (T : Test) (h : T.OneLine) :
    ∀ x ∈ T.aboveDues.map (Mark.of true), x.looks = true := by
  intro x hx
  have hline : x.line ∈ T.aboveLines := by
    rw [← T.aboveDues_fst, ← map_line_of true]
    exact List.mem_map_of_mem hx
  exact Piece.looks_of_single h _ hline

theorem dueLine_due {l : Text} {b : Bool} (h : (dueLine l).2 = some b) : b = true ∧ isCode l = true := by
  rw [dueLine] at h
  split at h
  · exact ⟨(Option.some.inj h).symm, ‹_›⟩
  · cases h

theorem fits_dueLine (ls : List Text) : Fits ((ls.map dueLine).map (.of true)) := by
  intro x hx b hb
  obtain ⟨y, hy, rfl⟩ := List.mem_map.mp hx
  obtain ⟨l, -, rfl⟩ := List.mem_map.mp hy
  exact (dueLine_due hb).1.symm

/-- Lines that are not shown, and that are not due. -/
theorem fits_hidden {X : List Mark} (h : ∀ x ∈ X, x.shown = false ∧ x.due ≠ some true) : Fits X := by
  intro x hx b hb
  obtain ⟨hshown, hdue⟩ := h x hx
  cases b with
  | false => exact hshown
  | true => exact absurd hb hdue

theorem Fits.append {X Y : List Mark} (hX : Fits X) (hY : Fits Y) : Fits (X ++ Y) :=
  List.forall_mem_append.mpr ⟨hX, hY⟩

theorem Test.restDues_due {T : Test} (h : T.excluded = true) : ∀ x ∈ T.restDues, x.2 = some false := by
  rw [restDues]
  simp only [if_pos h]
  refine List.forall_mem_cons.mpr ⟨rfl, fun x hx => ?_⟩
  obtain ⟨l, -, rfl⟩ := List.mem_map.mp hx
  rfl

theorem Test.aboveDues_due {T : Test} (h : T.excluded = true) :
    ∀ x ∈ T.aboveDues, x.2 ≠ some true := by
  rw [aboveDues, if_pos h]
  intro x hx
  obtain ⟨y, -, hxy⟩ := List.mem_flatMap.mp hx
  cases y with
  | attr a =>
    obtain ⟨l, -, rfl⟩ := List.mem_map.mp hxy
    exact (by decide : some false ≠ some true)
  | gap l hl =>
    rw [List.mem_singleton.mp hxy]
    exact (by decide : none ≠ some true)

/-- The run at the end of the marks. -/
theorem map_asked_rtakeWhile (X : List Mark) :
    (X.map Mark.asked).rtakeWhile (fun x => looksAbove x.1) = (X.rtakeWhile Mark.looks).map Mark.asked :=
  rtakeWhile_map Mark.asked X

theorem fits_pass {before : List Item} {X : List Mark} {it : Item} (hX : X.map Mark.asked = dues before)
    (hfits : Fits X) (hfree : Free before it) : Fits (pass X it) := by
  cases it with
  | other ls h => exact hfits.append (fits_dueLine ls)
  | test T =>
    rw [pass]
    split
    · rename_i hexcl
      obtain ⟨hone, hclear⟩ := hfree hexcl
      refine Fits.append ?_ (fits_hidden fun x hx => ⟨of_shown x hx, ?_⟩)
      · rw [hideRun, rdropWhile_append_of_forall (T.above_looks hone),
          rtakeWhile_append_of_forall (T.above_looks hone)]
        refine Fits.append (fun x hx => hfits x ((List.rdropWhile_prefix _ _).subset hx))
          (fits_hidden fun x hx => ⟨hide_shown x hx, ?_⟩)
        obtain ⟨y, hy, rfl⟩ := List.mem_map.mp hx
        obtain hy | hy := List.mem_append.mp hy
        · refine hclear y.asked ?_
          rw [← hX, map_asked_rtakeWhile]
          exact List.mem_map_of_mem hy
        · obtain ⟨z, hz, rfl⟩ := List.mem_map.mp hy
          exact T.aboveDues_due hexcl z hz
      · obtain ⟨z, hz, rfl⟩ := List.mem_map.mp hx
        simp only [Mark.of, T.restDues_due hexcl z hz, ne_eq, Option.some.injEq, Bool.false_eq_true,
          not_false_eq_true]
    · refine (hfits.append ?_).append ?_
      · rw [Test.aboveDues, if_neg (by assumption)]
        exact fits_dueLine T.aboveLines
      · exact List.forall_mem_cons.mpr ⟨fun b hb => Option.some.inj hb, fits_dueLine _⟩

/-- A line that the scan does not go over stays as it is, one that it goes over is left out. -/
theorem broken_hideRun {X : List Mark} (h : Broken X) : Broken (hideRun X) := by
  obtain ⟨x, hx, hdue, hshown⟩ := h
  rw [hideRun]
  by_cases hlooks : x.looks = true
  · have hhidden : x.shown = false := by
      by_contra hne
      rw [(hshown (Bool.not_eq_false _ ▸ hne)).1] at hlooks
      cases hlooks
    have hsame : x.hide = x := by rw [Mark.hide, ← hhidden]
    rw [← List.rdropWhile_append_rtakeWhile (p := Mark.looks) (l := X), List.mem_append] at hx
    refine ⟨x, List.mem_append.mpr (hx.imp_right fun hrun => ?_), hdue, hshown⟩
    exact hsame ▸ List.mem_map_of_mem hrun
  · refine ⟨x, List.mem_append_left _ (mem_rdropWhile_of_neg hx ?_), hdue, hshown⟩
    exact Bool.not_eq_true _ ▸ hlooks

theorem Broken.append {X : List Mark} (h : Broken X) (Y : List Mark) : Broken (X ++ Y) := by
  obtain ⟨x, hx, hbroken⟩ := h
  exact ⟨x, List.mem_append_left Y hx, hbroken⟩

/-- **What is broken stays broken.** -/
theorem broken_pass {X : List Mark} (h : Broken X) (it : Item) : Broken (pass X it) := by
  cases it with
  | other ls _ => exact h.append _
  | test T =>
    rw [pass]
    split
    · exact (broken_hideRun (h.append _)).append _
    · exact (h.append _).append _

/-- The last line of an attribute above, or a line of an item that is kept. -/
theorem broken_of_not_free {before : List Item} {X : List Mark} {it : Item}
    (hX : X.map Mark.asked = dues before) (hfree : ¬Free before it) : Broken (pass X it) := by
  cases it with
  | other ls h => exact absurd trivial hfree
  | test T =>
    obtain ⟨hexcl, hcond⟩ := Classical.not_imp.mp hfree
    rw [pass, if_pos hexcl]
    refine Broken.append ?_ _
    by_cases hone : T.OneLine
    · -- the scan goes over the attributes, and on over a line that is due
      have hclear : ¬Clear before := fun hclear => hcond ⟨hone, hclear⟩
      simp only [Clear, not_forall, not_not] at hclear
      obtain ⟨y, hy, hdue⟩ := hclear
      rw [← hX, map_asked_rtakeWhile] at hy
      obtain ⟨x, hx, rfl⟩ := List.mem_map.mp hy
      refine ⟨x.hide, ?_, hdue, fun hshown => absurd hshown Bool.false_ne_true⟩
      rw [hideRun, rtakeWhile_append_of_forall (T.above_looks hone)]
      exact List.mem_append_right _ (List.mem_map_of_mem (List.mem_append_left _ hx))
    · -- the last line of the attribute stops the scan
      simp only [Test.OneLine, not_forall] at hone
      obtain ⟨a, ha, hlen⟩ := hone
      obtain ⟨p, hp, hap⟩ := List.mem_flatMap.mp ha
      obtain ⟨ls, l, hlines, hlooks, hown⟩ := Attr.several hlen
      have hmem : (l, some false) ∈ T.aboveDues := by
        rw [Test.aboveDues, if_pos hexcl, List.mem_flatMap]
        refine ⟨p, hp, ?_⟩
        cases p with
        | attr a' =>
          cases List.mem_singleton.mp hap
          exact List.mem_map.mpr ⟨l, by rw [hlines]; simp, rfl⟩
        | gap m hm => cases hap
      refine broken_hideRun ⟨.of true (l, some false), ?_, rfl, fun _ => ⟨hlooks, hown⟩⟩
      exact List.mem_append_right _ (List.mem_map_of_mem hmem)

/-- Every item is free behind those before it. -/
def AllFree (items : List Item) : Prop :=
  ∀ before it after, items = before ++ it :: after → Free before it

theorem fits_marks {items : List Item} (h : AllFree items) : Fits (marks items) := by
  induction items using List.reverseRecOn with
  | nil => exact fun x hx => absurd hx List.not_mem_nil
  | append_singleton items it ih =>
    rw [marks_concat]
    refine fits_pass (map_asked_marks items) (ih fun before it' after heq => ?_) (h items it [] rfl)
    exact h before it' (after ++ [it]) (by rw [heq, List.append_assoc, List.cons_append])

theorem broken_marks {items : List Item} (h : ¬AllFree items) : Broken (marks items) := by
  simp only [AllFree, not_forall] at h
  obtain ⟨before, it, after, rfl, hfree⟩ := h
  have hbroken := broken_of_not_free (map_asked_marks before) hfree
  rw [List.append_cons, marks, List.foldl_append, ← marks, marks_concat]
  generalize pass (marks before) it = X at hbroken
  induction after generalizing X with
  | nil => exact hbroken
  | cons it' after ih => exact ih (pass X it') (broken_pass hbroken it')

/-! ## The lines of the result -/

theorem isCode_of_due {items : List Item} {l : Text} (h : (l, some true) ∈ dues items) :
    isCode l = true := by
  obtain ⟨it, -, hit⟩ := List.mem_flatMap.mp h
  have hline : ∀ ls : List Text, (l, some true) ∈ ls.map dueLine → isCode l = true := fun ls hls => by
    obtain ⟨m, -, hm⟩ := List.mem_map.mp hls
    have hdue := (dueLine_due (congrArg Prod.snd hm)).2
    rwa [show m = l from congrArg Prod.fst hm] at hdue
  cases it with
  | other ls _ => exact hline ls hit
  | test T =>
    obtain habove | hrest := List.mem_append.mp hit
    · by_cases hexcl : T.excluded = true
      · exact absurd rfl (T.aboveDues_due hexcl _ habove)
      · rw [Test.aboveDues, if_neg hexcl] at habove
        exact hline _ habove
    · by_cases hexcl : T.excluded = true
      · cases T.restDues_due hexcl _ hrest
      · simp only [Test.restDues, if_neg hexcl] at hrest
        obtain heq | hrest := List.mem_cons.mp hrest
        · cases heq
        · exact hline _ hrest

theorem not_useDir_of_isCode {l : Text} (h : isCode l = true) : trim l ≠ useDir := by
  simp only [isCode, Bool.and_eq_true, bne_iff_ne] at h
  exact h.2

namespace Source

variable (S : Source)

theorem emits_of_mark {i : ℕ} {x : Mark} (h : (marks S.items)[i]? = some x) :
    S.located.emits i = x.shown := by
  rw [← S.shownAt_marks, shownAt, h]
  rfl

theorem mark_of_due {i : ℕ} {l : Text} {d : Option Bool} (h : (dues S.items)[i]? = some (l, d)) :
    ∃ x, x ∈ marks S.items ∧ x.due = d ∧ S.located.emits i = x.shown := by
  rw [← map_asked_marks, List.getElem?_map] at h
  obtain ⟨x, hx, hasked⟩ := Option.map_eq_some_iff.mp h
  exact ⟨x, List.mem_of_getElem? hx, congrArg Prod.snd hasked, S.emits_of_mark hx⟩

theorem due_of_mark {x : Mark} (h : x ∈ marks S.items) :
    ∃ i, (dues S.items)[i]? = some (x.line, x.due) ∧ S.located.emits i = x.shown := by
  obtain ⟨i, hi⟩ := List.mem_iff_getElem?.mp h
  refine ⟨i, ?_, S.emits_of_mark hi⟩
  rw [← map_asked_marks, List.getElem?_map, hi]
  rfl

theorem map_fst_dues : (dues S.items).map Prod.fst = Text.lines S.text := by
  rw [S.made, dues, List.map_flatMap]
  congr 1
  funext it
  exact it.dues_fst

/-- Whether a line stays, in the terms of the second pass. -/
theorem mem_shown {i : ℕ} {l : Text} {d : Option Bool} (h : (dues S.items)[i]? = some (l, d)) :
    (l, i) ∈ S.shown ↔ S.located.emits i = true ∧ trim l ≠ useDir := by
  have hline : (l, i) ∈ (Text.lines S.text).zipIdx := by
    rw [List.mk_mem_zipIdx_iff_getElem?, ← S.map_fst_dues, List.getElem?_map, h]
    rfl
  rw [shown, List.mem_filter, emit_isSome]
  exact and_iff_right hline

/-- The lines are as they are due exactly if every item is free behind those before it. -/
theorem lines_iff :
    (∀ (i : ℕ) (l : Text) (b : Bool), (dues S.items)[i]? = some (l, some b) →
      ((l, i) ∈ S.shown ↔ b = true)) ↔ AllFree S.items := by
  constructor
  · intro h
    by_contra hfree
    obtain ⟨x, hx, hdue, hshown⟩ := broken_marks hfree
    obtain ⟨i, hi, hemits⟩ := S.due_of_mark hx
    rw [hdue] at hi
    have hstays := h i x.line _ hi
    rw [S.mem_shown hi, hemits] at hstays
    cases hb : x.shown with
    | false =>
      rw [hb] at hstays
      exact Bool.false_ne_true (hstays.mpr rfl).1
    | true =>
      rw [hb] at hstays
      exact Bool.false_ne_true (hstays.mp ⟨rfl, (hshown hb).2⟩)
  · intro h i l b hi
    obtain ⟨x, hx, hdue, hemits⟩ := S.mark_of_due hi
    rw [S.mem_shown hi, hemits, fits_marks h x hx b hdue]
    refine and_iff_left_of_imp fun hb => ?_
    rw [hb] at hi
    exact not_useDir_of_isCode (isCode_of_due (List.mem_of_getElem? hi))

end Source

/-! ## The text of the result -/

theorem published_if {declares : Prop} [Decidable declares] (l : Text) :
    Published declares l (if declares then makePub l else l) := by
  split
  · rename_i hdeclares
    by_cases hfn : (text "fn ").isPrefixOf (trimStart l) = true
    · obtain ⟨ws, r, hws, hl, hpub⟩ := makePub_of hfn
      rw [hpub, hl]
      exact .fn hdeclares hws
    · rw [makePub, if_neg hfn]
      exact .stays fun _ hpre => hfn (List.isPrefixOf_iff_prefix.mpr hpre)
  · rename_i hdeclares
    exact .stays fun h => absurd h hdeclares

theorem exchanged_if (old new l : Text) : Exchanged old new l (if trim l = old then new else l) :=
  ⟨fun h => if_pos h, fun h => if_neg h⟩

/-- What stays of a line is the line with its rewrites. -/
theorem rewritten_emit {r : Located} {declares : Prop} {i : ℕ} {l l' : Text}
    (hpubs : i ∈ r.pubs ↔ declares) (h : r.emit i l = some l') : Rewritten declares l l' := by
  have hpub := @published_if (i ∈ r.pubs) _ l
  rw [Located.emit] at h
  simp only [List.contains_iff_mem] at h
  generalize (if i ∈ r.pubs then makePub l else l) = m at h hpub
  split at h
  · split at h
    · cases h
    · rw [← Option.some.inj h, ← hpubs]
      exact ⟨m, _, _, _, _, hpub, replaced_replaceAll (by decide) _ _,
        replaced_replaceAll (by decide) _ _, replaced_replaceAll (by decide) _ _,
        exchanged_if _ _ _, exchanged_if _ _ _⟩
  · cases h

/-- **The text of the result** is that of the lines that stay, in their order, with their rewrites. -/
theorem Source.text_shown (S : Source) :
    ∃ result : List Text, (transformRustTests S.text).1 = result.flatMap (· ++ ['\n']) ∧
      List.Forall₂ (fun x r => Rewritten (S.Declares x.2) x.1 r) S.shown result := by
  refine ⟨_, rfl, forall₂_filterMap (fun x : Text × ℕ => S.located.emit x.2 x.1) (fun x r hr => ?_) _⟩
  have hpubs := mem_pubs S.items x.2 []
  rw [← S.made] at hpubs
  exact rewritten_emit hpubs hr

/-! ## The table -/

/-- The attributes that the scan behind some lines finds. -/
def backAttrs (lines : List Text) : List Text := ((lines.rtakeWhile looksAbove).map trim).filter isAttr

/-- The entry of a test behind some lines. -/
def Test.entry (T : Test) (before : List Text) : List Text × Text :=
  (backAttrs (before ++ T.aboveLines) ++ T.belowAttrs.map Attr.text, T.name)

/-- **There is one entry for each test that is kept.** -/
theorem locate_tests (items : List Item) (before : List Text) :
    List.Forall₂ (fun T e => ∃ before, e = T.entry before) (items.flatMap Item.kept)
      (locate before 0 (items.flatMap Item.lines)).tests := by
  induction items generalizing before with
  | nil => exact .nil
  | cons it items ih =>
    rw [List.flatMap_cons, List.flatMap_cons]
    cases it with
    | other ls h =>
      rw [Item.lines, locate_idle h]
      exact ih (before ++ ls)
    | test T =>
      have hexcl : isExcluded T.name T.block = T.excluded := rfl
      rw [Item.lines, locate_lines, Item.kept, Located.note]
      simp only [hexcl]
      split
      · exact ih (before ++ T.lines)
      · exact .cons ⟨before, rfl⟩ (ih (before ++ T.lines))

theorem backAttrs_of_single {ps : List (Piece isSpace)}
    (h : ∀ a ∈ ps.flatMap Piece.attrs, a.lines.length = 1) (before : List Text) :
    backAttrs (before ++ ps.flatMap Piece.lines) =
      backAttrs before ++ (ps.flatMap Piece.attrs).map Attr.text := by
  rw [backAttrs, rtakeWhile_append_of_forall (Piece.looks_of_single h), List.map_append,
    List.filter_append, ← backAttrs]
  congr 1
  induction ps with
  | nil => rfl
  | cons x ps ih =>
    rw [List.flatMap_cons, List.flatMap_cons, List.map_append, List.map_append, List.filter_append,
      ih fun a ha => h a (by rw [List.flatMap_cons]; exact List.mem_append_right _ ha)]
    congr 1
    cases x with
    | attr a =>
      obtain ⟨l, hlines, htext, hattr⟩ := Attr.single (h a (by simp [Piece.attrs]))
      simp [Piece.lines, Piece.attrs, hlines, htext, hattr]
    | gap l hl => simp [Piece.lines, Piece.attrs, not_isAttr_of_isGap (isGap_of_isSpace hl)]

theorem backAttrs_concat (before : List Text) (l : Text) :
    backAttrs (before ++ [l]) =
      if looksAbove l then backAttrs before ++ [trim l].filter isAttr else [] := by
  rw [backAttrs, List.rtakeWhile_concat]
  split
  · rw [List.map_append, List.filter_append, backAttrs]
    rfl
  · rfl

/-- An attribute on several lines is not found, nor those above it. -/
theorem backAttrs_of_several {ps : List (Piece isSpace)}
    (h : ¬∀ a ∈ ps.flatMap Piece.attrs, a.lines.length = 1) (before : List Text) :
    (backAttrs (before ++ ps.flatMap Piece.lines)).length < (ps.flatMap Piece.attrs).length := by
  induction ps using List.reverseRecOn with
  | nil => exact absurd (fun a ha => absurd ha List.not_mem_nil) h
  | append_singleton ps x ih =>
    rw [List.flatMap_append, List.flatMap_singleton, List.flatMap_append, List.flatMap_singleton] at *
    rw [← List.append_assoc]
    cases x with
    | gap l hl =>
      rw [Piece.attrs, List.append_nil] at *
      have hattr := not_isAttr_of_isGap (isGap_of_isSpace hl)
      rw [Piece.lines, backAttrs_concat, if_pos (looksAbove_of_isSpace hl), List.filter_singleton, hattr,
        cond_false, List.append_nil]
      exact ih h
    | attr a =>
      rw [Piece.attrs, List.length_append, List.length_singleton, Piece.lines]
      by_cases hone : a.lines.length = 1
      · have hrest : ¬∀ a ∈ ps.flatMap Piece.attrs, a.lines.length = 1 := by
          intro hall
          refine h (List.forall_mem_append.mpr ⟨hall, fun b hb => ?_⟩)
          rwa [List.mem_singleton.mp hb]
        obtain ⟨l, hlines, -, hattr⟩ := Attr.single hone
        rw [hlines, backAttrs_concat, if_pos (looksAbove_of_isAttr hattr), List.length_append,
          List.filter_singleton, hattr, cond_true, List.length_singleton]
        exact Nat.add_lt_add_right (ih hrest) 1
      · obtain ⟨ls, l, hlines, hlooks, -⟩ := Attr.several hone
        rw [hlines, ← List.append_assoc, backAttrs_concat, if_neg (Bool.not_eq_true _ ▸ hlooks)]
        exact Nat.succ_pos _

/-- The entry has every attribute of the function exactly if those above it are on one line each. -/
theorem Test.entry_iff (T : Test) (before : List Text) :
    (T.name = (T.entry before).2 ∧ T.attrs.Subperm (T.entry before).1) ↔ T.OneLine := by
  rw [attrs, List.map_append, entry]
  constructor
  · rintro ⟨-, hsub⟩
    by_contra hone
    have hlen := hsub.length_le
    have hless := backAttrs_of_several hone before
    rw [← aboveLines, ← aboveAttrs] at hless
    simp only [List.length_append, List.length_map] at hlen
    omega
  · intro hone
    have hback := backAttrs_of_single hone before
    rw [← aboveLines, ← aboveAttrs] at hback
    rw [hback]
    exact ⟨rfl, ((List.sublist_append_right _ _).append_right _).subperm⟩

/-! ## When whole items are moved -/

theorem mem_kept {T : Test} {items : List Item} :
    T ∈ items.flatMap Item.kept ↔ .test T ∈ items ∧ T.excluded = false := by
  rw [List.mem_flatMap]
  constructor
  · rintro ⟨it, hit, hT⟩
    cases it with
    | other ls h => cases hT
    | test T' =>
      rw [Item.kept] at hT
      split at hT
      · cases hT
      · rw [List.mem_singleton.mp hT]
        exact ⟨hit, Bool.not_eq_true _ ▸ ‹_›⟩
  · rintro ⟨hit, hexcl⟩
    exact ⟨.test T, hit, by simp [Item.kept, hexcl]⟩

theorem Source.table_iff (S : Source) :
    List.Forall₂ (fun T e => T.name = e.2 ∧ T.attrs.Subperm e.1) (S.items.flatMap Item.kept)
      (transformRustTests S.text).2.1 ↔ ∀ T ∈ S.items.flatMap Item.kept, T.OneLine := by
  have htests := locate_tests S.items []
  rw [← S.made] at htests
  refine forall₂_iff_forall htests ?_
  rintro T _ ⟨before, rfl⟩
  exact T.entry_iff before

/-- **Whole items are moved exactly if** every attribute above a line `#[test]` is on one line, and
above an excluded test the backward scan goes over no code of an item that is kept. -/
theorem moved_iff (S : Source) :
    S.Moved ↔ (∀ T, .test T ∈ S.items → T.OneLine) ∧
      ∀ before T after, S.items = before ++ .test T :: after → T.excluded = true → Clear before := by
  constructor
  · intro h
    have hfree := S.lines_iff.mp h.lines
    refine ⟨fun T hT => ?_, fun before T after heq hexcl => (hfree before _ after heq hexcl).2⟩
    cases hexcl : T.excluded with
    | false => exact S.table_iff.mp h.table T (mem_kept.mpr ⟨hT, hexcl⟩)
    | true =>
      obtain ⟨before, after, heq⟩ := List.append_of_mem hT
      exact (hfree before _ after heq hexcl).1
  · rintro ⟨hone, hclear⟩
    refine ⟨S.lines_iff.mpr fun before it after heq => ?_, S.text_shown, S.table_iff.mpr fun T hT => ?_⟩
    · cases it with
      | other ls h => trivial
      | test T =>
        have hT : .test T ∈ S.items := by rw [heq]; simp
        exact fun hexcl => ⟨hone T hT, hclear before T after heq hexcl⟩
    · exact hone T (mem_kept.mp hT).1

/-! ## An attribute that stays behind -/

def dangling : List Text := [text "#[cfg(any(", text "    unix", text "))]"]

theorem dangling_opens : ∃ l ls, dangling = l :: ls ∧ isAttr (trim l) = true := ⟨_, _, rfl, by decide⟩

theorem dangling_balanced : closesAt bracketStep bracketDone 0 dangling = true := by decide

theorem dangling_closes : 1 < dangling.length → ∀ l ∈ dangling.getLast?, looksAbove l = false := by decide

theorem dangling_own : ∀ l ∈ dangling, trim l ≠ testMark ∧ trim l ≠ useDir := by decide

def danglingBlock : List Text := [text "fn dir_entry_debug() \x7b", text "\x7d"]

theorem danglingBlock_named : declName (trim (danglingBlock.headD [])) ≠ [] := by decide

theorem danglingBlock_balanced : closesAt braceStep braceDone (0, false) danglingBlock = true := by decide

/-- An excluded test with an attribute on three lines. -/
def danglingTest : Test where
  above := [.attr ⟨dangling, dangling_opens, dangling_balanced, dangling_closes, dangling_own⟩]
  mark := testMark
  below := []
  block := danglingBlock
  marked := rfl
  named := danglingBlock_named
  balanced := danglingBlock_balanced

def danglingText : Text :=
  text "#[cfg(any(\n    unix\n))]\n#[test]\nfn dir_entry_debug() \x7b\n\x7d\n"

theorem danglingText_made : lines danglingText = [Item.test danglingTest].flatMap Item.lines := by decide

/-- The attribute of the excluded test stays in the result. -/
theorem attribute_left : ¬(Source.mk danglingText [.test danglingTest] danglingText_made).Moved := by
  intro h
  have hgone := h.lines 0 (text "#[cfg(any(") false (by decide)
  exact Bool.false_ne_true (hgone.mp (by decide))

end Fstest.Stdfs.Rust
