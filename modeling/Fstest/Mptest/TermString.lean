import Fstest.Lib.Doubling
import Fstest.Mptest.Token
import Mathlib.Data.FinEnum

/-!
# The results of queries

The cells of a result are written into one buffer, with a space in front of each but the first.
`appendTerm` writes a cell that has no white space as it is, any other one between quotes, with the
quotes in it doubled, and NULL as `nil`. `--match` compares its answer with the buffer byte by byte.

Two lists of cells that are `Legible` and are written alike are the same (`render_injective`): the
words of a buffer are read off it from the front, one by one (`word_unambiguous`).
-/

namespace Fstest.Mptest

abbrev space : UInt8 := 32

/-- A cell of a result: NULL, or a text. -/
abbrev Cell := Option Bytes

namespace TermString

/-- `append_term`. The loop of the source copies the text up to a quote, and the quote once more. -/
def appendTerm (buf : Bytes) (term : Cell) : Bytes :=
  let buf := if buf.isEmpty then buf else buf ++ [space]
  match term with
  | none => buf ++ ascii "nil"
  | some z =>
    let i := z.findIdx isSpace
    if 0 < i ∧ i = z.length then buf ++ z
    else buf ++ [singleQuote] ++ doubled singleQuote z ++ [singleQuote]

/-- The buffer after a result, or several, from an empty buffer on. -/
def render (cells : List Cell) : Bytes := cells.foldl appendTerm []

/-- The test of `--match`. -/
def matchAccepts (want buf : Bytes) : Bool := want == buf

/-! ## Words -/

/-- What is written for a cell. -/
def word : Cell → Bytes
  | none => ascii "nil"
  | some z =>
    if z ≠ [] ∧ ∀ c ∈ z, isSpace c = false then z
    else singleQuote :: (doubled singleQuote z ++ [singleQuote])

/-- The words behind the first. -/
def words (cells : List Cell) : Bytes := cells.flatMap fun c => space :: word c

theorem words_cons (c : Cell) (cells : List Cell) :
    words (c :: cells) = space :: (word c ++ words cells) := List.flatMap_cons

theorem findIdx_isSpace {z : Bytes} :
    (0 < z.findIdx isSpace ∧ z.findIdx isSpace = z.length) ↔ z ≠ [] ∧ ∀ c ∈ z, isSpace c = false := by
  rw [List.findIdx_eq_length]
  refine and_congr_left fun h => ?_
  rw [List.findIdx_eq_length.mpr h, List.length_pos_iff]

theorem appendTerm_eq (buf : Bytes) (c : Cell) :
    appendTerm buf c = (if buf = [] then buf else buf ++ [space]) ++ word c := by
  simp only [appendTerm, List.isEmpty_iff]
  cases c with
  | none => rfl
  | some z =>
    dsimp only
    rw [word, if_congr findIdx_isSpace rfl rfl]
    split
    · rfl
    · rw [List.append_assoc, List.append_assoc, List.singleton_append]

theorem word_ne_nil (c : Cell) : word c ≠ [] := by
  cases c with
  | none => decide
  | some z =>
    rw [word]
    split
    · rename_i h
      exact h.1
    · exact List.cons_ne_nil _ _

theorem foldl_appendTerm {buf : Bytes} (h : buf ≠ []) (cells : List Cell) :
    cells.foldl appendTerm buf = buf ++ words cells := by
  induction cells generalizing buf with
  | nil => exact (List.append_nil buf).symm
  | cons c cells ih =>
    rw [List.foldl_cons, appendTerm_eq, if_neg h,
      ih (List.append_ne_nil_of_right_ne_nil _ (word_ne_nil c)), words_cons]
    simp only [List.append_assoc, List.cons_append, List.nil_append]

theorem render_cons (c : Cell) (cells : List Cell) : render (c :: cells) = word c ++ words cells := by
  rw [render, List.foldl_cons, appendTerm_eq, if_pos rfl, List.nil_append,
    foldl_appendTerm (word_ne_nil c)]

/-! ## Reading words -/

/-- No text is `nil`, and none without white space begins with a quote. -/
def Legible (c : Cell) : Prop :=
  ∀ z, c = some z → z ≠ ascii "nil" ∧
    ((∀ b ∈ z, isSpace b = false) → z.head? ≠ some singleQuote)

/-- A word that stands for itself. -/
structure Bare (u : Bytes) : Prop where
  no_space : ∀ b ∈ u, isSpace b = false
  no_quote : u.head? ≠ some singleQuote

/-- What is behind a word. -/
def Behind (r : Bytes) : Prop := r = [] ∨ ∃ r', r = space :: r'

theorem behind_words (cells : List Cell) : Behind (words cells) := by
  cases cells with
  | nil => exact .inl rfl
  | cons c cells => exact .inr ⟨_, rfl⟩

theorem Behind.no_quote {r : Bytes} (h : Behind r) : r.head? ≠ some singleQuote := by
  rcases h with rfl | ⟨r', rfl⟩
  · exact nofun
  · exact fun hquote => absurd (Option.some.inj hquote) (by decide)

theorem Behind.takeWhile {u r : Bytes} (hu : ∀ b ∈ u, isSpace b = false) (hr : Behind r) :
    (u ++ r).takeWhile (fun b => !isSpace b) = u := by
  rw [List.takeWhile_append_of_pos fun b hb => by rw [hu b hb]; rfl]
  rcases hr with rfl | ⟨r', rfl⟩
  · exact List.append_nil u
  · rw [List.takeWhile_cons_of_neg (by decide), List.append_nil]

variable {r s : Bytes} {c d : Cell}

theorem bare_unambiguous {u v : Bytes} (hu : Bare u) (hv : Bare v) (hr : Behind r) (hs : Behind s)
    (h : u ++ r = v ++ s) : u = v ∧ r = s := by
  have huv : u = v := by
    rw [← hr.takeWhile hu.no_space, h, hs.takeWhile hv.no_space]
  subst huv
  exact ⟨rfl, List.append_cancel_left h⟩

theorem bare_nil : Bare (ascii "nil") := ⟨by decide +kernel, by decide +kernel⟩

/-- A cell is written bare or between quotes. -/
theorem word_cases (hc : Legible c) : Bare (word c) ∨
    ∃ z, c = some z ∧ word c = singleQuote :: (doubled singleQuote z ++ [singleQuote]) := by
  cases c with
  | none => exact .inl bare_nil
  | some z =>
    by_cases hz : z ≠ [] ∧ ∀ b ∈ z, isSpace b = false
    · rw [word, if_pos hz]
      exact .inl ⟨hz.2, (hc z rfl).2 hz.2⟩
    · exact .inr ⟨z, rfl, if_neg hz⟩

theorem bare_ne_quoted {u : Bytes} (hne : u ≠ []) (hu : Bare u) : u ++ r ≠ singleQuote :: s := by
  intro h
  cases u with
  | nil => exact hne rfl
  | cons b u => exact hu.no_quote (congrArg some (List.cons.inj h).1)

theorem eq_of_bare (hc : Legible c) (hd : Legible d) (hbare : Bare (word c)) (h : word c = word d) :
    c = d := by
  have hplain : ∀ z, Bare (word (some z)) → word (some z) = z := fun z hz => by
    rw [word] at hz ⊢
    split at hz
    · rename_i hcond
      exact if_pos hcond
    · exact absurd rfl hz.no_quote
  cases c with
  | none =>
    cases d with
    | none => rfl
    | some z =>
      rw [hplain z (h ▸ hbare)] at h
      exact absurd h.symm (hd z rfl).1
  | some y =>
    rw [hplain y hbare] at h
    cases d with
    | none => exact absurd h (hc y rfl).1
    | some z =>
      rw [hplain y hbare] at hbare
      rw [hplain z (h ▸ hbare)] at h
      rw [h]

/-- **The first word of a buffer, and what is behind it, can be read off it.** -/
theorem word_unambiguous (hc : Legible c) (hd : Legible d) (hr : Behind r) (hs : Behind s)
    (h : word c ++ r = word d ++ s) : c = d ∧ r = s := by
  rcases word_cases hc with hbare | ⟨y, rfl, hy⟩
  · rcases word_cases hd with hbare' | ⟨z, rfl, hz⟩
    · obtain ⟨hword, hrest⟩ := bare_unambiguous hbare hbare' hr hs h
      exact ⟨eq_of_bare hc hd hbare hword, hrest⟩
    · rw [hz] at h
      exact absurd h (bare_ne_quoted (word_ne_nil c) hbare)
  · rcases word_cases hd with hbare' | ⟨z, rfl, hz⟩
    · rw [hy] at h
      exact absurd h.symm (bare_ne_quoted (word_ne_nil d) hbare')
    · rw [hy, hz, List.cons_append, List.cons_append, List.append_assoc, List.append_assoc] at h
      obtain ⟨rfl, hrest⟩ := doubled_unambiguous hr.no_quote hs.no_quote (List.cons.inj h).2
      exact ⟨rfl, hrest⟩

theorem words_injective {as bs : List Cell} (ha : ∀ c ∈ as, Legible c) (hb : ∀ c ∈ bs, Legible c)
    (h : words as = words bs) : as = bs := by
  induction as generalizing bs with
  | nil =>
    cases bs with
    | nil => rfl
    | cons b bs => cases h
  | cons a as ih =>
    cases bs with
    | nil => cases h
    | cons b bs =>
      obtain ⟨rfl, hrest⟩ := word_unambiguous (ha a List.mem_cons_self) (hb b List.mem_cons_self)
        (behind_words as) (behind_words bs) (List.cons.inj h).2
      rw [ih (fun c hc => ha c (List.mem_cons_of_mem a hc)) (fun c hc => hb c (List.mem_cons_of_mem a hc))
        hrest]

/-- **Two results that are written alike are the same**, so an answer of `--match` accepts one result
at most. -/
theorem render_injective (as bs : List Cell) (ha : ∀ c ∈ as, Legible c) (hb : ∀ c ∈ bs, Legible c) :
    (render as = render bs → as = bs) ∧
      ∀ want, matchAccepts want (render as) = true → matchAccepts want (render bs) = true → as = bs := by
  have hinj : render as = render bs → as = bs := by
    intro h
    cases as with
    | nil =>
      cases bs with
      | nil => rfl
      | cons b bs =>
        rw [render_cons] at h
        exact absurd h.symm (List.append_ne_nil_of_left_ne_nil (word_ne_nil b) _)
    | cons a as =>
      cases bs with
      | nil =>
        rw [render_cons] at h
        exact absurd h (List.append_ne_nil_of_left_ne_nil (word_ne_nil a) _)
      | cons b bs =>
        rw [render_cons, render_cons] at h
        exact words_injective ha hb (congrArg (List.cons space) h)
  refine ⟨hinj, fun want hwa hwb => hinj ?_⟩
  rw [← eq_of_beq hwa, ← eq_of_beq hwb]

/-- NULL, an empty text, one with a quote and one with a quote and a space. -/
abbrev fourCells : List Cell := [none, some [], some (ascii "a'b"), some (ascii "c' d")]

/-- The same words, the last two of them as texts of their own. -/
abbrev fiveCells : List Cell := [none, some [], some (ascii "a'b"), some (ascii "c'"), some (ascii "d")]

/-- Where the last text is taken apart the result is written in another way, and accepted by others. -/
theorem render_injective_apart : render fourCells ≠ render fiveCells ∧
    ∀ want, matchAccepts want (render fourCells) = true → matchAccepts want (render fiveCells) = false := by
  obtain ⟨hrender, hmatch⟩ := render_injective fourCells fiveCells
    (by simp [Legible, fourCells]; decide +kernel) (by simp [Legible, fiveCells]; decide +kernel)
  refine ⟨fun h => absurd (hrender h) (by decide), fun want hfour => ?_⟩
  rw [← Bool.not_eq_true]
  exact fun hfive => absurd (hmatch want hfour hfive) (by decide)

example : render fourCells = ascii "nil '' a'b 'c'' d'" := by decide

end TermString

end Fstest.Mptest
