import Fstest.Mptest.Token
import Mathlib.Data.List.TakeWhile

/-!
# Literals as tokens

A SQL literal ends at the first delimiter that is not doubled (`literalEnd`). `token_length` looks one byte
too far for the second one: at a delimiter it asks for another one behind the next byte. So it reads a
literal to its end exactly if the delimiters at its first stop are an odd number, and the second byte
behind them is no delimiter again (`ReadsLiteral`). Everything else about its tokens is right
(`tokenLength_whole_iff`).
-/

namespace Fstest.Mptest

/-- The number of bytes up to the closing delimiter of a literal, from behind its opening one. A doubled
delimiter stands for itself. -/
def literalEnd (delim : UInt8) : Bytes → Option ℕ
  | [] => none
  | c :: r =>
    if c = delim then
      match r with
      | [] => some 1
      | d :: r' => if d = delim then (literalEnd delim r').map (· + 2) else some 1
    else (literalEnd delim r).map (· + 1)

/-- The token of `z` is one lexeme, and its lines are counted. -/
structure Whole (z : Bytes) : Prop where
  bounds : 1 ≤ (tokenLength z).1 ∧ (tokenLength z).1 ≤ z.length
  lines : (tokenLength z).2 = (z.take (tokenLength z).1).count newline
  literal : ∀ delim r e, z = delim :: r → delim = doubleQuote ∨ delim = singleQuote →
    literalEnd delim r = some e → (tokenLength z).1 = e + 1

/-- The delimiters at the first place where there is one. -/
def firstRun (delim : UInt8) (r : Bytes) : Bytes := (r.dropWhile (· != delim)).takeWhile (· == delim)

/-- What stands behind them. -/
def behindRun (delim : UInt8) (r : Bytes) : Bytes := (r.dropWhile (· != delim)).dropWhile (· == delim)

/-- The literal behind its opening delimiter is not closed at all, or its first run of delimiters is odd
and not followed by another one after a single byte. -/
def ReadsLiteral (delim : UInt8) (r : Bytes) : Prop :=
  literalEnd delim r = none ∨ (firstRun delim r).length % 2 = 1 ∧ (behindRun delim r).tail.head? ≠ some delim

/-! ## Lines of the other tokens -/

theorem Extent.lines_step {c : UInt8} {r : Bytes} {e : Extent} (h : e.2 = (r.take e.1).count newline) :
    (Extent.step c e).2 = ((c :: r).take (Extent.step c e).1).count newline := by
  rw [Extent.step_fst, List.take_succ_cons, List.count_cons, ← h]
  simp only [Extent.step, beq_iff_eq]

theorem Extent.lines_step_other {c d : UInt8} {r : Bytes} {e : Extent} (hc : c ≠ newline)
    (hd : d ≠ newline) (h : e.2 = (r.take e.1).count newline) :
    (Extent.step d e).2 = ((c :: r).take (Extent.step d e).1).count newline := by
  rw [Extent.step_fst, List.take_succ_cons, List.count_cons_of_ne hc, ← h]
  simp only [Extent.step, if_neg hd, Nat.add_zero]

theorem not_newline_of_not_isSpace {c : UInt8} (h : ¬ isSpace c = true) : c ≠ newline := by
  rintro rfl
  exact h (by decide)

theorem blankLength_lines (inC : Bool) (z : Bytes) :
    (blankLength inC z).2 = (z.take (blankLength inC z).1).count newline := by
  fun_induction blankLength inC z
  case case1 => rfl
  case case2 ih => exact Extent.lines_step ih
  case case3 c h => simp [not_newline_of_not_isSpace h]
  case case4 => rfl
  case case5 d r h ih =>
    simp only [Bool.and_eq_true, beq_iff_eq] at h
    exact Extent.lines_step (Extent.lines_step_other (by rw [h.2]; decide) (by decide) ih)
  case case6 d r _ h ih =>
    simp only [Bool.and_eq_true, beq_iff_eq] at h
    exact Extent.lines_step (Extent.lines_step_other (by rw [h.2]; decide) (by decide) ih)
  case case7 ih => exact Extent.lines_step ih
  case case8 => rfl

theorem lineLength_lines (z : Bytes) : (lineLength z).2 = (z.take (lineLength z).1).count newline := by
  fun_induction lineLength z
  case case1 => rfl
  case case2 => rfl
  case case3 c r h ih => exact Extent.lines_step_other h (by decide) ih

theorem wordLength_lines (z : Bytes) : (z.take (wordLength z)).count newline = 0 := by
  have hword : z.take (wordLength z) = z.takeWhile fun c =>
      !(isSpace c || c == doubleQuote || c == singleQuote || c == semicolon) :=
    List.prefix_iff_eq_take.mp (List.takeWhile_prefix _) |>.symm
  rw [hword, List.count_eq_zero]
  intro h
  exact absurd (List.mem_takeWhile_imp h) (by decide)

/-! ## Runs of delimiters -/

section

variable {delim : UInt8} {u v r : Bytes}

theorem literalEnd_append (hu : delim ∉ u) :
    literalEnd delim (u ++ r) = (literalEnd delim r).map (· + u.length) := by
  induction u with
  | nil => simp
  | cons c u ih =>
    obtain ⟨hc, hu⟩ := not_or.mp (mt List.mem_cons.mpr hu)
    rw [List.cons_append, literalEnd.eq_def]
    simp only [if_neg (Ne.symm hc), ih hu, Option.map_map, List.length_cons]
    rfl

theorem literalLength_append (hu : delim ∉ u) : literalLength delim (u ++ r) =
    (u.length + (literalLength delim r).1, u.count newline + (literalLength delim r).2) := by
  induction u with
  | nil => simp
  | cons c u ih =>
    obtain ⟨hc, hu⟩ := not_or.mp (mt List.mem_cons.mpr hu)
    rw [List.cons_append, literalLength.eq_def]
    simp only [if_neg (Ne.symm hc), ih hu, Extent.step, List.length_cons, List.count_cons, beq_iff_eq]
    refine Prod.ext ?_ ?_
    · simp only []
      omega
    · simp only []
      omega

/-- The end of a literal whose first run has `k` delimiters. -/
theorem literalEnd_run (hv : v.head? ≠ some delim) (k : ℕ) :
    literalEnd delim (List.replicate k delim ++ v) =
      if k % 2 = 1 then some k else (literalEnd delim v).map (· + k) := by
  induction k using Nat.strongRecOn with
  | ind k ih =>
    match k with
    | 0 => simp
    | 1 =>
      cases v with
      | nil => simp [literalEnd]
      | cons d v =>
        have hd : d ≠ delim := fun h => hv (by rw [h]; rfl)
        simp [literalEnd, hd]
    | k + 2 =>
      have hstep : literalEnd delim (List.replicate (k + 2) delim ++ v) =
          (literalEnd delim (List.replicate k delim ++ v)).map (· + 2) := by
        simp [List.replicate_succ, literalEnd]
      rw [hstep, ih k (by omega), Nat.add_mod_right]
      split
      · rfl
      · simp only [Option.map_map]
        rfl

/-- What the source reads of the first run: all of it if it is odd, and else all but the last one. In
the odd case it goes on where the second byte behind the run is a delimiter. -/
theorem literalLength_run (hdelim : delim ≠ newline) (hv : v.head? ≠ some delim) (k : ℕ) :
    (k % 2 = 1 → v.tail.head? ≠ some delim →
      literalLength delim (List.replicate k delim ++ v) = (k, 0)) ∧
    (k % 2 = 1 → v.tail.head? = some delim →
      k < (literalLength delim (List.replicate k delim ++ v)).1) ∧
    (k % 2 = 0 → k ≠ 0 → literalLength delim (List.replicate k delim ++ v) = (k - 1, 0)) := by
  have hnl : ∀ e : Extent, Extent.step delim e = (e.1 + 1, e.2) := fun e => by
    simp [Extent.step, hdelim]
  have hnl0 : ∀ e : Extent, Extent.step 0 e = (e.1 + 1, e.2) := fun e => rfl
  induction k using Nat.strongRecOn with
  | ind k ih =>
    rcases k with _ | _ | _ | k
    · exact ⟨fun h => (by cases h), fun h => (by cases h), fun _ h => absurd rfl h⟩
    · cases v with
      | nil => simp [literalLength, hnl]
      | cons d v =>
        have hd : d ≠ delim := fun h => hv (by rw [h]; rfl)
        rw [show List.replicate 1 delim ++ d :: v = delim :: d :: v from rfl, literalLength, if_pos rfl,
          List.tail_cons]
        refine ⟨fun _ h => by rw [if_neg h, hnl], fun _ h => ?_, fun h => by cases h⟩
        rw [if_pos h, Extent.step_fst, Extent.step_fst]
        omega
    · have hstep : literalLength delim (List.replicate 2 delim ++ v) = (1, 0) := by
        simp [List.replicate_succ, literalLength, hnl, hv]
      exact ⟨fun h => (by cases h), fun h => (by cases h), fun _ _ => hstep⟩
    · have hstep : literalLength delim (List.replicate (k + 3) delim ++ v) =
          ((literalLength delim (List.replicate (k + 1) delim ++ v)).1 + 2,
            (literalLength delim (List.replicate (k + 1) delim ++ v)).2) := by
        simp [List.replicate_succ, literalLength, hnl, hnl0]
      obtain ⟨h₁, h₂, h₃⟩ := ih (k + 1) (by omega)
      rw [hstep]
      refine ⟨fun hk hv' => ?_, fun hk hv' => ?_, fun hk _ => ?_⟩
      · rw [h₁ (by omega) hv']
      · have := h₂ (by omega) hv'
        simp only []
        omega
      · rw [h₃ (by omega) (by omega)]
        rfl

/-- A text up to its first run of delimiters, the run, and the rest. -/
theorem split_firstRun (delim : UInt8) (r : Bytes) : ∃ u, delim ∉ u ∧
    r = u ++ (List.replicate (firstRun delim r).length delim ++ behindRun delim r) ∧
    (behindRun delim r).head? ≠ some delim ∧
    ((firstRun delim r).length = 0 → behindRun delim r = []) := by
  refine ⟨r.takeWhile (· != delim), fun h => ?_, ?_, fun h => ?_, fun h => ?_⟩
  · exact absurd (List.mem_takeWhile_imp h) (by simp)
  · have hrun : List.replicate (firstRun delim r).length delim = firstRun delim r :=
      (List.eq_replicate_of_mem fun c hc => beq_iff_eq.mp (List.mem_takeWhile_imp (p := (· == delim)) hc)).symm
    rw [hrun, firstRun, behindRun, List.takeWhile_append_dropWhile, List.takeWhile_append_dropWhile]
  · have hnot := List.head?_dropWhile_not (· == delim) (r.dropWhile (· != delim))
    rw [show (r.dropWhile (· != delim)).dropWhile (· == delim) = behindRun delim r from rfl, h] at hnot
    simp at hnot
  · -- Without a run there is no delimiter at all.
    have hhead := List.head?_dropWhile_not (· != delim) r
    unfold firstRun at h
    unfold behindRun
    cases hrest : r.dropWhile (· != delim) with
    | nil => rfl
    | cons c l =>
      rw [hrest] at h hhead
      simp_all

end

/-! ## Whole tokens -/

theorem tokenLength_quote {delim : UInt8} (h : delim = doubleQuote ∨ delim = singleQuote) (r : Bytes) :
    tokenLength (delim :: r) = Extent.step 0 (literalLength delim r) := by
  rcases h with rfl | rfl <;> rfl

theorem whole_of_other {c : UInt8} {r : Bytes} (h : ¬ (c = doubleQuote ∨ c = singleQuote)) :
    Whole (c :: r) where
  bounds := tokenLength_bounds (List.cons_ne_nil c r)
  lines := by
    rw [tokenLength]
    split
    · exact blankLength_lines false (c :: r)
    rename_i hspace
    have hc := not_newline_of_not_isSpace hspace
    split
    · rename_i hcomment
      obtain ⟨r', rfl⟩ := List.head?_eq_some_iff.mp hcomment.2
      exact Extent.lines_step_other hc (by decide)
        (Extent.lines_step_other (by decide) (by decide) (blankLength_lines true r'))
    split
    · rename_i hdash
      obtain ⟨r', rfl⟩ := List.head?_eq_some_iff.mp hdash.2
      exact Extent.lines_step_other hc (by decide)
        (Extent.lines_step_other (by decide) (by decide) (lineLength_lines r'))
    · simp only []
      rw [List.take_succ_cons, List.count_cons_of_ne hc, wordLength_lines]
  literal := by
    rintro delim r' e heq hquote -
    obtain ⟨rfl, -⟩ := List.cons.inj heq
    exact absurd hquote h

/-- A literal that is read up to its end, if it has one. -/
theorem whole_of_read {delim : UInt8} {r : Bytes} {n : ℕ} (h : delim = doubleQuote ∨ delim = singleQuote)
    (hlen : literalLength delim r = (n, (r.take n).count newline))
    (hend : ∀ e, literalEnd delim r = some e → n = e) : Whole (delim :: r) where
  bounds := tokenLength_bounds (List.cons_ne_nil delim r)
  lines := by
    have hnl : delim ≠ newline := by rcases h with rfl | rfl <;> decide
    rw [tokenLength_quote h]
    exact Extent.lines_step_other hnl (by decide) (by rw [hlen])
  literal := by
    rintro delim' r' e heq - he
    obtain ⟨rfl, rfl⟩ := List.cons.inj heq
    rw [tokenLength_quote h, Extent.step_fst, hlen, hend e he]

section

variable {delim : UInt8} {u v : Bytes} {k : ℕ} (h : delim = doubleQuote ∨ delim = singleQuote)
  (hu : delim ∉ u) (hv : v.head? ≠ some delim)

include h in
/-- The delimiters of the first run are no line ends. -/
theorem count_newline_run {m : ℕ} (hm : m ≤ k) :
    ((u ++ (List.replicate k delim ++ v)).take (u.length + m)).count newline = u.count newline := by
  have hnl : delim ≠ newline := by rcases h with rfl | rfl <;> decide
  rw [List.take_length_add_append, List.take_append_of_le_length (by simpa using hm), List.take_replicate,
    List.count_append, List.count_replicate, if_neg (by simpa using hnl), Nat.add_zero]

include h hu hv

/-- An odd first run ends the literal. -/
theorem whole_odd_iff (hk : k % 2 = 1) : Whole (delim :: (u ++ (List.replicate k delim ++ v))) ↔
    v.tail.head? ≠ some delim := by
  have hnl : delim ≠ newline := by rcases h with rfl | rfl <;> decide
  have hend := literalEnd_append (r := List.replicate k delim ++ v) hu
  rw [literalEnd_run hv, if_pos hk, Option.map_some] at hend
  have hlen := literalLength_append (r := List.replicate k delim ++ v) hu
  obtain ⟨hodd, hover, -⟩ := literalLength_run hnl hv k
  by_cases hbehind : v.tail.head? = some delim
  · refine iff_of_false (fun hw => ?_) (not_not.mpr hbehind)
    have heq := hw.literal delim _ _ rfl h hend
    have hlt := hover hk hbehind
    rw [tokenLength_quote h, Extent.step_fst, hlen] at heq
    simp only [] at heq
    omega
  · refine iff_of_true (whole_of_read h (n := u.length + k) ?_ fun e he => ?_) hbehind
    · rw [hlen, hodd hk hbehind, count_newline_run h (Nat.le_refl k)]
      rfl
    · rw [hend] at he
      rw [← Option.some.inj he, Nat.add_comm]

/-- An even first run does not end it, but the source stops there. -/
theorem whole_even_iff (hnone : k = 0 → v = []) (hk : k % 2 ≠ 1) :
    Whole (delim :: (u ++ (List.replicate k delim ++ v))) ↔
      literalEnd delim (u ++ (List.replicate k delim ++ v)) = none := by
  have hnl : delim ≠ newline := by rcases h with rfl | rfl <;> decide
  have hend := literalEnd_append (r := List.replicate k delim ++ v) hu
  rw [literalEnd_run hv, if_neg hk] at hend
  obtain ⟨-, -, heven⟩ := literalLength_run hnl hv k
  have hread : literalLength delim (u ++ (List.replicate k delim ++ v)) =
      (u.length + (k - 1), u.count newline) := by
    rw [literalLength_append (r := List.replicate k delim ++ v) hu]
    by_cases hk0 : k = 0
    · rw [hk0, hnone hk0]
      rfl
    · rw [heven (by omega) hk0]
      rfl
  cases hclosed : literalEnd delim v with
  | none =>
    rw [hclosed] at hend
    refine iff_of_true (whole_of_read h (n := u.length + (k - 1)) ?_ fun e he => ?_) hend
    · rw [hread, count_newline_run h (Nat.sub_le k 1)]
    · rw [hend] at he
      cases he
  | some e =>
    rw [hclosed] at hend
    refine iff_of_false (fun hw => ?_) fun hn => ?_
    · have heq := hw.literal delim _ _ rfl h hend
      rw [tokenLength_quote h, Extent.step_fst, hread] at heq
      simp only [] at heq
      have hk0 : k ≠ 0 := fun hk0 => by
        rw [hnone hk0] at hclosed
        cases hclosed
      omega
    · rw [hend] at hn
      cases hn

end

theorem whole_literal_iff {delim : UInt8} (h : delim = doubleQuote ∨ delim = singleQuote) (r : Bytes) :
    Whole (delim :: r) ↔ ReadsLiteral delim r := by
  obtain ⟨u, hu, hr, hv, hnone⟩ := split_firstRun delim r
  generalize hk : (firstRun delim r).length = k at hr hnone
  unfold ReadsLiteral
  rw [hk]
  generalize behindRun delim r = v at hr hv hnone ⊢
  subst hr
  by_cases hodd : k % 2 = 1
  · have hclosed : literalEnd delim (u ++ (List.replicate k delim ++ v)) ≠ none := by
      rw [literalEnd_append hu, literalEnd_run hv, if_pos hodd]
      exact nofun
    rw [whole_odd_iff h hu hv hodd, or_iff_right hclosed, and_iff_right hodd]
  · rw [whole_even_iff h hu hv hnone hodd, or_iff_left fun hn => hodd hn.1]

/-- **When a token is a whole lexeme with its lines counted**: always, unless it is a literal that the
source does not read to its end. -/
theorem tokenLength_whole_iff {z : Bytes} (hz : z ≠ []) : Whole z ↔
    ∀ delim r, z = delim :: r → delim = doubleQuote ∨ delim = singleQuote → ReadsLiteral delim r := by
  obtain ⟨c, r, rfl⟩ := List.exists_cons_of_ne_nil hz
  by_cases hc : c = doubleQuote ∨ c = singleQuote
  · rw [whole_literal_iff hc]
    constructor
    · rintro h delim r' heq -
      obtain ⟨rfl, rfl⟩ := List.cons.inj heq
      exact h
    · exact fun h => h c r rfl hc
  · refine iff_of_true (whole_of_other hc) fun delim r' heq hquote => ?_
    obtain ⟨rfl, -⟩ := List.cons.inj heq
    exact absurd hquote hc

/-- A literal that is closed by a quote of its own. -/
theorem one_literal_whole : Whole (ascii "'it',") := by
  refine (tokenLength_whole_iff (List.cons_ne_nil singleQuote (ascii "it',"))).mpr fun delim r heq _ => ?_
  obtain ⟨rfl, rfl⟩ := List.cons.inj heq
  exact .inr (by decide +kernel)

/-- The token of the first of two literals takes in the second one. -/
theorem two_literals_not_whole : literalEnd singleQuote (ascii "a' 'b';") = some 2 ∧
    (tokenLength (ascii "'a' 'b';")).1 = 7 ∧ ¬ Whole (ascii "'a' 'b';") := by
  have hend : literalEnd singleQuote (ascii "a' 'b';") = some 2 := by decide +kernel
  have hseven : (tokenLength (ascii "'a' 'b';")).1 = 7 := by decide +kernel
  refine ⟨hend, hseven, fun h => ?_⟩
  have hthree := h.literal singleQuote (ascii "a' 'b';") 2 rfl (.inr rfl) hend
  rw [hseven] at hthree
  cases hthree

end Fstest.Mptest
