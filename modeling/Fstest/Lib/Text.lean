import Mathlib.Algebra.Group.Nat.Defs
import Mathlib.Algebra.GroupWithZero.Nat
import Mathlib.Data.List.Infix
import Mathlib.Data.List.TakeWhile

/-!
# Text

Text is a list of characters, and the operations are those of the strings of the Rust standard
library: lines, trimming, prefixes, what stands before and after a separator, decimal numbers, and
lengths in bytes of UTF-8.
-/

namespace Fstest

abbrev Text := List Char

def text (s : String) : Text := s.toList

namespace Text

/-- The characters of the Unicode property `White_Space`. -/
def isWhitespace (c : Char) : Bool :=
  let n := c.toNat
  (9 ≤ n && n ≤ 13) || n == 32 || n == 0x85 || n == 0xA0 || n == 0x1680 ||
    (0x2000 ≤ n && n ≤ 0x200A) || n == 0x2028 || n == 0x2029 || n == 0x202F || n == 0x205F ||
    n == 0x3000

def trimStart (s : Text) : Text := s.dropWhile isWhitespace

def trimEnd (s : Text) : Text := (s.reverse.dropWhile isWhitespace).reverse

def trim (s : Text) : Text := trimEnd (trimStart s)

/-- The carriage return before a line feed belongs to the end of the line. -/
def stripCr (s : Text) : Text := if s.getLast? = some '\r' then s.dropLast else s

/-- The lines of a text, of which the current one has begun with `cur` (backwards). -/
def linesFrom : Text → Text → List Text
  | [], [] => []
  | [], cur => [cur.reverse]
  | '\n' :: s, cur => stripCr cur.reverse :: linesFrom s []
  | c :: s, cur => linesFrom s (c :: cur)

def lines (s : Text) : List Text := linesFrom s []

/-- `join` with line feeds. -/
def joinLines : List Text → Text
  | [] => []
  | [l] => l
  | l :: ls => l ++ '\n' :: joinLines ls

/-- The words of a text, of which the current one has begun with `cur` (backwards). -/
def wordsFrom : Text → Text → List Text
  | [], [] => []
  | [], cur => [cur.reverse]
  | c :: s, cur =>
    if isWhitespace c then
      if cur = [] then wordsFrom s [] else cur.reverse :: wordsFrom s []
    else wordsFrom s (c :: cur)

def splitWhitespace (s : Text) : List Text := wordsFrom s []

def stripPrefix (p s : Text) : Option Text := if p.isPrefixOf s then some (s.drop p.length) else none

/-- `trim_start_matches`, with as many prefixes at most as `n`. -/
def trimStartMatches (pat : Text) : ℕ → Text → Text
  | 0, s => s
  | n + 1, s =>
    match stripPrefix pat s with
    | some r => trimStartMatches pat n r
    | none => s

def contains (s part : Text) : Bool := decide (part <:+: s)

/-- What replaces `pat` behind the next `n` characters, which belong to the last occurrence. -/
def replaceFrom (pat rep : Text) : ℕ → Text → Text
  | _, [] => []
  | n + 1, _ :: s => replaceFrom pat rep n s
  | 0, c :: s =>
    if pat.isPrefixOf (c :: s) then rep ++ replaceFrom pat rep (pat.length - 1) s
    else c :: replaceFrom pat rep 0 s

/-- `str::replace`, for a pattern that is not empty. -/
def replaceAll (pat rep s : Text) : Text := replaceFrom pat rep 0 s

/-- What stands before and after the first `sep`. -/
def splitOnce (sep : Text) : Text → Option (Text × Text)
  | [] => if sep = [] then some ([], []) else none
  | c :: s =>
    match stripPrefix sep (c :: s) with
    | some r => some ([], r)
    | none => (splitOnce sep s).map fun r => (c :: r.1, r.2)

/-- The number that decimal digits stand for after `n`. -/
def digitsFrom (n : ℕ) : Text → Option ℕ
  | [] => some n
  | c :: s => if '0' ≤ c && c ≤ '9' then digitsFrom (10 * n + (c.toNat - 48)) s else none

/-- `str::parse::<u64>`. -/
def parseU64 (s : Text) : Option ℕ :=
  let digits := match s with
    | '+' :: r => r
    | _ => s
  if digits = [] then none
  else (digitsFrom 0 digits).bind fun n => if n < 2 ^ 64 then some n else none

/-- The value of a hexadecimal digit. -/
def hexDigit (c : Char) : Option ℕ :=
  if '0' ≤ c && c ≤ '9' then some (c.toNat - 48)
  else if 'a' ≤ c && c ≤ 'f' then some (c.toNat - 87)
  else if 'A' ≤ c && c ≤ 'F' then some (c.toNat - 55)
  else none

/-- The number that hexadecimal digits stand for after `n`. -/
def hexDigitsFrom (n : ℕ) (s : Text) : Option ℕ :=
  s.foldlM (fun n c => (hexDigit c).map (16 * n + ·)) n

/-- `u64::from_str_radix` with radix 16. -/
def parseHexU64 (s : Text) : Option ℕ :=
  let digits := match s with
    | '+' :: r => r
    | _ => s
  if digits = [] then none
  else (hexDigitsFrom 0 digits).bind fun n => if n < 2 ^ 64 then some n else none

def decimal (n : ℕ) : Text := Nat.toDigits 10 n

/-- The number of bytes of a text. -/
def utf8Len (s : Text) : ℕ := (s.map fun c => c.utf8Size).sum

/-- The end of a text that has at most `cap` bytes. -/
def lastBytes (cap : ℕ) : Text → Text
  | [] => []
  | c :: s => if utf8Len (c :: s) ≤ cap then c :: s else lastBytes cap s

/-! ## Lines and words -/

/-- The only white space is the blank. -/
def OnlyBlanks (s : Text) : Prop := ∀ c ∈ s, isWhitespace c = true → c = ' '

/-- A text without white space. -/
def IsWord (s : Text) : Prop := ∀ c ∈ s, isWhitespace c = false

instance (s : Text) : Decidable (OnlyBlanks s) :=
  List.decidableBAll (fun c => isWhitespace c = true → c = ' ') s

instance (s : Text) : Decidable (IsWord s) := List.decidableBAll (fun c => isWhitespace c = false) s

theorem OnlyBlanks.append {s t : Text} (hs : OnlyBlanks s) (ht : OnlyBlanks t) : OnlyBlanks (s ++ t) :=
  fun c hc => (List.mem_append.mp hc).elim (hs c) (ht c)

theorem IsWord.append {s t : Text} (hs : IsWord s) (ht : IsWord t) : IsWord (s ++ t) :=
  fun c hc => (List.mem_append.mp hc).elim (hs c) (ht c)

theorem IsWord.onlyBlanks {s : Text} (h : IsWord s) : OnlyBlanks s := by
  intro c hc hw
  rw [h c hc] at hw
  cases hw

theorem linesFrom_append {l : Text} (h : OnlyBlanks l) (s cur : Text) :
    linesFrom (l ++ s) cur = linesFrom s (l.reverse ++ cur) := by
  induction l generalizing cur with
  | nil => rfl
  | cons c l ih =>
    have hc : c ≠ '\n' := by
      rintro rfl
      exact absurd (h '\n' List.mem_cons_self rfl) (by decide)
    rw [List.cons_append, linesFrom, ih fun d hd => h d (List.mem_cons_of_mem c hd),
      List.reverse_cons, List.append_assoc]
    · rfl
    · exact hc

theorem stripCr_of {l : Text} (h : OnlyBlanks l) : stripCr l = l := by
  rw [stripCr, if_neg]
  intro hlast
  exact absurd (h '\r' (List.mem_of_getLast? hlast) rfl) (by decide)

/-- **Lines come back** from the text that they were joined to. -/
theorem lines_joinLines {ls : List Text} (h : ∀ l ∈ ls, l ≠ [] ∧ OnlyBlanks l) :
    lines (joinLines ls) = ls := by
  induction ls with
  | nil => rfl
  | cons l ls ih =>
    obtain ⟨⟨hne, hl⟩, hrest⟩ := List.forall_mem_cons.mp h
    cases ls with
    | nil =>
      have hjoin := linesFrom_append hl [] []
      rw [List.append_nil, List.append_nil] at hjoin
      rw [joinLines, lines, hjoin, linesFrom]
      · rw [List.reverse_reverse]
      · exact fun hnil => hne (List.reverse_eq_nil_iff.mp hnil)
    | cons l' ls =>
      rw [joinLines, lines, linesFrom_append hl, linesFrom, List.append_nil, List.reverse_reverse,
        stripCr_of hl]
      · exact congrArg (l :: ·) (ih hrest)
      · exact nofun

theorem wordsFrom_append {w : Text} (h : IsWord w) (s cur : Text) :
    wordsFrom (w ++ s) cur = wordsFrom s (w.reverse ++ cur) := by
  induction w generalizing cur with
  | nil => rfl
  | cons c w ih =>
    obtain ⟨hc, hw⟩ := List.forall_mem_cons.mp h
    rw [List.cons_append, wordsFrom, hc, if_neg Bool.false_ne_true, ih hw, List.reverse_cons,
      List.append_assoc]
    rfl

/-- A word before a blank. -/
theorem splitWhitespace_word {w : Text} (h : IsWord w) (hne : w ≠ []) (s : Text) :
    splitWhitespace (w ++ ' ' :: s) = w :: splitWhitespace s := by
  rw [splitWhitespace, wordsFrom_append h, List.append_nil, wordsFrom, if_pos (by rfl),
    if_neg (fun hnil => hne (List.reverse_eq_nil_iff.mp hnil)), List.reverse_reverse, splitWhitespace]

theorem splitWhitespace_last {w : Text} (h : IsWord w) (hne : w ≠ []) : splitWhitespace w = [w] := by
  have hall := wordsFrom_append h [] []
  rw [List.append_nil, List.append_nil] at hall
  rw [splitWhitespace, hall, wordsFrom, List.reverse_reverse]
  exact fun hnil => hne (List.reverse_eq_nil_iff.mp hnil)

/-- Words with a blank before each but the first. -/
theorem splitWhitespace_words {w : Text} {ws : List Text} (h : ∀ v ∈ w :: ws, v ≠ [] ∧ IsWord v) :
    splitWhitespace (w ++ ws.flatMap (' ' :: ·)) = w :: ws := by
  induction ws generalizing w with
  | nil =>
    obtain ⟨hne, hw⟩ := h w List.mem_cons_self
    rw [List.flatMap_nil, List.append_nil, splitWhitespace_last hw hne]
  | cons v ws ih =>
    obtain ⟨⟨hne, hw⟩, hrest⟩ := List.forall_mem_cons.mp h
    rw [List.flatMap_cons, List.cons_append, splitWhitespace_word hw hne, ih hrest]

theorem wordsFrom_blank {ws : Text} (h : ∀ c ∈ ws, isWhitespace c = true) (s cur : Text) :
    wordsFrom (s ++ ws) cur = wordsFrom s cur := by
  induction s generalizing cur with
  | nil =>
    rw [List.nil_append]
    induction ws generalizing cur with
    | nil => rfl
    | cons c ws ih =>
      obtain ⟨hc, hws⟩ := List.forall_mem_cons.mp h
      have hstep : wordsFrom (c :: ws) cur =
          if cur = [] then wordsFrom ws [] else cur.reverse :: wordsFrom ws [] := if_pos hc
      rw [hstep]
      cases cur with
      | nil =>
        rw [if_pos rfl, ih hws]
      | cons d cur =>
        rw [if_neg (List.cons_ne_nil d cur), ih hws]
        rfl
  | cons c s ih =>
    rw [List.cons_append, wordsFrom, wordsFrom, ih, ih]

theorem splitWhitespace_trimEnd (s : Text) : splitWhitespace (trimEnd s) = splitWhitespace s := by
  have hsplit : s = trimEnd s ++ (s.reverse.takeWhile isWhitespace).reverse := by
    rw [trimEnd, ← List.reverse_append, List.takeWhile_append_dropWhile, List.reverse_reverse]
  conv_rhs => rw [hsplit]
  refine (wordsFrom_blank (fun c hc => ?_) _ _).symm
  exact List.mem_takeWhile_imp (List.mem_reverse.mp hc)

theorem trim_cons {c : Char} (hc : isWhitespace c = false) (s : Text) :
    ∃ r, trim (c :: s) = c :: r ∧ splitWhitespace (c :: r) = splitWhitespace (c :: s) := by
  have hstart : trimStart (c :: s) = c :: s := by
    rw [trimStart, List.dropWhile_cons, hc]
    rfl
  have hend : ∃ r, trimEnd (c :: s) = c :: r := by
    rw [trimEnd, List.reverse_cons]
    cases hrest : (s.reverse.dropWhile isWhitespace) with
    | nil =>
      refine ⟨[], ?_⟩
      rw [List.dropWhile_append, hrest, List.isEmpty_nil, if_pos rfl, List.dropWhile_cons, hc]
      rfl
    | cons d l =>
      refine ⟨(d :: l).reverse, ?_⟩
      rw [List.dropWhile_append, hrest, List.isEmpty_cons, if_neg Bool.false_ne_true,
        List.reverse_append]
      rfl
  obtain ⟨r, hr⟩ := hend
  refine ⟨r, by rw [trim, hstart, hr], ?_⟩
  rw [← hr, splitWhitespace_trimEnd]

/-- A text begins as its prefix does. -/
theorem head?_of_isPrefixOf {c : Char} {p s : Text} (h : (c :: p).isPrefixOf s = true) :
    s.head? = some c := by
  obtain ⟨r, rfl⟩ := List.isPrefixOf_iff_prefix.mp h
  rfl

theorem stripPrefix_of_not {p s : Text} (h : p.isPrefixOf s = false) : stripPrefix p s = none := by
  rw [stripPrefix, h]
  rfl

/-! ## Replacement -/

/-- `pat` stands between parts without it, and `rep` takes its place. -/
def Replaced (pat rep s r : Text) : Prop :=
  ∃ parts : List Text, (∀ p ∈ parts, ¬pat <:+: p) ∧ s = pat.intercalate parts ∧ r = rep.intercalate parts

theorem replaceFrom_pass (pat rep : Text) (n : ℕ) (s : Text) :
    replaceFrom pat rep n s = replaceFrom pat rep 0 (s.drop n) := by
  induction n generalizing s with
  | zero => rfl
  | succ n ih =>
    cases s with
    | nil => rfl
    | cons c s => rw [replaceFrom, ih, List.drop_succ_cons]

/-- `str::replace` replaces every occurrence, from the left. -/
theorem replaced_replaceAll {pat : Text} (hpat : pat ≠ []) (rep s : Text) :
    Replaced pat rep s (replaceAll pat rep s) := by
  -- the first part may have to be extended, so there has to be one
  suffices h : ∃ p ps, (∀ q ∈ p :: ps, ¬pat <:+: q) ∧ s = pat.intercalate (p :: ps) ∧
      replaceFrom pat rep 0 s = rep.intercalate (p :: ps) by
    obtain ⟨p, ps, hparts, hs, hr⟩ := h
    exact ⟨p :: ps, hparts, hs, hr⟩
  induction hlen : s.length using Nat.strongRecOn generalizing s with
  | ind n ih =>
    cases s with
    | nil =>
      refine ⟨[], [], fun q hq => ?_, rfl, rfl⟩
      rw [List.mem_singleton.mp hq, List.infix_nil]
      exact hpat
    | cons c s =>
      by_cases hpre : pat.isPrefixOf (c :: s) = true
      · obtain ⟨t, ht⟩ := List.isPrefixOf_iff_prefix.mp hpre
        have hpos := List.length_pos_of_ne_nil hpat
        have hless : t.length < n := by
          rw [← hlen, ← ht, List.length_append]
          omega
        have hdrop : s.drop (pat.length - 1) = t := by
          have hcons : (c :: s).drop (pat.length - 1 + 1) = s.drop (pat.length - 1) := List.drop_succ_cons
          rw [← hcons, ← ht, Nat.sub_add_cancel hpos, List.drop_left]
        obtain ⟨p, ps, hparts, hs, hr⟩ := ih t.length hless t rfl
        refine ⟨[], p :: ps, List.forall_mem_cons.mpr ⟨?_, hparts⟩, ?_, ?_⟩
        · rwa [List.infix_nil]
        · rw [List.intercalate_cons_cons, ← hs, List.nil_append, ht]
        · rw [replaceFrom, if_pos hpre, replaceFrom_pass, hdrop, hr, List.intercalate_cons_cons,
            List.nil_append]
      · obtain ⟨p, ps, hparts, hs, hr⟩ := ih s.length (by rw [← hlen, List.length_cons]; omega) s rfl
        obtain ⟨hp, hps⟩ := List.forall_mem_cons.mp hparts
        refine ⟨c :: p, ps, List.forall_mem_cons.mpr ⟨fun hin => ?_, hps⟩, ?_, ?_⟩
        · -- an occurrence at the first character is one in the whole text
          obtain hfirst | hlater := List.infix_cons_iff.mp hin
          · refine hpre (List.isPrefixOf_iff_prefix.mpr (hfirst.trans ?_))
            rw [hs, ← List.intercalate_cons_cons_left]
            cases ps with
            | nil => rw [List.intercalate_singleton]
            | cons q ps => rw [List.intercalate_cons_cons, List.append_assoc]; exact List.prefix_append _ _
          · exact hp hlater
        · rw [List.intercalate_cons_cons_left, ← hs]
        · rw [replaceFrom, if_neg hpre, hr, List.intercalate_cons_cons_left]

/-! ## Hexadecimal numbers -/

theorem mem_toDigits {b n : ℕ} {c : Char} (hb : 1 < b) (h : c ∈ Nat.toDigits b n) :
    ∃ d < b, c = Nat.digitChar d := by
  induction n using Nat.strongRecOn with
  | ind n ih =>
    rw [Nat.toDigits_eq_if hb] at h
    split at h
    · exact ⟨n, ‹_›, List.mem_singleton.mp h⟩
    · rcases List.mem_append.mp h with h | h
      · exact ih (n / b) (Nat.div_lt_self (by omega) hb) h
      · exact ⟨n % b, Nat.mod_lt _ (by omega), List.mem_singleton.mp h⟩

theorem isWord_toDigits {b : ℕ} (hb : 1 < b) (hb' : b ≤ 16) (n : ℕ) : IsWord (Nat.toDigits b n) := by
  intro c hc
  obtain ⟨d, hd, rfl⟩ := mem_toDigits hb hc
  have hall : ∀ d : Fin 16, isWhitespace (Nat.digitChar d) = false := by decide
  exact hall ⟨d, by omega⟩

theorem hexDigitsFrom_toDigits (n : ℕ) : hexDigitsFrom 0 (Nat.toDigits 16 n) = some n := by
  have hdigit : ∀ d < 16, hexDigit (Nat.digitChar d) = some d := fun d hd => by
    have hall : ∀ d : Fin 16, hexDigit (Nat.digitChar d) = some d.1 := by decide
    exact hall ⟨d, hd⟩
  induction n using Nat.strongRecOn with
  | ind n ih =>
    rw [Nat.toDigits_eq_if (by decide)]
    split
    · simp [hexDigitsFrom, hdigit n ‹_›]
    · have hih := ih (n / 16) (by omega)
      rw [hexDigitsFrom] at hih ⊢
      rw [List.foldlM_append, hih]
      simp [hdigit (n % 16) (by omega)]
      omega

/-- Digits read back, behind a prefix `0x`. -/
theorem parseHexU64_toDigits {n : ℕ} (h : n < 2 ^ 64) : parseHexU64 (Nat.toDigits 16 n) = some n := by
  have hplus : '+' ∉ Nat.toDigits 16 n := fun hmem => by
    obtain ⟨d, hd, heq⟩ := mem_toDigits (by decide) hmem
    have hall : ∀ d : Fin 16, '+' ≠ Nat.digitChar d := by decide
    exact hall ⟨d, hd⟩ heq
  have hvalue := hexDigitsFrom_toDigits n
  have hne : Nat.toDigits 16 n ≠ [] := Nat.toDigits_ne_nil
  generalize Nat.toDigits 16 n = s at hplus hvalue hne ⊢
  unfold parseHexU64
  simp only []
  split
  · exact absurd List.mem_cons_self hplus
  · rw [if_neg hne, hvalue, Option.bind_some, if_pos h]

theorem trimStartMatches_toDigits (m n : ℕ) :
    trimStartMatches (text "0x") (m + 1) (text "0x" ++ Nat.toDigits 16 n) = Nat.toDigits 16 n := by
  have hx : 'x' ∉ Nat.toDigits 16 n := fun hmem => by
    obtain ⟨d, hd, heq⟩ := mem_toDigits (by decide) hmem
    have hall : ∀ d : Fin 16, 'x' ≠ Nat.digitChar d := by decide
    exact hall ⟨d, hd⟩ heq
  generalize Nat.toDigits 16 n = s at hx ⊢
  have hstrip : stripPrefix (text "0x") (text "0x" ++ s) = some s := rfl
  have hdone : stripPrefix (text "0x") s = none := by
    rw [stripPrefix, if_neg]
    intro hpre
    exact hx ((List.isPrefixOf_iff_prefix.mp hpre).subset (by decide))
  rw [trimStartMatches, hstrip]
  cases m with
  | zero => rfl
  | succ m =>
    simp only []
    rw [trimStartMatches, hdone]

end Text

/-! ## Readers -/

/-- A reader whose counter `m` goes up with each line that meets `q`. -/
theorem foldl_countP {α σ : Type*} {f : σ → α → σ} {m : σ → ℕ} {q : α → Bool}
    (h : ∀ s a, m (f s a) = m s + (q a).toNat) (l : List α) (s : σ) :
    m (l.foldl f s) = m s + l.countP q := by
  induction l generalizing s with
  | nil => rfl
  | cons a l ih =>
    rw [List.foldl_cons, ih, h, List.countP_cons]
    cases hq : q a
    · rfl
    · simp only [Bool.toNat_true, if_true]
      omega

end Fstest
