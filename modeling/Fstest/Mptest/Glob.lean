import Fstest.Mptest.Token
import Mathlib.Data.List.Infix
import Mathlib.Data.List.TakeWhile

/-!
# Glob patterns

`strglob` decides `--glob` and `--notglob`. `GlobMatches` is the language that a pattern stands for: a
plain byte, `?` for one byte, `*` for any bytes, a set in brackets, and `#` for a number.

Behind a run of `*` and `?` the source looks for the next byte of the pattern in the subject. It has no
branch for `#` there, so it looks for that byte itself, and its branch for `[` goes on behind the bracket
as if the set were plain bytes. `ReachesSpecial` says that a match can get to such a place; apart from
that `strglob` is right (`strglob_iff`).
-/

namespace Fstest.Mptest

abbrev numberSign : UInt8 := 35
abbrev questionMark : UInt8 := 63
abbrev leftBracket : UInt8 := 91
abbrev rightBracket : UInt8 := 93
abbrev caret : UInt8 := 94

def isSign (b : UInt8) : Bool := b == dash || b == 43

/-! ## The matcher -/

/-- The loop over a set: whether it has `ch`, and the pattern behind its bracket. A range adds the bytes
from `prior` on, which is 0 where no range can start. -/
def setLoop (ch : UInt8) : (prior : UInt8) → (seen : Bool) → Bytes → Option (Bool × Bytes)
  | _, _, [] => none
  | prior, seen, c :: g =>
    if c = 0 then none
    else if c = rightBracket then some (seen, g)
    else
      match g with
      | [] => none
      | y :: g' =>
        if c = dash ∧ y ≠ rightBracket ∧ prior > 0 then
          setLoop ch 0 (seen || (prior ≤ ch && ch ≤ y)) g'
        else setLoop ch c (seen || ch == c) (y :: g')

/-- The pattern behind a set, if `ch` is one of its bytes. -/
def matchSet (ch : UInt8) (g : Bytes) : Option Bytes :=
  let invert := decide (g.head? = some caret)
  let g := if invert then g.tail else g
  let lead := decide (g.head? = some rightBracket)
  let g := if lead then g.tail else g
  match setLoop ch 0 (lead && ch == rightBracket) g with
  | none => none
  | some (seen, rest) => if seen = invert then none else some rest

/-- The subject behind a digit and those that follow it. -/
def skipDigits : Bytes → Option Bytes
  | [] => none
  | d :: r => if isDigit d then some (r.dropWhile isDigit) else none

/-- The subject behind a number. -/
def skipNumber (z : Bytes) : Option Bytes :=
  match z with
  | c :: d :: r => if isSign c && isDigit d then skipDigits (d :: r) else skipDigits z
  | _ => skipDigits z

theorem setLoop_length {ch prior : UInt8} {seen b : Bool} {g rest : Bytes}
    (h : setLoop ch prior seen g = some (b, rest)) : rest.length < g.length := by
  fun_induction setLoop ch prior seen g <;> grind

theorem matchSet_length {ch : UInt8} {g rest : Bytes} (h : matchSet ch g = some rest) :
    rest.length ≤ g.length := by
  unfold matchSet at h
  simp only [] at h
  split at h
  · cases h
  · rename_i hloop
    have := setLoop_length hloop
    split at h
    · cases h
    · cases h
      grind

/-- `inner`, of which `behindStar` is the loop over the bytes `*` and `?` behind a `*`. -/
def inner (behindStar : Bool) (g z : Bytes) : Bool :=
  match g with
  | [] => behindStar || z.isEmpty
  | c :: g =>
    if c = 0 then behindStar || z.isEmpty
    else if c = star then inner true g z
    else if c = questionMark then
      match z with
      | [] => false
      | _ :: z => inner behindStar g z
    else if behindStar then
      if c = leftBracket then z.tails.any fun u => !u.isEmpty && !inner false g u
      else z.tails.any fun u => u.head? == some c && inner false g u.tail
    else if c = leftBracket then
      match z with
      | [] => false
      | ch :: z =>
        match _h : matchSet ch g with
        | none => false
        | some g' => inner false g' z
    else if c = numberSign then
      match skipNumber z with
      | none => false
      | some z => inner false g z
    else
      match z with
      | [] => false
      | ch :: z => ch == c && inner false g z
termination_by g.length
decreasing_by
  all_goals simp only [List.length_cons]
  all_goals first
    | exact Nat.lt_succ_of_le (matchSet_length ‹_›)
    | exact Nat.lt_succ_self _

section

variable {b : Bool} {c : UInt8} {g z : Bytes}

theorem inner_nil : inner b [] z = (b || z.isEmpty) := by rw [inner.eq_def]

theorem inner_star : inner b (star :: g) z = inner true g z := by
  rw [inner.eq_def]
  rfl

theorem inner_question_nil : inner b (questionMark :: g) [] = false := by
  rw [inner.eq_def]
  rfl

theorem inner_question : inner b (questionMark :: g) (c :: z) = inner b g z := by
  rw [inner.eq_def]
  rfl

theorem inner_star_set : inner true (leftBracket :: g) z =
    z.tails.any fun u => !u.isEmpty && !inner false g u := by
  rw [inner.eq_def]
  rfl

theorem inner_find (h0 : c ≠ 0) (h : c ≠ star ∧ c ≠ questionMark ∧ c ≠ leftBracket) :
    inner true (c :: g) z = z.tails.any fun u => u.head? == some c && inner false g u.tail := by
  rw [inner.eq_def]
  simp only [if_neg h0, if_neg h.1, if_neg h.2.1, if_neg h.2.2, if_true]

theorem inner_set_nil : inner false (leftBracket :: g) [] = false := by
  rw [inner.eq_def]
  rfl

theorem inner_set : inner false (leftBracket :: g) (c :: z) =
    (matchSet c g).any fun g' => inner false g' z := by
  rw [inner.eq_def]
  change (match _h : matchSet c g with
    | none => false
    | some g' => inner false g' z) = _
  split
  · rename_i hnone
    rw [hnone]
    rfl
  · rename_i g' hsome
    rw [hsome]
    rfl

theorem inner_number : inner false (numberSign :: g) z =
    (skipNumber z).any fun z => inner false g z := by
  rw [inner.eq_def]
  change (match skipNumber z with
    | none => false
    | some z => inner false g z) = _
  cases skipNumber z <;> rfl

theorem inner_plain_nil (h0 : c ≠ 0)
    (h : c ≠ star ∧ c ≠ questionMark ∧ c ≠ leftBracket ∧ c ≠ numberSign) :
    inner false (c :: g) [] = false := by
  rw [inner.eq_def]
  simp only [if_neg h0, if_neg h.1, if_neg h.2.1, if_neg h.2.2.1, if_neg h.2.2.2, Bool.false_eq_true,
    if_false]

theorem inner_plain (h0 : c ≠ 0)
    (h : c ≠ star ∧ c ≠ questionMark ∧ c ≠ leftBracket ∧ c ≠ numberSign) (ch : UInt8) :
    inner false (c :: g) (ch :: z) = (ch == c && inner false g z) := by
  rw [inner.eq_def]
  simp only [if_neg h0, if_neg h.1, if_neg h.2.1, if_neg h.2.2.1, if_neg h.2.2.2, Bool.false_eq_true,
    if_false]

end

def strglob (glob s : Bytes) : Bool := inner false glob s

/-! ## The language of a pattern -/

/-- A range follows: a dash that is not the last byte of its set. -/
def StartsRange (g : Bytes) : Prop := ∃ y g', g = dash :: y :: g' ∧ y ≠ rightBracket

/-- The items of a set up to its closing bracket, and the pattern behind it. -/
inductive SetItems : Bytes → List (UInt8 × UInt8) → Bytes → Prop
  | close (g : Bytes) : SetItems (rightBracket :: g) [] g
  | range {x y : UInt8} {g rest : Bytes} {rs : List (UInt8 × UInt8)} (hx : x ≠ rightBracket)
      (hy : y ≠ rightBracket) (h : SetItems g rs rest) : SetItems (x :: dash :: y :: g) ((x, y) :: rs) rest
  | single {x : UInt8} {g rest : Bytes} {rs : List (UInt8 × UInt8)} (hx : x ≠ rightBracket)
      (hg : ¬ StartsRange g) (h : SetItems g rs rest) : SetItems (x :: g) ((x, x) :: rs) rest

/-- A set without its negation. A bracket at its start is one of its bytes. -/
inductive SetBody : Bytes → List (UInt8 × UInt8) → Bytes → Prop
  | plain {g rest : Bytes} {rs : List (UInt8 × UInt8)} (hg : g.head? ≠ some rightBracket)
      (h : SetItems g rs rest) : SetBody g rs rest
  | lead {g rest : Bytes} {rs : List (UInt8 × UInt8)} (h : SetItems g rs rest) :
      SetBody (rightBracket :: g) ((rightBracket, rightBracket) :: rs) rest

/-- The range from `x` to `y` has `x`, and the bytes between the two. -/
def inRanges (rs : List (UInt8 × UInt8)) (ch : UInt8) : Bool :=
  rs.any fun r => ch == r.1 || (r.1 ≤ ch && ch ≤ r.2)

/-- The set at the start of `g` has the byte `ch`, and `rest` is the pattern behind it. -/
inductive SetMatches (ch : UInt8) : Bytes → Bytes → Prop
  | inside {g rest : Bytes} {rs : List (UInt8 × UInt8)} (hg : g.head? ≠ some caret)
      (h : SetBody g rs rest) (hin : inRanges rs ch = true) : SetMatches ch g rest
  | outside {g rest : Bytes} {rs : List (UInt8 × UInt8)} (h : SetBody g rs rest)
      (hout : inRanges rs ch = false) : SetMatches ch (caret :: g) rest

structure IsNumber (t : Bytes) : Prop where
  digits : ∃ sgn ds, t = sgn ++ ds ∧ (sgn = [] ∨ ∃ c, sgn = [c] ∧ isSign c = true) ∧ ds ≠ [] ∧
    ∀ d ∈ ds, isDigit d = true

/-- The bytes that stand for themselves. -/
structure IsOrdinary (c : UInt8) : Prop where
  star : c ≠ star
  question : c ≠ questionMark
  bracket : c ≠ leftBracket
  number : c ≠ numberSign

inductive GlobMatches : Bytes → Bytes → Prop
  | nil : GlobMatches [] []
  | plain {c : UInt8} {g s : Bytes} (hc : IsOrdinary c) (h : GlobMatches g s) :
      GlobMatches (c :: g) (c :: s)
  | question {c : UInt8} {g s : Bytes} (h : GlobMatches g s) : GlobMatches (questionMark :: g) (c :: s)
  | star {g s : Bytes} (t : Bytes) (h : GlobMatches g s) : GlobMatches (star :: g) (t ++ s)
  | set {c : UInt8} {g rest s : Bytes} (hset : SetMatches c g rest) (h : GlobMatches rest s) :
      GlobMatches (leftBracket :: g) (c :: s)
  | number {t g s : Bytes} (ht : IsNumber t) (hs : s.head?.all (!isDigit ·)) (h : GlobMatches g s) :
      GlobMatches (numberSign :: g) (t ++ s)

section

variable {c : UInt8} {g s : Bytes}

theorem globMatches_nil : GlobMatches [] s ↔ s = [] := by
  constructor
  · intro h
    cases h
    rfl
  · rintro rfl
    exact .nil

/-- The ways in which a pattern that begins with `c` can match. -/
theorem globMatches_cons : GlobMatches (c :: g) s ↔
    (IsOrdinary c ∧ ∃ s', s = c :: s' ∧ GlobMatches g s') ∨
    (c = questionMark ∧ ∃ d s', s = d :: s' ∧ GlobMatches g s') ∨
    (c = star ∧ ∃ u, u <:+ s ∧ GlobMatches g u) ∨
    (c = leftBracket ∧ ∃ d s' rest, s = d :: s' ∧ SetMatches d g rest ∧ GlobMatches rest s') ∨
    (c = numberSign ∧ ∃ t u, s = t ++ u ∧ IsNumber t ∧ u.head?.all (!isDigit ·) ∧ GlobMatches g u) := by
  constructor
  · intro h
    cases h with
    | plain hc h => exact .inl ⟨hc, _, rfl, h⟩
    | question h => exact .inr (.inl ⟨rfl, _, _, rfl, h⟩)
    | star t h => exact .inr (.inr (.inl ⟨rfl, _, ⟨t, rfl⟩, h⟩))
    | set hset h => exact .inr (.inr (.inr (.inl ⟨rfl, _, _, _, rfl, hset, h⟩)))
    | number ht hs h => exact .inr (.inr (.inr (.inr ⟨rfl, _, _, rfl, ht, hs, h⟩)))
  · rintro (⟨hc, s', rfl, h⟩ | ⟨rfl, d, s', rfl, h⟩ | ⟨rfl, u, ⟨t, rfl⟩, h⟩ |
      ⟨rfl, d, s', rest, rfl, hset, h⟩ | ⟨rfl, t, u, rfl, ht, hu, h⟩)
    · exact .plain hc h
    · exact .question h
    · exact .star t h
    · exact .set hset h
    · exact .number ht hu h

end

/-! ## Sets -/

section

variable {ch x c : UInt8} {seen b : Bool} {g rest : Bytes} {rs : List (UInt8 × UInt8)}

theorem inRanges_cons (r : UInt8 × UInt8) :
    inRanges (r :: rs) ch = ((ch == r.1 || (r.1 ≤ ch && ch ≤ r.2)) || inRanges rs ch) := rfl

theorem inRanges_single : inRanges ((x, x) :: rs) ch = (ch == x || inRanges rs ch) := by
  have hone : (decide (x ≤ ch) && decide (ch ≤ x)) = true → (ch == x) = true := fun h => by
    rw [Bool.and_eq_true, decide_eq_true_eq, decide_eq_true_eq] at h
    exact beq_iff_eq.mpr (UInt8.le_antisymm h.2 h.1)
  rw [inRanges_cons]
  cases hle : (decide (x ≤ ch) && decide (ch ≤ x))
  · rw [Bool.or_false]
  · rw [hone hle, Bool.true_or]

/-- A byte that is no part of a range behind `prior`. -/
theorem setLoop_single {prior : UInt8} (h0 : c ≠ 0) (hc : c ≠ rightBracket)
    (hr : prior = 0 ∨ ¬ StartsRange (c :: g)) :
    setLoop ch prior seen (c :: g) = setLoop ch c (seen || ch == c) g := by
  cases g with
  | nil => simp only [setLoop, if_neg h0, if_neg hc]
  | cons y g =>
    rw [setLoop, if_neg h0, if_neg hc, if_neg]
    rintro ⟨rfl, hy, hp⟩
    rcases hr with rfl | hr
    · exact absurd hp (by decide)
    · exact hr ⟨y, g, rfl, hy⟩

theorem setLoop_close {prior : UInt8} :
    setLoop ch prior seen (rightBracket :: g) = some (seen, g) := by
  rw [setLoop.eq_def]
  rfl

/-- Where no range follows, it does not matter which byte came before. -/
theorem setLoop_prior {prior : UInt8} (hg : ¬ StartsRange g) :
    setLoop ch prior seen g = setLoop ch 0 seen g := by
  cases g with
  | nil => rfl
  | cons c g =>
    by_cases h0 : c = 0
    · rw [setLoop.eq_def, setLoop.eq_def ch 0]
      simp only [if_pos h0]
    by_cases hc : c = rightBracket
    · rw [hc, setLoop_close, setLoop_close]
    · rw [setLoop_single h0 hc (.inr hg), setLoop_single h0 hc (.inl rfl)]

theorem setItems_close : SetItems (rightBracket :: g) rs rest ↔ rs = [] ∧ rest = g := by
  constructor
  · intro h
    cases h with
    | close => exact ⟨rfl, rfl⟩
    | range hx hy h => exact absurd rfl hx
    | single hx hg h => exact absurd rfl hx
  · rintro ⟨rfl, rfl⟩
    exact .close rest

theorem setItems_range {y : UInt8} (hx : x ≠ rightBracket) (hy : y ≠ rightBracket) :
    SetItems (x :: dash :: y :: g) rs rest ↔ ∃ rs', rs = (x, y) :: rs' ∧ SetItems g rs' rest := by
  constructor
  · intro h
    cases h with
    | close => exact absurd rfl hx
    | range _ _ h => exact ⟨_, rfl, h⟩
    | single _ hg _ => exact absurd ⟨y, g, rfl, hy⟩ hg
  · rintro ⟨rs', rfl, h⟩
    exact .range hx hy h

theorem setItems_single (hx : x ≠ rightBracket) (hg : ¬ StartsRange g) :
    SetItems (x :: g) rs rest ↔ ∃ rs', rs = (x, x) :: rs' ∧ SetItems g rs' rest := by
  constructor
  · intro h
    cases h with
    | close => exact absurd rfl hx
    | range _ hy h => exact absurd ⟨_, _, rfl, hy⟩ hg
    | single _ _ h => exact ⟨_, rfl, h⟩
  · rintro ⟨rs', rfl, h⟩
    exact .single hx hg h

/-- The loop finds the items of the set. -/
theorem setLoop_iff (h0 : 0 ∉ g) : setLoop ch 0 seen g = some (b, rest) ↔
    ∃ rs, SetItems g rs rest ∧ b = (seen || inRanges rs ch) := by
  induction hn : g.length using Nat.strongRecOn generalizing g seen with
  | ind n ih =>
    cases g with
    | nil =>
      rw [setLoop]
      exact iff_of_false nofun nofun
    | cons x g =>
      have hx0 : x ≠ 0 := fun h => h0 (h ▸ List.mem_cons_self)
      replace h0 : 0 ∉ g := fun h => h0 (List.mem_cons_of_mem x h)
      rw [List.length_cons] at hn
      by_cases hx : x = rightBracket
      · subst hx
        rw [setLoop_close, Option.some.injEq, Prod.mk.injEq]
        constructor
        · rintro ⟨rfl, rfl⟩
          exact ⟨[], .close _, (Bool.or_false _).symm⟩
        · rintro ⟨rs, h, rfl⟩
          obtain ⟨rfl, rfl⟩ := setItems_close.mp h
          exact ⟨(Bool.or_false _).symm, rfl⟩
      rw [setLoop_single hx0 hx (.inl rfl)]
      by_cases hg : StartsRange g
      · obtain ⟨y, g, rfl, hy⟩ := hg
        have hstep : setLoop ch x (seen || ch == x) (dash :: y :: g) =
            setLoop ch 0 ((seen || ch == x) || (x ≤ ch && ch ≤ y)) g := by
          rw [setLoop, if_neg (by decide), if_neg (by decide), if_pos ⟨rfl, hy, UInt8.pos_iff_ne_zero.mpr hx0⟩]
        simp only [List.length_cons] at hn
        rw [hstep, ih g.length (by omega) (fun h => h0 (by simp [h])) rfl]
        constructor
        · rintro ⟨rs, h, rfl⟩
          exact ⟨_, .range hx hy h, by simp only [inRanges_cons, Bool.or_assoc]⟩
        · rintro ⟨rs, h, rfl⟩
          obtain ⟨rs', rfl, h'⟩ := (setItems_range hx hy).mp h
          exact ⟨rs', h', by simp only [inRanges_cons, Bool.or_assoc]⟩
      · rw [setLoop_prior hg, ih g.length (by omega) h0 rfl]
        constructor
        · rintro ⟨rs, h, rfl⟩
          exact ⟨_, .single hx hg h, by rw [inRanges_single, Bool.or_assoc]⟩
        · rintro ⟨rs, h, rfl⟩
          obtain ⟨rs', rfl, h'⟩ := (setItems_single hx hg).mp h
          exact ⟨rs', h', by rw [inRanges_single, Bool.or_assoc]⟩

theorem setBody_iff (h0 : 0 ∉ g) :
    setLoop ch 0 (decide (g.head? = some rightBracket) && ch == rightBracket)
      (if decide (g.head? = some rightBracket) = true then g.tail else g) = some (b, rest) ↔
      ∃ rs, SetBody g rs rest ∧ b = inRanges rs ch := by
  by_cases hlead : g.head? = some rightBracket
  · obtain ⟨g, rfl⟩ := List.head?_eq_some_iff.mp hlead
    rw [decide_eq_true hlead, if_pos rfl, Bool.true_and, List.tail_cons,
      setLoop_iff fun h => h0 (List.mem_cons_of_mem _ h)]
    constructor
    · rintro ⟨rs, h, rfl⟩
      exact ⟨_, .lead h, inRanges_single.symm⟩
    · rintro ⟨rs, h, rfl⟩
      cases h with
      | plain hg _ => exact absurd rfl hg
      | lead h => exact ⟨_, h, inRanges_single⟩
  · rw [decide_eq_false hlead, if_neg Bool.false_ne_true, Bool.false_and, setLoop_iff h0]
    constructor
    · rintro ⟨rs, h, rfl⟩
      exact ⟨rs, .plain hlead h, Bool.false_or _⟩
    · rintro ⟨rs, h, rfl⟩
      cases h with
      | plain _ h => exact ⟨rs, h, (Bool.false_or _).symm⟩
      | lead _ => exact absurd rfl hlead

/-- The source finds the sets that have the byte. -/
theorem matchSet_iff (h0 : 0 ∉ g) : matchSet ch g = some rest ↔ SetMatches ch g rest := by
  have hbody : ∀ invert g, 0 ∉ g → ((match setLoop ch 0
      (decide (g.head? = some rightBracket) && ch == rightBracket)
      (if decide (g.head? = some rightBracket) = true then g.tail else g) with
      | none => none
      | some (seen, rest) => if seen = invert then none else some rest) = some rest ↔
        ∃ rs, SetBody g rs rest ∧ inRanges rs ch = !invert) := by
    intro invert g h0
    have hiff : ∀ b, setLoop ch 0 (decide (g.head? = some rightBracket) && ch == rightBracket)
        (if decide (g.head? = some rightBracket) = true then g.tail else g) = some (b, rest) ↔
          ∃ rs, SetBody g rs rest ∧ b = inRanges rs ch := fun b => setBody_iff h0
    generalize setLoop ch 0 (decide (g.head? = some rightBracket) && ch == rightBracket)
      (if decide (g.head? = some rightBracket) = true then g.tail else g) = r at hiff ⊢
    constructor
    · intro h
      split at h
      · cases h
      · split at h
        · cases h
        · cases h
          rename_i hne
          obtain ⟨rs, hrs, rfl⟩ := (hiff _).mp rfl
          exact ⟨rs, hrs, Bool.eq_not.mpr hne⟩
    · rintro ⟨rs, hrs, hin⟩
      rw [(hiff (!invert)).mpr ⟨rs, hrs, hin.symm⟩]
      exact if_neg (by cases invert <;> decide)
  unfold matchSet
  simp only []
  by_cases hc : g.head? = some caret
  · obtain ⟨g, rfl⟩ := List.head?_eq_some_iff.mp hc
    rw [decide_eq_true hc, if_pos rfl, List.tail_cons, hbody true g fun h => h0 (List.mem_cons_of_mem _ h)]
    constructor
    · rintro ⟨rs, hrs, hin⟩
      exact .outside hrs hin
    · intro h
      cases h with
      | inside hg _ _ => exact absurd rfl hg
      | outside h hout => exact ⟨_, h, hout⟩
  · rw [decide_eq_false hc, if_neg Bool.false_ne_true, hbody false g h0]
    constructor
    · rintro ⟨rs, hrs, hin⟩
      exact .inside hc hrs hin
    · intro h
      cases h with
      | inside _ h hin => exact ⟨_, h, hin⟩
      | outside _ _ => exact absurd rfl hc

end

theorem SetItems.subset {g rest : Bytes} {rs : List (UInt8 × UInt8)} (h : SetItems g rs rest) :
    rest ⊆ g := by
  induction h with
  | close g => exact List.subset_cons_self _ g
  | range _ _ _ ih => exact fun d hd => .tail _ (.tail _ (.tail _ (ih hd)))
  | single _ _ _ ih => exact fun d hd => .tail _ (ih hd)

theorem SetMatches.subset {ch : UInt8} {g rest : Bytes} (h : SetMatches ch g rest) : rest ⊆ g := by
  have hbody : ∀ {g rs}, SetBody g rs rest → rest ⊆ g := fun h => by
    cases h with
    | plain _ h => exact h.subset
    | lead h => exact fun d hd => .tail _ (h.subset hd)
  cases h with
  | inside _ h _ => exact hbody h
  | outside h _ => exact fun d hd => .tail _ (hbody h hd)

/-! ## Numbers -/

theorem skipDigits_iff {z r : Bytes} : skipDigits z = some r ↔
    ∃ ds, z = ds ++ r ∧ ds ≠ [] ∧ (∀ d ∈ ds, isDigit d = true) ∧ r.head?.all (!isDigit ·) = true := by
  constructor
  · intro h
    cases z with
    | nil => cases h
    | cons d l =>
      rw [skipDigits] at h
      split at h
      · rename_i hd
        cases h
        refine ⟨d :: l.takeWhile isDigit, ?_, List.cons_ne_nil _ _, ?_, ?_⟩
        · rw [List.cons_append, List.takeWhile_append_dropWhile]
        · exact List.forall_mem_cons.mpr ⟨hd, fun _ => List.mem_takeWhile_imp⟩
        · have hhead := List.head?_dropWhile_not isDigit l
          cases hcase : (l.dropWhile isDigit).head? with
          | none => rfl
          | some x =>
            rw [hcase] at hhead
            simpa using hhead
      · cases h
  · rintro ⟨ds, rfl, hne, hds, hr⟩
    obtain ⟨d, ds, rfl⟩ := List.exists_cons_of_ne_nil hne
    obtain ⟨hd, hds⟩ := List.forall_mem_cons.mp hds
    have hrest : (ds ++ r).dropWhile isDigit = r := by
      rw [List.dropWhile_append_of_pos hds]
      cases r with
      | nil => rfl
      | cons x r =>
        rw [List.dropWhile_cons_of_neg]
        simpa using hr
    rw [List.cons_append, skipDigits, if_pos hd, hrest]

theorem not_isDigit_of_isSign {c : UInt8} (h : isSign c = true) : isDigit c = false := by
  rcases Bool.or_eq_true_iff.mp h with h | h <;> rw [beq_iff_eq.mp h] <;> decide

theorem skipNumber_sign {c d : UInt8} {r : Bytes} (hc : isSign c = true) (hd : isDigit d = true) :
    skipNumber (c :: d :: r) = skipDigits (d :: r) := by
  rw [skipNumber, hc, hd]
  rfl

theorem skipNumber_plain {z : Bytes} (h : ∀ c d r, z = c :: d :: r → isSign c = true → isDigit d = false) :
    skipNumber z = skipDigits z := by
  unfold skipNumber
  split
  · rename_i c d r
    refine if_neg fun hboth => ?_
    rw [Bool.and_eq_true] at hboth
    rw [h c d r rfl hboth.1] at hboth
    exact absurd hboth.2 Bool.false_ne_true
  · rfl

theorem skipNumber_iff {z r : Bytes} : skipNumber z = some r ↔
    ∃ t, z = t ++ r ∧ IsNumber t ∧ r.head?.all (!isDigit ·) = true := by
  by_cases hsign : ∃ c d l, z = c :: d :: l ∧ isSign c = true ∧ isDigit d = true
  · obtain ⟨c, d, l, rfl, hc, hd⟩ := hsign
    rw [skipNumber_sign hc hd, skipDigits_iff]
    constructor
    · rintro ⟨ds, heq, hne, hds, hr⟩
      exact ⟨c :: ds, by rw [heq]; rfl, ⟨[c], ds, rfl, .inr ⟨c, rfl, hc⟩, hne, hds⟩, hr⟩
    · rintro ⟨t, heq, ⟨sgn, ds, rfl, hsgn, hne, hds⟩, hr⟩
      refine ⟨ds, ?_, hne, hds, hr⟩
      rcases hsgn with rfl | ⟨c', rfl, -⟩
      · -- The sign would be a digit.
        obtain ⟨e, ds, rfl⟩ := List.exists_cons_of_ne_nil hne
        obtain rfl : c = e := (List.cons.inj heq).1
        have hdigit := hds c List.mem_cons_self
        rw [not_isDigit_of_isSign hc] at hdigit
        cases hdigit
      · exact (List.cons.inj heq).2
  · rw [skipNumber_plain fun c d l heq hc => by
      by_contra hd
      exact hsign ⟨c, d, l, heq, hc, by simpa using hd⟩, skipDigits_iff]
    constructor
    · rintro ⟨ds, heq, hne, hds, hr⟩
      exact ⟨ds, heq, ⟨[], ds, rfl, .inl rfl, hne, hds⟩, hr⟩
    · rintro ⟨t, rfl, ⟨sgn, ds, rfl, hsgn, hne, hds⟩, hr⟩
      rcases hsgn with rfl | ⟨c, rfl, hc⟩
      · exact ⟨ds, rfl, hne, hds, hr⟩
      · obtain ⟨d, ds, rfl⟩ := List.exists_cons_of_ne_nil hne
        exact absurd ⟨c, d, ds ++ r, rfl, hc, hds d List.mem_cons_self⟩ hsign

/-! ## The places that the source has no branch for -/

/-- A match of the start of `s` gets to a run of `*` and `?` that ends before `[` or `#`, with something
left that the source can take for the set or the number. `behindStar` is a match that is in such a run
already. -/
inductive ReachesSpecial : (behindStar : Bool) → Bytes → Bytes → Prop
  | set {g s : Bytes} (hs : s ≠ []) : ReachesSpecial true (leftBracket :: g) s
  | number {g s : Bytes} (hs : ∃ c ∈ s, isDigit c = true ∨ c = numberSign) :
      ReachesSpecial true (numberSign :: g) s
  | star {b : Bool} {g s : Bytes} (h : ReachesSpecial true g s) : ReachesSpecial b (star :: g) s
  | question {b : Bool} {c : UInt8} {g s : Bytes} (h : ReachesSpecial b g s) :
      ReachesSpecial b (questionMark :: g) (c :: s)
  | find {c : UInt8} {g s : Bytes} (t : Bytes) (hc : IsOrdinary c) (h : ReachesSpecial false g s) :
      ReachesSpecial true (c :: g) (t ++ c :: s)
  | plain {c : UInt8} {g s : Bytes} (hc : IsOrdinary c) (h : ReachesSpecial false g s) :
      ReachesSpecial false (c :: g) (c :: s)
  | inSet {c : UInt8} {g rest s : Bytes} (hset : SetMatches c g rest) (h : ReachesSpecial false rest s) :
      ReachesSpecial false (leftBracket :: g) (c :: s)
  | inNumber {t g s : Bytes} (ht : IsNumber t) (hs : s.head?.all (!isDigit ·))
      (h : ReachesSpecial false g s) : ReachesSpecial false (numberSign :: g) (t ++ s)

/-- What the rest of a pattern has to match: the subject, or behind a `*` one of its ends. -/
def MatchesFrom (behindStar : Bool) (g s : Bytes) : Prop :=
  ∃ u, u <:+ s ∧ (behindStar = false → u = s) ∧ GlobMatches g u

theorem matchesFrom_false {g s : Bytes} : MatchesFrom false g s ↔ GlobMatches g s := by
  constructor
  · rintro ⟨u, -, hu, h⟩
    rwa [← hu rfl]
  · exact fun h => ⟨s, List.suffix_refl s, fun _ => rfl, h⟩

theorem matchesFrom_true {g s : Bytes} : MatchesFrom true g s ↔ ∃ u, u <:+ s ∧ GlobMatches g u := by
  constructor
  · rintro ⟨u, hs, -, h⟩
    exact ⟨u, hs, h⟩
  · rintro ⟨u, hs, h⟩
    exact ⟨u, hs, nofun, h⟩

section

variable {b : Bool} {c : UInt8} {g s : Bytes}

theorem matchesFrom_star : MatchesFrom b (star :: g) s ↔ MatchesFrom true g s := by
  rw [matchesFrom_true]
  constructor
  · rintro ⟨u, hs, -, h⟩
    rcases globMatches_cons.mp h with ⟨hc, -⟩ | ⟨hc, -⟩ | ⟨-, v, hv, h⟩ | ⟨hc, -⟩ | ⟨hc, -⟩
    · exact absurd rfl hc.star
    · exact absurd hc (by decide)
    · exact ⟨v, hv.trans hs, h⟩
    · exact absurd hc (by decide)
    · exact absurd hc (by decide)
  · rintro ⟨u, ⟨t, rfl⟩, h⟩
    exact ⟨t ++ u, List.suffix_refl _, fun _ => rfl, .star t h⟩

theorem globMatches_question : GlobMatches (questionMark :: g) s ↔
    ∃ d s', s = d :: s' ∧ GlobMatches g s' := by
  rw [globMatches_cons]
  constructor
  · rintro (⟨hc, -⟩ | ⟨-, h⟩ | ⟨hc, -⟩ | ⟨hc, -⟩ | ⟨hc, -⟩)
    · exact absurd rfl hc.question
    · exact h
    · exact absurd hc (by decide)
    · exact absurd hc (by decide)
    · exact absurd hc (by decide)
  · exact fun h => .inr (.inl ⟨rfl, h⟩)

theorem matchesFrom_question : MatchesFrom b (questionMark :: g) s ↔
    ∃ d s', s = d :: s' ∧ MatchesFrom b g s' := by
  constructor
  · rintro ⟨u, hs, hu, h⟩
    obtain ⟨d, v, rfl, hv⟩ := globMatches_question.mp h
    cases s with
    | nil => cases List.suffix_nil.mp hs
    | cons e s =>
      refine ⟨e, s, rfl, v, ?_, fun hb => (List.cons.inj (hu hb)).2, hv⟩
      rcases List.suffix_cons_iff.mp hs with heq | hs
      · rw [(List.cons.inj heq).2]
      · exact (List.suffix_cons d v).trans hs
  · rintro ⟨d, s', rfl, v, ⟨t, rfl⟩, hv, h⟩
    -- The byte before `v` is the last of `t`, or `d`.
    rcases List.eq_nil_or_concat t with rfl | ⟨t', e, rfl⟩
    · exact ⟨d :: v, List.suffix_refl _, fun _ => rfl, .question h⟩
    · refine ⟨e :: v, ⟨d :: t', by simp⟩, fun hb => ?_, .question h⟩
      have hlen := congrArg List.length (hv hb)
      simp only [List.concat_eq_append, List.length_append, List.length_singleton] at hlen
      omega

theorem globMatches_plain (hc : IsOrdinary c) : GlobMatches (c :: g) s ↔
    ∃ s', s = c :: s' ∧ GlobMatches g s' := by
  rw [globMatches_cons]
  constructor
  · rintro (⟨-, h⟩ | ⟨h, -⟩ | ⟨h, -⟩ | ⟨h, -⟩ | ⟨h, -⟩)
    · exact h
    · exact absurd h hc.question
    · exact absurd h hc.star
    · exact absurd h hc.bracket
    · exact absurd h hc.number
  · exact fun h => .inl ⟨hc, h⟩

theorem globMatches_set : GlobMatches (leftBracket :: g) s ↔
    ∃ d s' rest, s = d :: s' ∧ SetMatches d g rest ∧ GlobMatches rest s' := by
  rw [globMatches_cons]
  constructor
  · rintro (⟨hc, -⟩ | ⟨hc, -⟩ | ⟨hc, -⟩ | ⟨-, h⟩ | ⟨hc, -⟩)
    · exact absurd rfl hc.bracket
    · exact absurd hc (by decide)
    · exact absurd hc (by decide)
    · exact h
    · exact absurd hc (by decide)
  · exact fun h => .inr (.inr (.inr (.inl ⟨rfl, h⟩)))

theorem globMatches_number : GlobMatches (numberSign :: g) s ↔
    ∃ t u, s = t ++ u ∧ IsNumber t ∧ u.head?.all (!isDigit ·) ∧ GlobMatches g u := by
  rw [globMatches_cons]
  constructor
  · rintro (⟨hc, -⟩ | ⟨hc, -⟩ | ⟨hc, -⟩ | ⟨hc, -⟩ | ⟨-, h⟩)
    · exact absurd rfl hc.number
    · exact absurd hc (by decide)
    · exact absurd hc (by decide)
    · exact absurd hc (by decide)
    · exact h
  · exact fun h => .inr (.inr (.inr (.inr ⟨rfl, h⟩)))

/-- Behind a `*` a plain byte is found at any place. -/
theorem matchesFrom_find (hc : IsOrdinary c) : MatchesFrom true (c :: g) s ↔
    ∃ t u, s = t ++ c :: u ∧ GlobMatches g u := by
  rw [matchesFrom_true]
  constructor
  · rintro ⟨v, ⟨t, rfl⟩, h⟩
    obtain ⟨u, rfl, hu⟩ := (globMatches_plain hc).mp h
    exact ⟨t, u, rfl, hu⟩
  · rintro ⟨t, u, rfl, hu⟩
    exact ⟨c :: u, ⟨t, rfl⟩, .plain hc hu⟩

/-- A number has a digit. -/
theorem IsNumber.digit {t : Bytes} (h : IsNumber t) : ∃ d ∈ t, isDigit d = true := by
  obtain ⟨sgn, ds, rfl, -, hne, hds⟩ := h
  obtain ⟨d, ds, rfl⟩ := List.exists_cons_of_ne_nil hne
  exact ⟨d, List.mem_append_right _ List.mem_cons_self, hds d List.mem_cons_self⟩

theorem any_tails_find {f : Bytes → Bool} :
    (s.tails.any fun u => u.head? == some c && f u.tail) = true ↔ ∃ t u, s = t ++ c :: u ∧ f u = true := by
  rw [List.any_eq_true]
  constructor
  · rintro ⟨v, hv, h⟩
    obtain ⟨t, rfl⟩ := (List.mem_tails _ _).mp hv
    rw [Bool.and_eq_true, beq_iff_eq] at h
    obtain ⟨u, rfl⟩ := List.head?_eq_some_iff.mp h.1
    exact ⟨t, u, rfl, h.2⟩
  · rintro ⟨t, u, rfl, h⟩
    exact ⟨c :: u, (List.mem_tails _ _).mpr ⟨t, rfl⟩, by simp [h]⟩

/-- `inner` is right for all patterns of at most `n` bytes, where no match gets to one of those places. -/
def RightUpTo (n : ℕ) : Prop :=
  ∀ (b : Bool) (g s : Bytes), g.length ≤ n → 0 ∉ g → ¬ ReachesSpecial b g s →
    (inner b g s = true ↔ MatchesFrom b g s)

/-- At the end of a `*` only the empty subject is left for a set, and the source finds nothing in it. -/
theorem inner_set_behind_star (hr : ¬ ReachesSpecial true (leftBracket :: g) s) :
    inner true (leftBracket :: g) s = true ↔ MatchesFrom true (leftBracket :: g) s := by
  obtain rfl : s = [] := by
    by_contra hs
    exact hr (.set hs)
  rw [inner_star_set, matchesFrom_true]
  refine iff_of_false (by simp) ?_
  rintro ⟨u, hu, h⟩
  obtain rfl := List.suffix_nil.mp hu
  obtain ⟨_, _, _, heq, -⟩ := globMatches_set.mp h
  cases heq

/-- Behind a `*` there is neither the byte `#` that the source looks for nor a number. -/
theorem inner_number_behind_star (hr : ¬ ReachesSpecial true (numberSign :: g) s) :
    inner true (numberSign :: g) s = true ↔ MatchesFrom true (numberSign :: g) s := by
  rw [inner_find (by decide) (by decide), any_tails_find, matchesFrom_true]
  refine iff_of_false ?_ ?_
  · rintro ⟨t, u, rfl, -⟩
    exact hr (.number ⟨numberSign, by simp, .inr rfl⟩)
  · rintro ⟨v, ⟨t', rfl⟩, h⟩
    obtain ⟨t, u, rfl, ht, -, -⟩ := globMatches_number.mp h
    obtain ⟨d, hd, hdigit⟩ := ht.digit
    exact hr (.number ⟨d, by simp [hd], .inl hdigit⟩)

namespace RightUpTo

variable (ih : RightUpTo g.length) (h0 : 0 ∉ g)

include ih

/-- A pattern behind which the subject has to end with what `inner` is given. -/
theorem whole {g' : Bytes} (hlen : g'.length ≤ g.length) (h0 : 0 ∉ g') (hr : ¬ ReachesSpecial false g' s) :
    inner false g' s = true ↔ GlobMatches g' s :=
  (ih false g' s hlen h0 hr).trans matchesFrom_false

include h0

theorem star (hr : ¬ ReachesSpecial b (Mptest.star :: g) s) :
    inner b (Mptest.star :: g) s = true ↔ MatchesFrom b (Mptest.star :: g) s := by
  rw [inner_star, matchesFrom_star]
  exact ih _ _ _ (Nat.le_refl _) h0 fun h => hr (.star h)

theorem question (hr : ¬ ReachesSpecial b (questionMark :: g) s) :
    inner b (questionMark :: g) s = true ↔ MatchesFrom b (questionMark :: g) s := by
  rw [matchesFrom_question]
  cases s with
  | nil =>
    rw [inner_question_nil]
    exact iff_of_false nofun nofun
  | cons d s =>
    rw [inner_question, ih _ _ _ (Nat.le_refl _) h0 fun h => hr (.question h)]
    exact ⟨fun h => ⟨d, s, rfl, h⟩, fun ⟨_, _, heq, h⟩ => (List.cons.inj heq).2 ▸ h⟩

theorem set (hr : ¬ ReachesSpecial b (leftBracket :: g) s) :
    inner b (leftBracket :: g) s = true ↔ MatchesFrom b (leftBracket :: g) s := by
  cases b with
  | true => exact inner_set_behind_star hr
  | false =>
    rw [matchesFrom_false, globMatches_set]
    cases s with
    | nil =>
      rw [inner_set_nil]
      exact iff_of_false nofun nofun
    | cons d s =>
      have hrest {rest : Bytes} (hmatch : SetMatches d g rest) : inner false rest s = true ↔ GlobMatches rest s :=
        ih.whole (matchSet_length ((matchSet_iff h0).mpr hmatch)) (fun h => h0 (hmatch.subset h))
          fun h => hr (.inSet hmatch h)
      rw [inner_set, Option.any_eq_true]
      constructor
      · rintro ⟨rest, hset, h⟩
        have hmatch := (matchSet_iff h0).mp hset
        exact ⟨d, s, rest, rfl, hmatch, (hrest hmatch).mp h⟩
      · rintro ⟨_, _, rest, heq, hmatch, h⟩
        obtain ⟨rfl, rfl⟩ := List.cons.inj heq
        exact ⟨rest, (matchSet_iff h0).mpr hmatch, (hrest hmatch).mpr h⟩

theorem number (hr : ¬ ReachesSpecial b (numberSign :: g) s) :
    inner b (numberSign :: g) s = true ↔ MatchesFrom b (numberSign :: g) s := by
  cases b with
  | true => exact inner_number_behind_star hr
  | false =>
    have hrest {t u : Bytes} (ht : IsNumber t) (hu : u.head?.all (!isDigit ·) = true) (hs : s = t ++ u) :
        inner false g u = true ↔ GlobMatches g u :=
      ih.whole (Nat.le_refl _) h0 fun h => hr (hs ▸ .inNumber ht hu h)
    rw [matchesFrom_false, globMatches_number, inner_number, Option.any_eq_true]
    constructor
    · rintro ⟨u, hskip, h⟩
      obtain ⟨t, hs, ht, hu⟩ := skipNumber_iff.mp hskip
      exact ⟨t, u, hs, ht, hu, (hrest ht hu hs).mp h⟩
    · rintro ⟨t, u, hs, ht, hu, h⟩
      exact ⟨u, skipNumber_iff.mpr ⟨t, hs, ht, hu⟩, (hrest ht hu hs).mpr h⟩

theorem ordinary (hc0 : c ≠ 0) (hc : IsOrdinary c) (hr : ¬ ReachesSpecial b (c :: g) s) :
    inner b (c :: g) s = true ↔ MatchesFrom b (c :: g) s := by
  cases b with
  | true =>
    rw [inner_find hc0 ⟨hc.star, hc.question, hc.bracket⟩, any_tails_find, matchesFrom_find hc]
    refine exists_congr fun t => exists_congr fun u => and_congr_right ?_
    rintro rfl
    exact ih.whole (Nat.le_refl _) h0 fun h => hr (.find t hc h)
  | false =>
    have hkinds := And.intro hc.star (And.intro hc.question (And.intro hc.bracket hc.number))
    rw [matchesFrom_false, globMatches_plain hc]
    cases s with
    | nil =>
      rw [inner_plain_nil hc0 hkinds]
      exact iff_of_false nofun nofun
    | cons d s =>
      rw [inner_plain hc0 hkinds, Bool.and_eq_true, beq_iff_eq]
      constructor
      · rintro ⟨rfl, h⟩
        exact ⟨s, rfl, (ih.whole (Nat.le_refl _) h0 fun h => hr (.plain hc h)).mp h⟩
      · rintro ⟨s', heq, h⟩
        obtain ⟨rfl, rfl⟩ := List.cons.inj heq
        exact ⟨rfl, (ih.whole (Nat.le_refl _) h0 fun h => hr (.plain hc h)).mpr h⟩

end RightUpTo

end

/-- What `inner` decides, where no match gets to one of those places. -/
theorem inner_iff {b : Bool} {g s : Bytes} (h0 : 0 ∉ g) (hr : ¬ ReachesSpecial b g s) :
    inner b g s = true ↔ MatchesFrom b g s := by
  induction hn : g.length using Nat.strongRecOn generalizing b g s with
  | ind n ih =>
    cases g with
    | nil =>
      rw [inner_nil]
      cases b with
      | false => simp [matchesFrom_false, globMatches_nil]
      | true =>
        rw [matchesFrom_true]
        exact iff_of_true rfl ⟨[], List.nil_suffix, .nil⟩
    | cons c g =>
      have hc0 : c ≠ 0 := fun h => h0 (h ▸ List.mem_cons_self)
      replace h0 : 0 ∉ g := fun h => h0 (List.mem_cons_of_mem c h)
      rw [List.length_cons] at hn
      have hright : RightUpTo g.length := fun b g' s hlen h0 hr => ih g'.length (by omega) h0 hr rfl
      by_cases hstar : c = star
      · subst hstar
        exact hright.star h0 hr
      by_cases hquestion : c = questionMark
      · subst hquestion
        exact hright.question h0 hr
      by_cases hbracket : c = leftBracket
      · subst hbracket
        exact hright.set h0 hr
      by_cases hnumber : c = numberSign
      · subst hnumber
        exact hright.number h0 hr
      exact hright.ordinary h0 hc0 ⟨hstar, hquestion, hbracket, hnumber⟩ hr

/-- **`strglob` decides the language of the pattern**, unless a match gets to a run of `*` and `?` before
a set or a number. -/
theorem strglob_iff {g s : Bytes} (h0 : 0 ∉ g) (hr : ¬ ReachesSpecial false g s) :
    strglob g s = true ↔ GlobMatches g s := by
  rw [strglob, inner_iff h0 hr, matchesFrom_false]

/-- A pattern without sets and numbers. -/
theorem not_reachesSpecial {b : Bool} {g s : Bytes} (hset : leftBracket ∉ g) (hnumber : numberSign ∉ g) :
    ¬ ReachesSpecial b g s := by
  intro h
  induction h with
  | set hs => exact hset List.mem_cons_self
  | number hs => exact hnumber List.mem_cons_self
  | star h ih => exact ih (fun h => hset (.tail _ h)) fun h => hnumber (.tail _ h)
  | question h ih => exact ih (fun h => hset (.tail _ h)) fun h => hnumber (.tail _ h)
  | find t hc h ih => exact ih (fun h => hset (.tail _ h)) fun h => hnumber (.tail _ h)
  | plain hc h ih => exact ih (fun h => hset (.tail _ h)) fun h => hnumber (.tail _ h)
  | inSet hm h ih => exact hset List.mem_cons_self
  | inNumber ht hs h ih => exact hnumber List.mem_cons_self

theorem strglob_star_question : strglob (ascii "a*?b") (ascii "axyb") = true :=
  (strglob_iff (by decide) (not_reachesSpecial (by decide) (by decide))).mpr <|
    .plain ⟨by decide, by decide, by decide, by decide⟩ <| .star (ascii "x") <| .question <|
      .plain ⟨by decide, by decide, by decide, by decide⟩ .nil

/-- `*[a]` takes an `x`, and `*#` takes no number. -/
theorem strglob_star_special_wrong :
    (strglob (ascii "*[a]") (ascii "x") = true ∧ ¬ GlobMatches (ascii "*[a]") (ascii "x")) ∧
    strglob (ascii "*#") (ascii "7") = false ∧ GlobMatches (ascii "*#") (ascii "7") := by
  refine ⟨⟨?_, fun h => ?_⟩, ?_, ?_⟩
  · have hset : inner true (ascii "[a]") (ascii "x") = true := by
      have hplain : inner false (ascii "a]") (ascii "x") = false := inner_plain (by decide) (by decide) 120
      rw [show ascii "[a]" = leftBracket :: ascii "a]" from rfl, inner_star_set, List.any_eq_true]
      exact ⟨ascii "x", (List.mem_tails _ _).mpr (List.suffix_refl _), by rw [hplain]; rfl⟩
    exact inner_star.trans hset
  · rw [show ascii "*[a]" = star :: leftBracket :: ascii "a]" from rfl] at h
    obtain ⟨u, hu, h⟩ := matchesFrom_true.mp (matchesFrom_star.mp (matchesFrom_false.mpr h))
    obtain ⟨d, s', rest, rfl, hmatch, -⟩ := globMatches_set.mp h
    have hd : d = 120 := by
      have hmem := hu.subset List.mem_cons_self
      simpa [ascii] using hmem
    have hnone : matchSet 120 (ascii "a]") = none := by decide
    rw [hd] at hmatch
    rw [(matchSet_iff (by decide)).mpr hmatch] at hnone
    cases hnone
  · have hfind : inner true (ascii "#") (ascii "7") = false := by
      rw [show ascii "#" = numberSign :: [] from rfl, inner_find (by decide) (by decide), ← Bool.not_eq_true,
        any_tails_find]
      rintro ⟨t, u, heq, -⟩
      have hmem : numberSign ∈ ascii "7" := heq ▸ List.mem_append_right t List.mem_cons_self
      exact absurd hmem (by decide)
    exact inner_star.trans hfind
  · have hseven : IsNumber (ascii "7") :=
      ⟨[], ascii "7", rfl, .inl rfl, by decide, List.forall_mem_singleton.mpr rfl⟩
    exact .star [] (.number hseven rfl .nil)

end Fstest.Mptest
