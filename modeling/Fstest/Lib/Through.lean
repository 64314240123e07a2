import Mathlib.Data.List.DropRight
import Mathlib.Data.List.Forall2

/-!
# Reading through an end

A reader goes over the items of a list with a state, and the item that brings the state to an end is
the last that it takes (`readThrough`). What it takes from a list depends on the items up to the first
end only (`readThrough_closes`). The runs at the end of a list that `rtakeWhile` takes are given here
for lists that are put together.
-/

namespace Fstest

variable {α β σ : Type*}

/-- What the reader takes and what it leaves. -/
def readThrough (step : σ → α → σ) (done : σ → Bool) : σ → List α → List α × List α
  | _, [] => ([], [])
  | s, a :: l =>
    if done (step s a) then ([a], l)
    else
      let r := readThrough step done (step s a) l
      (a :: r.1, r.2)

/-- The last item, and no item before it, brings the reader to an end. -/
def closesAt (step : σ → α → σ) (done : σ → Bool) : σ → List α → Bool
  | _, [] => false
  | s, a :: l => if done (step s a) then l.isEmpty else closesAt step done (step s a) l

/-- **A reader takes what closes**, whatever comes behind it. -/
theorem readThrough_closes {step : σ → α → σ} {done : σ → Bool} {s : σ} {l : List α}
    (h : closesAt step done s l = true) (m : List α) :
    readThrough step done s (l ++ m) = (l, m) := by
  induction l generalizing s with
  | nil => cases h
  | cons a l ih =>
    rw [closesAt] at h
    rw [List.cons_append, readThrough]
    split
    · rename_i hdone
      rw [if_pos hdone, List.isEmpty_iff] at h
      rw [h, List.nil_append]
    · rename_i hdone
      rw [if_neg hdone] at h
      rw [ih h]

/-! ## Runs at the end -/

section Runs

variable {p : α → Bool} {l m : List α}

theorem rtakeWhile_append_of_forall (h : ∀ a ∈ m, p a = true) :
    (l ++ m).rtakeWhile p = l.rtakeWhile p ++ m := by
  rw [List.rtakeWhile, List.reverse_append, List.takeWhile_append_of_pos
    fun a ha => h a (List.mem_reverse.mp ha), List.reverse_append, List.reverse_reverse, List.rtakeWhile]

theorem rdropWhile_append_of_forall (h : ∀ a ∈ m, p a = true) :
    (l ++ m).rdropWhile p = l.rdropWhile p := by
  rw [List.rdropWhile, List.reverse_append, List.dropWhile_append_of_pos
    fun a ha => h a (List.mem_reverse.mp ha), List.rdropWhile]

theorem rtakeWhile_map (f : β → α) (l : List β) :
    (l.map f).rtakeWhile p = (l.rtakeWhile fun b => p (f b)).map f := by
  rw [List.rtakeWhile, ← List.map_reverse, List.takeWhile_map, ← List.map_reverse, List.rtakeWhile]
  rfl

/-- An item that ends every run stays out of it. -/
theorem mem_rdropWhile_of_neg {a : α} (ha : a ∈ l) (hp : p a = false) : a ∈ l.rdropWhile p := by
  rw [← List.rdropWhile_append_rtakeWhile (p := p) (l := l), List.mem_append] at ha
  refine ha.resolve_right fun hrun => ?_
  rw [List.mem_rtakeWhile_imp hrun] at hp
  cases hp

end Runs

/-- A relation along two lists that comes down to a property of the first one's items. -/
theorem forall₂_iff_forall {R Q : α → β → Prop} {P : α → Prop} {l : List α} {m : List β}
    (h : List.Forall₂ R l m) (hiff : ∀ a b, R a b → (Q a b ↔ P a)) :
    List.Forall₂ Q l m ↔ ∀ a ∈ l, P a := by
  induction h with
  | nil => simp
  | cons hab _ ih => rw [List.forall₂_cons, List.forall_mem_cons, ih, hiff _ _ hab]

/-- What a function makes of the elements at which it is defined. -/
theorem forall₂_filterMap (f : α → Option β) {R : α → β → Prop}
    (h : ∀ a b, f a = some b → R a b) (l : List α) :
    List.Forall₂ R (l.filter fun a => (f a).isSome) (l.filterMap f) := by
  induction l with
  | nil => exact .nil
  | cons a l ih =>
    cases hf : f a with
    | none => simpa [hf] using ih
    | some b => simpa [hf] using And.intro (h a b hf) ih

end Fstest
