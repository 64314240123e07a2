import Mathlib.Data.List.Pairwise
import Mathlib.Data.Set.Insert

/-!
# Entries that threads add and remove in a phase

The operations of a phase add and remove entries of a store. `contents base done` is what the store
holds when the threads have done the operations `done`, in any order, from `base` on. That the order
does not matter rests on `Exclusive`: an entry that some operation has changed is not used again
in the phase, so what an operation finds under the entry that it uses is what the phase started with
(`Exclusive.mem_contents_iff`).
-/

namespace Fstest.Entries

variable {ι α κ : Type}

/-- What the operations do: the entry that one works on, and the entry that it adds or removes. -/
structure Effects (α κ : Type) where
  uses : α → Option κ
  adds : α → Option κ
  removes : α → Option κ

variable (E : Effects α κ)

/-- The operation adds or removes the entry. -/
def Changes (a : α) (x : κ) : Prop := E.adds a = some x ∨ E.removes a = some x

/-- The entries after the operations `done` of all threads. -/
def contents (base : Set κ) (done : ι → List α) : Set κ :=
  { x | (x ∈ base ∧ ∀ t, ∀ a ∈ done t, E.removes a ≠ some x) ∨ ∃ t, ∃ a ∈ done t, E.adds a = some x }

/-- No operation of the phase uses an entry that another one, of the same thread before it or of
another thread, changes. -/
structure Exclusive (L : ι → List α) : Prop where
  own : ∀ t, (L t).Pairwise fun b a => ∀ x, E.uses a = some x → ¬ Changes E b x
  others : ∀ t u, t ≠ u → ∀ a ∈ L t, ∀ b ∈ L u, ∀ x, E.uses a = some x → ¬ Changes E b x

variable {E} {base : Set κ} {L done : ι → List α} {x : κ}

theorem contents_nil : contents E base (fun _ : ι => []) = base := by
  ext x
  simp [contents]

/-- An entry that nothing has changed is there if it was there before. -/
theorem mem_contents_iff_of_unchanged (h : ∀ t, ∀ a ∈ done t, ¬ Changes E a x) :
    x ∈ contents E base done ↔ x ∈ base := by
  constructor
  · rintro (⟨hb, -⟩ | ⟨t, a, ha, hx⟩)
    · exact hb
    · exact absurd (.inl hx) (h t a ha)
  · intro hb
    exact .inl ⟨hb, fun t a ha hx => h t a ha (.inr hx)⟩

/-- Nothing done before an operation has changed the entry that it uses. -/
theorem Exclusive.unchanged (h : Exclusive E L) (hsub : ∀ t, done t ⊆ L t) {t : ι} {a : α}
    {r : List α} (hL : L t = done t ++ a :: r) (hx : E.uses a = some x) (u : ι) :
    ∀ b ∈ done u, ¬ Changes E b x := by
  intro b hb
  by_cases hut : t = u
  · subst hut
    have hpair := h.own t
    rw [hL, List.pairwise_append] at hpair
    exact hpair.2.2 b hb a List.mem_cons_self x hx
  · exact h.others t u hut a (by rw [hL]; simp) b (hsub u hb) x hx

/-- **What an operation finds under its entry is what the phase started with.** -/
theorem Exclusive.mem_contents_iff (h : Exclusive E L) (hsub : ∀ t, done t ⊆ L t) {t : ι} {a : α}
    {r : List α} (hL : L t = done t ++ a :: r) (hx : E.uses a = some x) :
    x ∈ contents E base done ↔ x ∈ base :=
  mem_contents_iff_of_unchanged (h.unchanged hsub hL hx)

/-- What never comes after `a` has come before it. -/
theorem mem_before {a b : α} {l r K : List α} (hK : K = l ++ a :: r)
    (hpair : K.Pairwise fun x y => x = a → y ≠ b) (hb : b ∈ K) (hne : b ≠ a) : b ∈ l := by
  rw [hK, List.pairwise_append] at hpair
  rw [hK, List.mem_append, List.mem_cons] at hb
  rcases hb with hb | hb | hb
  · exact hb
  · exact absurd hb hne
  · exact absurd rfl ((List.pairwise_cons.mp hpair.2.1).1 b hb rfl)

section

variable [DecidableEq ι]

/-- The operations done after one more step of `t`. -/
def more (done : ι → List α) (t : ι) (a : α) : ι → List α := Function.update done t (done t ++ [a])

theorem mem_more {t u : ι} {a b : α} : b ∈ more done t a u ↔ b ∈ done u ∨ u = t ∧ b = a := by
  by_cases h : u = t
  · subst h
    simp [more]
  · simp [more, h]

theorem more_subset {t : ι} {a : α} {r : List α} (hsub : ∀ u, done u ⊆ L u)
    (hL : L t = done t ++ a :: r) (u : ι) : more done t a u ⊆ L u := by
  intro b hb
  rcases mem_more.mp hb with hb | ⟨rfl, rfl⟩
  · exact hsub u hb
  · rw [hL]
    simp

/-- One more operation changes the contents by its own effect. -/
theorem contents_more {t : ι} {a : α} (hremove : ∀ y, E.removes a = some y →
      ∀ u, ∀ b ∈ done u, E.adds b ≠ some y) (hboth : E.adds a = none ∨ E.removes a = none) :
    contents E base (more done t a) =
      { x | (x ∈ contents E base done ∧ E.removes a ≠ some x) ∨ E.adds a = some x } := by
  ext x
  simp only [contents, Set.mem_ofPred_eq, mem_more]
  constructor
  · rintro (⟨hb, hall⟩ | ⟨u, b, hb | ⟨rfl, rfl⟩, hx⟩)
    · exact .inl ⟨.inl ⟨hb, fun u b hb => hall u b (.inl hb)⟩, hall t a (.inr ⟨rfl, rfl⟩)⟩
    · exact .inl ⟨.inr ⟨u, b, hb, hx⟩, fun hr => hremove x hr u b hb hx⟩
    · exact .inr hx
  · rintro (⟨⟨hb, hall⟩ | ⟨u, b, hb, hx⟩, hr⟩ | hx)
    · refine .inl ⟨hb, ?_⟩
      rintro u b (hbu | ⟨rfl, rfl⟩)
      · exact hall u b hbu
      · exact hr
    · exact .inr ⟨u, b, .inl hb, hx⟩
    · exact .inr ⟨t, a, .inr ⟨rfl, rfl⟩, hx⟩

end

end Fstest.Entries
