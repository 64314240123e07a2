import Fstest.Lib.Entries
import Fstest.Mdworkbench.Ranks

/-!
# What a phase does to the working directory

`effects` says which entry an operation works on, and which it adds or removes. `Finds` is what it
needs to find there. A phase that starts with the entries `B` fits (`PhaseFits`) if no operation uses
what another one has changed and each finds, in `B`, what it needs. Then every interleaving of the
ranks in the phase is without errors (`step_inv`), and all of them lead to the same entries.
-/

namespace Fstest.Mdworkbench

open Barrier Entries

/-- The entry that an operation works on. -/
@[grind =]
def Act.uses : Act → Option Entry
  | .createDset rank d | .removeDset rank d => some (.dset rank d)
  | .precreate rank d i | .stat rank d i | .read rank d i | .delete rank d i | .create rank d i
  | .unlink rank d i => some (.obj rank d i)
  | .start | .push | .removePrefix => none

@[grind =]
def Act.adds : Act → Option Entry
  | .createDset rank d => some (.dset rank d)
  | .precreate rank d i | .create rank d i => some (.obj rank d i)
  | .start | .push | .stat .. | .read .. | .delete .. | .unlink .. | .removeDset ..
  | .removePrefix => none

@[grind =]
def Act.removes : Act → Option Entry
  | .removeDset rank d => some (.dset rank d)
  | .delete rank d i | .unlink rank d i => some (.obj rank d i)
  | .start | .push | .createDset .. | .precreate .. | .stat .. | .read .. | .create ..
  | .removePrefix => none

def effects : Effects Act Entry := ⟨Act.uses, Act.adds, Act.removes⟩

@[grind =] theorem effects_uses (a : Act) : effects.uses a = a.uses := rfl

@[grind =] theorem effects_adds (a : Act) : effects.adds a = a.adds := rfl

@[grind =] theorem effects_removes (a : Act) : effects.removes a = a.removes := rfl

/-- What an operation needs besides its own entry. -/
def Around (S : Set Entry) : Act → Prop
  | .precreate rank d _ | .create rank d _ => .dset rank d ∈ S
  | .removeDset rank d => ∀ i, .obj rank d i ∉ S
  | .removePrefix => S = ∅
  | _ => True

/-- An operation finds what it needs: it makes what is not there, and works on what is there. -/
def Finds (S : Set Entry) : Act → Prop
  | .start | .push => True
  | .createDset rank d => .dset rank d ∉ S
  | .precreate rank d i | .create rank d i => .dset rank d ∈ S ∧ .obj rank d i ∉ S
  | .stat rank d i | .read rank d i | .delete rank d i | .unlink rank d i => .obj rank d i ∈ S
  | .removeDset rank d => .dset rank d ∈ S ∧ ∀ i, .obj rank d i ∉ S
  | .removePrefix => S = ∅

theorem finds_of {S : Set Entry} {a : Act}
    (huses : ∀ x, effects.uses a = some x → (x ∈ S ↔ effects.adds a ≠ some x))
    (haround : Around S a) : Finds S a := by
  cases a <;> simp_all [Finds, Around, effects, Act.uses, Act.adds]

/-- The counters of a rank show no error, and it leaves nothing out. -/
structure Rank.Clean (r : Rank) : Prop where
  stat : r.stat.errors = 0
  slots : ∀ c ∈ r.slots, c.errors = 0
  skip : r.skip = false

variable {p : Params}

/-- The store has exactly the entries `S`, each object with its own contents, and no errors. -/
structure Store.Holds (y : Store p.threads) (S : Set Entry) : Prop where
  entries : ∀ x, x ∈ y.entries ↔ x ∈ S
  content : ∀ rank d i, .obj rank d i ∈ S → y.content (.obj rank d i) = p.pattern rank d i
  clean : ∀ t, (y.ranks t).Clean

section

variable {y : Store p.threads} {S : Set Entry}

theorem Rank.Clean.count {r : Rank} (h : r.Clean) {f : PhaseStat → PhaseStat}
    (hf : (f r.stat).errors = r.stat.errors) : (r.count f).Clean :=
  ⟨hf.trans h.stat, h.slots, h.skip⟩

theorem Store.Holds.modifyRank (h : y.Holds S) {t : Fin p.threads} {f : Rank → Rank}
    (hf : (f (y.ranks t)).Clean) : (y.modifyRank t f).Holds S := by
  refine ⟨h.entries, h.content, fun u => ?_⟩
  by_cases hut : u = t
  · subst hut
    simpa [Store.modifyRank] using hf
  · simpa [Store.modifyRank, hut] using h.clean u

/-- Counting without an error changes nothing else. -/
theorem Store.Holds.count (h : y.Holds S) (t : Fin p.threads) {f : PhaseStat → PhaseStat}
    (hf : ∀ c, (f c).errors = c.errors) : (y.modifyRank t (Rank.count f)).Holds S :=
  h.modifyRank ((h.clean t).count (hf _))

theorem Store.Holds.remove (h : y.Holds S) (e : Entry) : (y.remove e).Holds { x ∈ S | x ≠ e } := by
  refine ⟨fun x => ?_, fun rank d i hx => h.content rank d i hx.1, h.clean⟩
  show x ∈ y.entries.erase e ↔ x ∈ S ∧ x ≠ e
  rw [Finset.mem_erase, h.entries, and_comm]

theorem Store.Holds.write (h : y.Holds S) {rank d i : ℕ} (hnew : .obj rank d i ∉ S) :
    (y.write rank d i (p.pattern rank d i)).Holds (insert (.obj rank d i) S) := by
  refine ⟨fun x => ?_, fun rank' d' i' hx => ?_, h.clean⟩
  · show x ∈ insert _ y.entries ↔ _
    rw [Finset.mem_insert, Set.mem_insert_iff, h.entries]
  · show Function.update y.content _ _ _ = _
    by_cases heq : Entry.obj rank' d' i' = .obj rank d i
    · rw [heq, Function.update_self, if_neg (mt (h.entries _).mp hnew)]
      cases heq
      rw [Params.writeOver, List.drop_nil, List.append_nil]
    · rw [Function.update_of_ne heq]
      exact h.content rank' d' i' (Set.mem_of_mem_insert_of_ne hx heq)

/-- The entries that an operation leaves. -/
def after (S : Set Entry) (a : Act) : Set Entry :=
  { x | (x ∈ S ∧ effects.removes a ≠ some x) ∨ effects.adds a = some x }

theorem after_of_quiet {b : Act} (hr : effects.removes b = none) (ha : effects.adds b = none) :
    after S b = S := by
  ext x
  simp only [after, hr, ha, Set.mem_ofPred_eq, ne_eq, reduceCtorEq, not_false_eq_true, and_true,
    or_false]

theorem after_of_adds {b : Act} {e : Entry} (hr : effects.removes b = none)
    (ha : effects.adds b = some e) : after S b = insert e S := by
  ext x
  simp only [after, hr, ha, Set.mem_ofPred_eq, Set.mem_insert_iff, Option.some.injEq, ne_eq,
    reduceCtorEq, not_false_eq_true, and_true]
  tauto

theorem after_of_removes {b : Act} {e : Entry} (hr : effects.removes b = some e)
    (ha : effects.adds b = none) : after S b = { x ∈ S | x ≠ e } := by
  ext x
  simp only [after, hr, ha, Set.mem_ofPred_eq, ne_eq, Option.some.injEq, reduceCtorEq, or_false,
    eq_comm]

/-- An operation that finds what it needs works without an error. -/
theorem exec_holds (h : y.Holds S) {a : Act} (hf : Finds S a) (t : Fin p.threads) :
    (p.exec t a y).Holds (after S a) := by
  have hskip := (h.clean t).skip
  cases a with
  | start =>
    rw [after_of_quiet rfl rfl]
    simp only [Params.exec]
    exact h.modifyRank ⟨rfl, (h.clean t).slots, rfl⟩
  | push =>
    rw [after_of_quiet rfl rfl]
    simp only [Params.exec]
    refine h.modifyRank ⟨(h.clean t).stat, ?_, hskip⟩
    intro c hc
    rcases List.mem_append.mp hc with hc | hc
    · exact (h.clean t).slots c hc
    · rw [List.mem_singleton.mp hc]
      exact (h.clean t).stat
  | createDset rank d =>
    rw [after_of_adds rfl rfl]
    simp only [Params.exec, if_neg (mt (h.entries _).mp hf)]
    have hmade : ({ y with entries := insert (.dset rank d) y.entries } : Store p.threads).Holds
        (insert (.dset rank d) S) := by
      refine ⟨fun x => ?_, fun rank' d' i hx => ?_, h.clean⟩
      · show x ∈ insert _ y.entries ↔ _
        rw [Finset.mem_insert, Set.mem_insert_iff, h.entries]
      · exact h.content rank' d' i (Set.mem_of_mem_insert_of_ne hx (by simp))
    exact hmade.count t fun c => rfl
  | precreate rank d i =>
    rw [after_of_adds rfl rfl]
    simp only [Params.exec, hskip, if_pos ((h.entries _).mpr hf.1)]
    exact (h.write hf.2).count t fun c => rfl
  | stat rank d i =>
    rw [after_of_quiet rfl rfl]
    simp only [Params.exec, if_pos ((h.entries _).mpr hf)]
    exact h.modifyRank ⟨(h.clean t).stat, (h.clean t).slots, rfl⟩
  | read rank d i =>
    rw [after_of_quiet rfl rfl]
    have hlen : (p.pattern rank d i).length = p.fileSize := Mdtest.length_contentPattern _ _ _ _
    simp only [Params.exec, hskip, if_pos ((h.entries _).mpr hf), h.content rank d i hf, hlen,
      Nat.lt_irrefl, and_false, if_false, List.take_of_length_le hlen.le, ne_eq, not_true_eq_false]
    exact h.count t fun c => rfl
  | delete rank d i =>
    rw [after_of_removes rfl rfl]
    simp only [Params.exec, hskip, if_pos ((h.entries _).mpr hf)]
    exact (h.remove _).count t fun c => rfl
  | create rank d i =>
    rw [after_of_adds rfl rfl]
    simp only [Params.exec, hskip, if_pos ((h.entries _).mpr hf.1)]
    exact (h.write hf.2).count t fun c => rfl
  | unlink rank d i =>
    rw [after_of_removes rfl rfl]
    simp only [Params.exec, if_pos ((h.entries _).mpr hf)]
    exact (h.remove _).count t fun c => rfl
  | removeDset rank d =>
    rw [after_of_removes rfl rfl]
    have hempty : ¬ ∃ e ∈ y.entries, Entry.inDset rank d e = true := by
      rintro ⟨e, he, hin⟩
      cases e with
      | dset rank' d' => cases hin
      | obj rank' d' i =>
        rw [Entry.inDset, Bool.and_eq_true, beq_iff_eq, beq_iff_eq] at hin
        obtain ⟨rfl, rfl⟩ := hin
        exact hf.2 i ((h.entries _).mp he)
    simp only [Params.exec, if_neg hempty]
    exact (h.remove _).count t fun c => rfl
  | removePrefix =>
    rw [after_of_quiet rfl rfl]
    simp only [Params.exec]
    split
    · exact ⟨h.entries, h.content, h.clean⟩
    · exact h

end

/-! ## Phases -/

/-- The operations `L` of the ranks fit between the entries `B` and `B'`. -/
structure PhaseFits (L : Fin p.threads → List Act) (B B' : Set Entry) : Prop where
  exclusive : Exclusive effects L
  uses : ∀ t, ∀ a ∈ L t, ∀ x, effects.uses a = some x → (x ∈ B ↔ effects.adds a ≠ some x)
  around : ∀ t l a r, L t = l ++ a :: r → ∀ done : Fin p.threads → List Act, done t = l →
    (∀ u, done u ⊆ L u) → Around (contents effects B done) a
  next : contents effects B L = B'

/-- The ranks have done `done` of the phase, without an error. -/
structure PhaseInv (L : Fin p.threads → List Act) (B : Set Entry) (done : Fin p.threads → List Act)
    (y : Store p.threads) : Prop where
  sub : ∀ u, done u ⊆ L u
  holds : y.Holds (contents effects B done)

section

variable {L : Fin p.threads → List Act} {B B' : Set Entry} {done : Fin p.threads → List Act}
  {y : Store p.threads} {t : Fin p.threads} {a : Act} {r : List Act}

theorem PhaseFits.finds (h : PhaseFits L B B') (hsub : ∀ u, done u ⊆ L u)
    (hL : L t = done t ++ a :: r) : Finds (contents effects B done) a := by
  refine finds_of (fun x hx => ?_) (h.around t _ a r hL done rfl hsub)
  rw [h.exclusive.mem_contents_iff hsub hL hx]
  exact h.uses t a (by rw [hL]; simp) x hx

theorem uses_of_removes {x : Entry} (h : effects.removes a = some x) : effects.uses a = some x := by
  cases a <;> first | exact h | cases h

theorem step_inv (h : PhaseFits L B B') (hi : PhaseInv L B done y) (hL : L t = done t ++ a :: r) :
    PhaseInv L B (more done t a) (p.exec t a y) := by
  refine ⟨more_subset hi.sub hL, ?_⟩
  rw [contents_more]
  · exact exec_holds hi.holds (h.finds hi.sub hL) t
  · intro x hx u b hb hadd
    exact h.exclusive.unchanged hi.sub hL (uses_of_removes hx) u b hb (.inl hadd)
  · cases a <;> first | exact .inl rfl | exact .inr rfl

/-- A finished phase is the start of the next one. -/
theorem next_inv (h : PhaseFits L B B') (hi : PhaseInv L B L y) (L' : Fin p.threads → List Act) :
    PhaseInv L' B' (fun _ => []) y := by
  refine ⟨fun u => List.nil_subset _, ?_⟩
  rw [contents_nil, ← h.next]
  exact hi.holds

/-- A phase in which nobody does anything. -/
theorem phaseFits_idle (hL : ∀ t, L t = []) : PhaseFits L B B := by
  have hnil : L = fun _ => [] := by
    funext t
    exact hL t
  subst hnil
  refine ⟨⟨fun t => .nil, fun t u _ a ha => ?_⟩, fun t a ha => ?_, fun t l a r h => ?_, contents_nil⟩
  · cases ha
  · cases ha
  · simp at h

end

end Fstest.Mdworkbench
