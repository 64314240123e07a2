import Mathlib.Algebra.Order.BigOperators.Group.Finset
import Mathlib.Logic.Relation
import Mathlib.Data.Fintype.Card

/-!
# Threads that meet at a barrier

`n` threads run straight-line programs over a shared store. An instruction is an operation on the
store or a wait at the one barrier of the threads, which is the barrier of the Rust standard
library: a thread that arrives last starts the next generation, and the others sleep until they
see a generation other than the one they arrived in.

- `deadlockFree_iff`: no run gets stuck exactly if all threads wait equally often.
- `phase_invariant`: what holds after every interleaving of the operations between two barriers. An
  invariant that speaks of the operations that each thread has done in its current phase is kept by
  every run.
- `exists_stopped`: every run can be continued until no thread can take a step.
-/

namespace Fstest.Barrier

variable {n : ℕ} {α σ : Type}

/-- An instruction of a thread. -/
inductive Instr (α : Type) where
  | op (a : α)
  | wait
  deriving DecidableEq, Repr

/-- The number of waits of a program. -/
def waits : List (Instr α) → ℕ
  | [] => 0
  | .op _ :: r => waits r
  | .wait :: r => waits r + 1

/-- The operations between the waits number `g` and `g + 1` of a program. -/
def phase : ℕ → List (Instr α) → List α
  | _, [] => []
  | 0, .op a :: r => a :: phase 0 r
  | 0, .wait :: _ => []
  | g + 1, .op _ :: r => phase (g + 1) r
  | g + 1, .wait :: r => phase g r

/-- The operations of a program are those of its phases. -/
theorem mem_iff_exists_phase {a : α} {p : List (Instr α)} : .op a ∈ p ↔ ∃ g, a ∈ phase g p := by
  induction p with
  | nil => simp [phase]
  | cons i p ih =>
    rw [List.mem_cons, ih]
    constructor
    · rintro (h | ⟨g, hg⟩)
      · subst h
        exact ⟨0, by simp [phase]⟩
      · cases i with
        | wait => exact ⟨g + 1, hg⟩
        | op b =>
          cases g with
          | zero => exact ⟨0, List.mem_cons_of_mem b hg⟩
          | succ g => exact ⟨g + 1, hg⟩
    · rintro ⟨g, hg⟩
      cases i with
      | wait =>
        cases g with
        | zero => cases hg
        | succ g => exact .inr ⟨g, hg⟩
      | op b =>
        cases g with
        | zero =>
          rcases List.mem_cons.mp hg with rfl | hg
          · exact .inl rfl
          · exact .inr ⟨0, hg⟩
        | succ g => exact .inr ⟨g + 1, hg⟩

theorem waits_append (p q : List (Instr α)) : waits (p ++ q) = waits p + waits q := by
  induction p with
  | nil => simp [waits]
  | cons i p ih =>
    cases i <;> simp only [List.cons_append, waits, ih]
    omega

@[simp] theorem waits_map_op {β : Type} (f : β → α) (bs : List β) :
    waits (bs.map fun b => .op (f b)) = 0 := by
  induction bs with
  | nil => rfl
  | cons b bs ih => exact ih

/-- Work between two barriers of its own. -/
def round (body : List α) : List (Instr α) := .wait :: body.map .op ++ [.wait]

theorem phase_zero_map_op (body : List α) (r : List (Instr α)) :
    phase 0 (body.map .op ++ .wait :: r) = body := by
  induction body with
  | nil => rfl
  | cons a body ih => exact congrArg (a :: ·) ih

theorem phase_succ_map_op (g : ℕ) (body : List α) (r : List (Instr α)) :
    phase (g + 1) (body.map .op ++ .wait :: r) = phase g r := by
  induction body with
  | nil => rfl
  | cons a body ih => exact ih

theorem phase_map_op (g : ℕ) (body : List α) :
    phase g (body.map .op) = if g = 0 then body else [] := by
  induction body with
  | nil => cases g <;> rfl
  | cons a body ih =>
    cases g with
    | zero => exact congrArg (a :: ·) ih
    | succ g => exact ih

section

variable (bodies : List (List α)) (tail : List α)

/-- Between two rounds there is nothing to do. -/
theorem phase_even_rounds (j : ℕ) :
    phase (2 * j) (bodies.flatMap round ++ tail.map .op) =
      if j = bodies.length then tail else [] := by
  induction bodies generalizing j with
  | nil =>
    rw [List.flatMap_nil, List.nil_append, phase_map_op, List.length_nil]
    cases j <;> rfl
  | cons b bodies ih =>
    cases j with
    | zero => rfl
    | succ j =>
      rw [List.flatMap_cons, round, show 2 * (j + 1) = 2 * j + 1 + 1 by omega]
      simp only [List.append_assoc, List.cons_append, List.nil_append, phase, phase_succ_map_op,
        List.length_cons, Nat.add_right_cancel_iff]
      exact ih j

/-- The rounds are the odd phases. -/
theorem phase_odd_rounds (j : ℕ) :
    phase (2 * j + 1) (bodies.flatMap round ++ tail.map .op) = bodies.getD j [] := by
  induction bodies generalizing j with
  | nil =>
    rw [List.flatMap_nil, List.nil_append, phase_map_op]
    simp
  | cons b bodies ih =>
    rw [List.flatMap_cons, round]
    simp only [List.append_assoc, List.cons_append, List.nil_append, phase]
    cases j with
    | zero => exact phase_zero_map_op b _
    | succ j =>
      rw [show 2 * (j + 1) = 2 * j + 1 + 1 by omega, phase_succ_map_op]
      exact ih j

theorem waits_rounds : waits (bodies.flatMap round ++ tail.map .op) = 2 * bodies.length := by
  induction bodies with
  | nil => exact waits_map_op id tail
  | cons b bodies ih =>
    have hround : waits (round b) = 2 := by
      have hop : waits (b.map .op) = 0 := waits_map_op id b
      rw [round, waits_append, waits, hop]
      rfl
    rw [List.flatMap_cons, List.append_assoc, waits_append, ih, hround, List.length_cons]
    omega

end

/-- The threads, the barrier and the store. A thread that sleeps at the barrier remembers the
generation in which it arrived. -/
structure State (n : ℕ) (σ α : Type) where
  shared : σ
  rest : Fin n → List (Instr α)
  blocked : Fin n → Option ℕ
  count : ℕ
  generation : ℕ

def init (prog : Fin n → List (Instr α)) (x : σ) : State n σ α where
  shared := x
  rest := prog
  blocked := fun _ => none
  count := 0
  generation := 0

/-- One step of one thread: an operation, an arrival, the last arrival, or waking up. -/
inductive Step (exec : Fin n → α → σ → σ) : State n σ α → State n σ α → Prop
  | op {s : State n σ α} (t : Fin n) (a : α) (r : List (Instr α)) (hb : s.blocked t = none)
      (hr : s.rest t = .op a :: r) :
      Step exec s { s with shared := exec t a s.shared, rest := Function.update s.rest t r }
  | arrive {s : State n σ α} (t : Fin n) (r : List (Instr α)) (hb : s.blocked t = none)
      (hr : s.rest t = .wait :: r) (hc : s.count + 1 < n) :
      Step exec s
        { s with
          rest := Function.update s.rest t r
          blocked := Function.update s.blocked t (some s.generation)
          count := s.count + 1 }
  | release {s : State n σ α} (t : Fin n) (r : List (Instr α)) (hb : s.blocked t = none)
      (hr : s.rest t = .wait :: r) (hc : n ≤ s.count + 1) :
      Step exec s
        { s with
          rest := Function.update s.rest t r
          count := 0
          generation := s.generation + 1 }
  | wake {s : State n σ α} (t : Fin n) (g : ℕ) (hb : s.blocked t = some g)
      (hg : g ≠ s.generation) :
      Step exec s { s with blocked := Function.update s.blocked t none }

/-- Every thread has come to the end of its program. -/
def Finished (s : State n σ α) : Prop := ∀ t, s.rest t = [] ∧ s.blocked t = none

/-- The states that a run of the programs reaches. -/
def Reachable (exec : Fin n → α → σ → σ) (prog : Fin n → List (Instr α)) (x : σ) :
    State n σ α → Prop :=
  Relation.ReflTransGen (Step exec) (init prog x)

/-- In every reachable state the threads are finished or one of them can take a step. -/
def DeadlockFree (exec : Fin n → α → σ → σ) (prog : Fin n → List (Instr α)) (x : σ) : Prop :=
  ∀ s, Reachable exec prog x s → Finished s ∨ ∃ s', Step exec s s'

/-! ## The barrier invariant -/

/-- The thread sleeps in the current generation. -/
abbrev Counted (s : State n σ α) (t : Fin n) : Prop := s.blocked t = some s.generation

/-- A thread has passed as many waits as there were generations, one more while it is counted. -/
structure Synced (prog : Fin n → List (Instr α)) (s : State n σ α) : Prop where
  arrived : ∀ t, waits (prog t) =
    waits (s.rest t) + s.generation + if Counted s t then 1 else 0
  count : s.count = (Finset.univ.filter (Counted s)).card
  lt : s.count < n
  old : ∀ t g, s.blocked t = some g → g ≤ s.generation

section

variable {exec : Fin n → α → σ → σ} {prog : Fin n → List (Instr α)} {s s' : State n σ α}

theorem synced_init (hn : 0 < n) (x : σ) : Synced prog (init prog x) where
  arrived t := by simp [init, Counted]
  count := (Finset.card_eq_zero.mpr (Finset.filter_eq_empty_iff.mpr fun t _ h => by cases h)).symm
  lt := hn
  old t g h := by simp [init] at h

/-- All the others are counted when the last thread arrives. -/
theorem Synced.others (h : Synced prog s) {t : Fin n} (hb : s.blocked t = none)
    (hc : n ≤ s.count + 1) {u : Fin n} (hu : u ≠ t) : Counted s u := by
  have hsub : Finset.univ.filter (Counted s) ⊆ Finset.univ.erase t := by
    intro v hv
    rw [Finset.mem_erase]
    refine ⟨?_, Finset.mem_univ v⟩
    rintro rfl
    have hv' := (Finset.mem_filter.mp hv).2
    rw [Counted, hb] at hv'
    cases hv'
  have hcard : (Finset.univ.erase t).card ≤ (Finset.univ.filter (Counted s)).card := by
    rw [← h.count, Finset.card_erase_of_mem (Finset.mem_univ t), Finset.card_univ,
      Fintype.card_fin]
    omega
  have hall := Finset.eq_of_subset_of_card_le hsub hcard
  have hmem : u ∈ Finset.univ.filter (Counted s) := by
    rw [hall]
    exact Finset.mem_erase.mpr ⟨hu, Finset.mem_univ u⟩
  exact (Finset.mem_filter.mp hmem).2

/-- Nobody sleeps in a generation that is yet to come. -/
theorem Synced.not_next (h : Synced prog s) (u : Fin n) : ¬ s.blocked u = some (s.generation + 1) :=
  fun hu => by
    have := h.old u _ hu
    omega

/-- Waking a thread that sleeps in an earlier generation changes nothing for the barrier. -/
theorem counted_wake {t : Fin n} {g : ℕ} (hb : s.blocked t = some g) (hg : g ≠ s.generation)
    (u : Fin n) : Function.update s.blocked t none u = some s.generation ↔ Counted s u := by
  by_cases hut : u = t
  · subst hut
    simp [Counted, hb, hg]
  · simp [Counted, hut]

theorem step_synced (h : Synced prog s) (hs : Step exec s s') : Synced prog s' := by
  cases hs with
  | op t a r hb hr =>
    refine ⟨fun u => ?_, h.count, h.lt, h.old⟩
    have hu := h.arrived u
    by_cases hut : u = t
    · subst hut
      rw [hr] at hu
      simpa [Counted, waits] using hu
    · simpa [Counted, hut] using hu
  | arrive t r hb hr hc =>
    have hfilter : Finset.univ.filter (fun u =>
        Function.update s.blocked t (some s.generation) u = some s.generation) =
        insert t (Finset.univ.filter (Counted s)) := by
      ext u
      by_cases hut : u = t
      · simp [hut]
      · simp [hut, Counted]
    have hnot : t ∉ Finset.univ.filter (Counted s) := by simp [Counted, hb]
    refine ⟨fun u => ?_, ?_, hc, fun u g hg => ?_⟩
    · have hu := h.arrived u
      by_cases hut : u = t
      · subst hut
        simp only [Counted, hb, reduceCtorEq, if_false, hr, waits] at hu
        simp only [Counted, Function.update_self, if_true]
        omega
      · simpa [Counted, hut] using hu
    · show s.count + 1 = _
      rw [hfilter, Finset.card_insert_of_notMem hnot, h.count]
    · by_cases hut : u = t
      · subst hut
        simp only [Function.update_self, Option.some.injEq] at hg
        exact hg.ge
      · simp only [Function.update_of_ne hut] at hg
        exact h.old u g hg
  | release t r hb hr hc =>
    have hnone := h.not_next
    refine ⟨fun u => ?_, ?_, Nat.lt_of_le_of_lt (Nat.zero_le _) h.lt, fun u g hg => ?_⟩
    · have hu := h.arrived u
      simp only [Counted, hnone, if_false]
      by_cases hut : u = t
      · subst hut
        simp only [Counted, hb, reduceCtorEq, if_false, hr, waits] at hu
        simp only [Function.update_self]
        omega
      · rw [if_pos (h.others hb hc hut)] at hu
        simp only [Function.update_of_ne hut]
        omega
    · simp [Counted, hnone]
    · exact Nat.le_succ_of_le (h.old u g hg)
  | wake t g hb hg =>
    have hcounted := counted_wake hb hg
    refine ⟨fun u => ?_, ?_, h.lt, fun u g' hg' => ?_⟩
    · simp only [Counted, hcounted]
      exact h.arrived u
    · simp only [Counted, hcounted]
      exact h.count
    · by_cases hut : u = t
      · subst hut
        simp at hg'
      · simp only [Function.update_of_ne hut] at hg'
        exact h.old u g' hg'

theorem Reachable.synced (hn : 0 < n) {x : σ} (hr : Reachable exec prog x s) : Synced prog s := by
  induction hr with
  | refl => exact synced_init hn x
  | tail _ hs ih => exact step_synced ih hs

/-! ## Stopping -/

/-- What a thread has left to do. -/
def load (s : State n σ α) (t : Fin n) : ℕ :=
  2 * (s.rest t).length + if (s.blocked t).isSome then 1 else 0

/-- A step makes the load of one thread smaller and leaves the others alone. -/
theorem step_load (hs : Step exec s s') :
    ∃ t, load s' t < load s t ∧ ∀ u, u ≠ t → load s' u = load s u := by
  cases hs with
  | op t a r hb hr =>
    refine ⟨t, ?_, fun u hu => by simp [load, hu]⟩
    simp [load, hr, hb]
  | arrive t r hb hr hc =>
    refine ⟨t, ?_, fun u hu => by simp [load, hu]⟩
    simp [load, hr, hb]
    omega
  | release t r hb hr hc =>
    refine ⟨t, ?_, fun u hu => by simp [load, hu]⟩
    simp [load, hr, hb]
  | wake t g hb hg =>
    refine ⟨t, ?_, fun u hu => by simp [load, hu]⟩
    simp [load, hb]

theorem sum_load_lt (hs : Step exec s s') : ∑ t, load s' t < ∑ t, load s t := by
  obtain ⟨t, ht, hothers⟩ := step_load hs
  refine Finset.sum_lt_sum (fun u _ => ?_) ⟨t, Finset.mem_univ t, ht⟩
  by_cases hut : u = t
  · rw [hut]
    exact ht.le
  · exact (hothers u hut).le

/-- **Every run stops:** from any state the threads reach one in which none can take a step. -/
theorem exists_stopped (exec : Fin n → α → σ → σ) (s : State n σ α) :
    ∃ s', Relation.ReflTransGen (Step exec) s s' ∧ ¬ ∃ s'', Step exec s' s'' := by
  induction hm : ∑ t, load s t using Nat.strongRecOn generalizing s with
  | ind m ih =>
    by_cases hstep : ∃ s', Step exec s s'
    · obtain ⟨s₁, h₁⟩ := hstep
      obtain ⟨s₂, h₂, hstop⟩ := ih _ (hm ▸ sum_load_lt h₁) s₁ rfl
      exact ⟨s₂, .head h₁ h₂, hstop⟩
    · exact ⟨s, .refl, hstep⟩

/-- A thread that can take no step is at its end or sleeps in the current generation. -/
theorem ended_or_counted (hstop : ¬ ∃ s', Step exec s s') (t : Fin n) :
    s.rest t = [] ∧ s.blocked t = none ∨ Counted s t := by
  cases hb : s.blocked t with
  | none =>
    left
    refine ⟨?_, rfl⟩
    cases hr : s.rest t with
    | nil => rfl
    | cons i r =>
      exfalso
      apply hstop
      cases i with
      | op a => exact ⟨_, .op t a r hb hr⟩
      | wait =>
        by_cases hc : s.count + 1 < n
        · exact ⟨_, .arrive t r hb hr hc⟩
        · exact ⟨_, .release t r hb hr (by omega)⟩
  | some g =>
    right
    by_contra hg
    exact hstop ⟨_, .wake t g hb fun h => hg (by rw [Counted, hb, h])⟩

/-- Where the last thread has not arrived, some thread is not counted. -/
theorem Synced.exists_uncounted (h : Synced prog s) : ∃ t, ¬ Counted s t := by
  by_contra hall
  have hfilter : Finset.univ.filter (Counted s) = Finset.univ :=
    Finset.filter_true_of_mem fun t _ => not_not.mp fun hn => hall ⟨t, hn⟩
  have hcard := h.count
  rw [hfilter, Finset.card_univ, Fintype.card_fin] at hcard
  have := h.lt
  omega

/-- In a finished state every thread has passed every generation. -/
theorem Synced.waits_eq (h : Synced prog s) (hfin : Finished s) (t : Fin n) :
    waits (prog t) = s.generation := by
  have ht := h.arrived t
  simpa [(hfin t).1, (hfin t).2, Counted, waits] using ht

/-- **No run gets stuck exactly if all threads wait equally often.** -/
theorem deadlockFree_iff (exec : Fin n → α → σ → σ) (prog : Fin n → List (Instr α)) (x : σ) :
    DeadlockFree exec prog x ↔ ∀ t u, waits (prog t) = waits (prog u) := by
  rcases Nat.eq_zero_or_pos n with rfl | hn
  · exact ⟨fun _ t => t.elim0, fun _ s _ => .inl fun t => t.elim0⟩
  constructor
  · intro h t u
    -- A run that stopped has finished, and then every thread has passed every generation.
    obtain ⟨s, hr, hstop⟩ := exists_stopped exec (init prog x)
    have hs := Reachable.synced hn hr
    have hfin : Finished s := (h s hr).resolve_right hstop
    rw [hs.waits_eq hfin t, hs.waits_eq hfin u]
  · intro h s hr
    have hs := Reachable.synced hn hr
    by_contra hstuck
    rw [not_or] at hstuck
    obtain ⟨hfin, hstop⟩ := hstuck
    have hend := ended_or_counted hstop
    -- Some thread has ended, and one that has not ended sleeps: it has passed one wait more.
    obtain ⟨u, hu⟩ := hs.exists_uncounted
    obtain ⟨t, ht⟩ : ∃ t, Counted s t := by
      by_contra hnone
      exact hfin fun t => (hend t).resolve_right fun hc => hnone ⟨t, hc⟩
    have hrest := ((hend u).resolve_right hu).1
    have h1 := hs.arrived t
    have h2 := hs.arrived u
    rw [if_pos ht] at h1
    rw [if_neg hu, hrest] at h2
    have := h t u
    simp only [waits] at h2
    omega

/-- A run comes through every generation up to its last one. -/
theorem Reachable.exists_generation {x : σ} (hr : Reachable exec prog x s) {g : ℕ}
    (hg : g ≤ s.generation) : ∃ s', Reachable exec prog x s' ∧ s'.generation = g := by
  induction hr with
  | refl => exact ⟨_, .refl, (Nat.le_zero.mp hg).symm⟩
  | @tail s₁ s₂ hreach hstep ih =>
    by_cases hle : g ≤ s₁.generation
    · exact ih hle
    · have hstep' : s₂.generation ≤ s₁.generation + 1 := by
        cases hstep with
        | op t a r hb hr' => exact Nat.le_succ _
        | arrive t r hb hr' hc => exact Nat.le_succ _
        | release t r hb hr' hc => exact Nat.le_refl _
        | wake t g' hb hg' => exact Nat.le_succ _
      exact ⟨s₂, hreach.tail hstep, by omega⟩

/-- Threads that wait equally often reach every generation up to their last wait. -/
theorem exists_reachable_generation (hwaits : ∀ t u, waits (prog t) = waits (prog u)) (x : σ)
    (t : Fin n) {g : ℕ} (hg : g ≤ waits (prog t)) :
    ∃ s, Reachable exec prog x s ∧ s.generation = g := by
  obtain ⟨s, hr, hstop⟩ := exists_stopped exec (init prog x)
  have hfin := ((deadlockFree_iff exec prog x).mpr hwaits s hr).resolve_right hstop
  rw [(Reachable.synced t.pos hr).waits_eq hfin] at hg
  exact Reachable.exists_generation hr hg

/-! ## What holds in a phase -/

/-- The threads have done the operations `done` in the current phase, and have the rest of their
phases ahead. -/
structure Located (prog : Fin n → List (Instr α)) (done : Fin n → List α) (s : State n σ α) :
    Prop where
  current : ∀ t, phase s.generation (prog t) =
    done t ++ if Counted s t then [] else phase 0 (s.rest t)
  later : ∀ t k, phase (s.generation + 1 + k) (prog t) =
    phase (if Counted s t then k else k + 1) (s.rest t)

/-- A step keeps the location, and an invariant of the phases. -/
theorem step_located {I : ℕ → (Fin n → List α) → σ → Prop}
    (hop : ∀ g done y t a r, I g done y → phase g (prog t) = done t ++ a :: r →
      I g (Function.update done t (done t ++ [a])) (exec t a y))
    (hnext : ∀ g y, I g (fun t => phase g (prog t)) y → I (g + 1) (fun _ => []) y)
    (hsync : Synced prog s) {done : Fin n → List α} (hloc : Located prog done s)
    (hI : I s.generation done s.shared) (hstep : Step exec s s') :
    ∃ done', Located prog done' s' ∧ I s'.generation done' s'.shared := by
  cases hstep with
  | op t a r hb hr =>
    have hcur := hloc.current t
    rw [if_neg (by simp [Counted, hb]), hr, phase] at hcur
    refine ⟨Function.update done t (done t ++ [a]), ⟨fun u => ?_, fun u k => ?_⟩,
      hop _ done _ t a _ hI hcur⟩
    · by_cases hut : u = t
      · subst hut
        simp only [Counted, hb, reduceCtorEq, if_false, Function.update_self]
        rw [hcur, List.append_assoc]
        rfl
      · simpa [Counted, hut] using hloc.current u
    · have hlat := hloc.later u k
      by_cases hut : u = t
      · subst hut
        simp only [Counted, hb, reduceCtorEq, if_false, hr, phase] at hlat
        simpa [Counted, hb] using hlat
      · simpa [Counted, hut] using hlat
  | arrive t r hb hr hc =>
    refine ⟨done, ⟨fun u => ?_, fun u k => ?_⟩, hI⟩
    · have hcur := hloc.current u
      by_cases hut : u = t
      · subst hut
        simp only [Counted, hb, reduceCtorEq, if_false, hr, phase] at hcur
        simpa [Counted] using hcur
      · simpa [Counted, hut] using hcur
    · have hlat := hloc.later u k
      by_cases hut : u = t
      · subst hut
        simp only [Counted, hb, reduceCtorEq, if_false, hr, phase] at hlat
        simpa [Counted] using hlat
      · simpa [Counted, hut] using hlat
  | release t r hb hr hc =>
    have hnone := hsync.not_next
    refine ⟨fun _ => [], ⟨fun u => ?_, fun u k => ?_⟩, hnext _ _ ?_⟩
    · have hlat := hloc.later u 0
      simp only [Counted, hnone, if_false, List.nil_append]
      by_cases hut : u = t
      · subst hut
        simp only [Counted, hb, reduceCtorEq, if_false, hr, phase] at hlat
        simpa using hlat
      · rw [if_pos (hsync.others hb hc hut)] at hlat
        simpa [hut] using hlat
    · have hlat := hloc.later u (k + 1)
      rw [show s.generation + 1 + (k + 1) = s.generation + 1 + 1 + k by omega] at hlat
      simp only [Counted, hnone, if_false]
      by_cases hut : u = t
      · subst hut
        simp only [Counted, hb, reduceCtorEq, if_false, hr, phase] at hlat
        simpa using hlat
      · rw [if_pos (hsync.others hb hc hut)] at hlat
        simpa [hut] using hlat
    · -- Every thread has done its whole phase.
      have hdone : (fun u => phase s.generation (prog u)) = done := by
        funext u
        have hcur := hloc.current u
        by_cases hut : u = t
        · subst hut
          simpa [Counted, hb, hr, phase] using hcur
        · rw [if_pos (hsync.others hb hc hut), List.append_nil] at hcur
          exact hcur
      rw [hdone]
      exact hI
  | wake t g hb hg =>
    refine ⟨done, ⟨fun u => ?_, fun u k => ?_⟩, hI⟩
    · simp only [Counted, counted_wake hb hg]
      exact hloc.current u
    · simp only [Counted, counted_wake hb hg]
      exact hloc.later u k

/-- **An invariant of the phases holds in every reachable state.** It may speak of the operations
that each thread has done since the last barrier. One operation keeps it, and when all threads have
done all operations of a phase it holds for the next one. -/
theorem phase_invariant {I : ℕ → (Fin n → List α) → σ → Prop} (hn : 0 < n) {x : σ}
    (hinit : I 0 (fun _ => []) x)
    (hop : ∀ g done y t a r, I g done y → phase g (prog t) = done t ++ a :: r →
      I g (Function.update done t (done t ++ [a])) (exec t a y))
    (hnext : ∀ g y, I g (fun t => phase g (prog t)) y → I (g + 1) (fun _ => []) y)
    (hr : Reachable exec prog x s) :
    ∃ done, Located prog done s ∧ I s.generation done s.shared := by
  induction hr with
  | refl =>
    refine ⟨fun _ => [], ⟨fun t => ?_, fun t k => ?_⟩, hinit⟩
    · simp [init, Counted]
    · simp [init, Counted, Nat.add_comm]
  | tail hreach hstep ih =>
    obtain ⟨done, hloc, hI⟩ := ih
    exact step_located hop hnext (Reachable.synced hn hreach) hloc hI hstep

end

end Fstest.Barrier
