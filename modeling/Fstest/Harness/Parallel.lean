import Fstest.Lib.Threads
import Fstest.Lib.Total

/-!
# Items that are run in parallel

sqlite, git and stdfs give the numbers of their items to the workers of `run_parallel` by a counter. Each
worker takes the next number, runs the item, and stores the result in its place. Under every interleaving of
these steps the workers end, every item has been run once, and the results are in the order of the items
(`runParallel_exactly_once`).
-/

namespace Fstest

namespace Harness

variable {R : Type}

/-- A worker: the step that it takes next. -/
inductive Worker (R : Type) where
  | fetch
  | call (i : ℕ)
  | store (i : ℕ) (r : R)
  | ended

namespace Worker

/-- The item that a worker has. -/
def item : Worker R → Option ℕ
  | call i => some i
  | store i _ => some i
  | _ => none

/-- How many steps of a worker remain, but for the items that it does not have yet. -/
def remaining : Worker R → ℕ
  | fetch => 1
  | call _ => 3
  | store _ _ => 2
  | ended => 0

end Worker

/-- What the workers share, and the calls that they have made. -/
structure Pool (R : Type) (jobs : ℕ) where
  next : ℕ
  out : List (Option R)
  worker : Fin jobs → Worker R
  calls : List ℕ

namespace Pool

variable {n jobs : ℕ} {f : ℕ → R} {s s' : Pool R jobs} {t : Fin jobs} {i : ℕ}

def start (n jobs : ℕ) : Pool R jobs where
  next := 0
  out := (List.range n).map fun _ => none
  worker := fun _ => .fetch
  calls := []

def goTo (s : Pool R jobs) (t : Fin jobs) (w : Worker R) : Pool R jobs :=
  { s with worker := Function.update s.worker t w }

/-- The next step of a worker. It panics if the place of its result does not exist. -/
def step (n : ℕ) (f : ℕ → R) (s : Pool R jobs) (t : Fin jobs) : Option (Pool R jobs) :=
  match s.worker t with
  | .fetch => some ({ s with next := s.next + 1 }.goTo t (if n ≤ s.next then .ended else .call s.next))
  | .call i => some ({ s with calls := s.calls ++ [i] }.goTo t (.store i (f i)))
  | .store i r =>
    if i < s.out.length then some ({ s with out := s.out.set i (some r) }.goTo t .fetch) else none
  | .ended => none

def Ended (s : Pool R jobs) : Prop := ∀ t, s.worker t = .ended

/-- The vector that is returned, unless an `expect` fails. -/
def result (s : Pool R jobs) : Option (List R) := s.out.mapM id

end Pool

/-- All runs of `run_parallel` end, with a result and with calls of which `Q` holds. -/
def runParallel (n jobs : ℕ) (f : ℕ → R) (Q : Option (List R) → List ℕ → Prop) : Prop :=
  Inevitable (Pool.step n f) (fun s => s.Ended ∧ Q s.result s.calls) (Pool.start n (max jobs 1))

/-! ## The steps -/

namespace Pool

variable {n jobs : ℕ} {f : ℕ → R} {s s' : Pool R jobs} {t u : Fin jobs} {i : ℕ} {r : R} {w : Worker R}

theorem worker_goTo_self : (s.goTo t w).worker t = w := Function.update_self ..

theorem worker_goTo_of_ne (h : u ≠ t) : (s.goTo t w).worker u = s.worker u := Function.update_of_ne h ..

/-- What holds of all workers after a step of `t`. -/
theorem forall_goTo {P : Worker R → Prop} (ht : P w) (h : ∀ u, u ≠ t → P (s.worker u)) (u : Fin jobs) :
    P ((s.goTo t w).worker u) := by
  by_cases hu : u = t
  · subst hu
    rwa [worker_goTo_self]
  · rw [worker_goTo_of_ne hu]
    exact h u hu

/-- What holds of some worker, and still does after a step of `t`, unless it was of `t` that it held. -/
theorem exists_goTo {P : Worker R → Prop} {Q : Prop} (h : ∃ u, P (s.worker u))
    (ht : P (s.worker t) → P w ∨ Q) : (∃ u, P ((s.goTo t w).worker u)) ∨ Q := by
  obtain ⟨u, hu⟩ := h
  by_cases hut : u = t
  · subst hut
    exact (ht hu).imp_left fun hw => ⟨u, by rwa [worker_goTo_self]⟩
  · exact .inl ⟨u, by rwa [worker_goTo_of_ne hut]⟩

theorem step_cases (h : step n f s t = some s') :
    (s.worker t = .fetch ∧ n ≤ s.next ∧ s' = { s with next := s.next + 1 }.goTo t .ended) ∨
    (s.worker t = .fetch ∧ s.next < n ∧ s' = { s with next := s.next + 1 }.goTo t (.call s.next)) ∨
    (∃ i, s.worker t = .call i ∧ s' = { s with calls := s.calls ++ [i] }.goTo t (.store i (f i))) ∨
    (∃ i r, s.worker t = .store i r ∧ s' = { s with out := s.out.set i (some r) }.goTo t .fetch) := by
  cases hw : s.worker t with
  | fetch =>
    simp only [step, hw] at h
    split at h
    · rename_i hle
      exact .inl ⟨rfl, hle, (Option.some.inj h).symm⟩
    · rename_i hlt
      exact .inr (.inl ⟨rfl, not_le.mp hlt, (Option.some.inj h).symm⟩)
  | call i =>
    simp only [step, hw] at h
    exact .inr (.inr (.inl ⟨i, rfl, (Option.some.inj h).symm⟩))
  | store i r =>
    simp only [step, hw] at h
    split at h
    · exact .inr (.inr (.inr ⟨i, r, rfl, (Option.some.inj h).symm⟩))
    · cases h
  | ended =>
    simp only [step, hw] at h
    cases h

end Pool

/-! ## The invariant -/

/-- What is known of a worker, from the counter and the calls. -/
structure Worker.Ok (n : ℕ) (f : ℕ → R) (next : ℕ) (calls : List ℕ) (w : Worker R) : Prop where
  item_lt : ∀ i, w.item = some i → i < next ∧ i < n
  result : ∀ i r, w = .store i r → r = f i
  not_called : ∀ i, w = .call i → i ∉ calls
  ended : w = .ended → n ≤ next

/-- The counter goes on. -/
theorem Worker.Ok.succ {n next : ℕ} {f : ℕ → R} {calls : List ℕ} {w : Worker R} (h : w.Ok n f next calls) :
    w.Ok n f (next + 1) calls where
  item_lt := fun i hi => ⟨Nat.lt_succ_of_lt (h.item_lt i hi).1, (h.item_lt i hi).2⟩
  result := h.result
  not_called := h.not_called
  ended := fun he => Nat.le_succ_of_le (h.ended he)

namespace Pool

variable {n jobs : ℕ} {f : ℕ → R} {s s' : Pool R jobs} {t u : Fin jobs} {i : ℕ} {r : R} {w : Worker R}

/-- Each number below the counter is the item of one worker, or its result has been stored. It has been
called, or a worker is going to. -/
structure Inv (n : ℕ) (f : ℕ → R) (s : Pool R jobs) : Prop where
  length_out : s.out.length = n
  worker : ∀ u, (s.worker u).Ok n f s.next s.calls
  item_inj : ∀ u v i, (s.worker u).item = some i → (s.worker v).item = some i → u = v
  stored : ∀ i < s.next, i < n → (∃ u, (s.worker u).item = some i) ∨ s.out[i]? = some (some (f i))
  nodup_calls : s.calls.Nodup
  calls_lt : ∀ i ∈ s.calls, i < s.next ∧ i < n
  called : ∀ i < s.next, i < n → (∃ u, s.worker u = .call i) ∨ i ∈ s.calls

theorem inv_start (n jobs : ℕ) (f : ℕ → R) : (start n jobs : Pool R jobs).Inv n f where
  length_out := by rw [start, List.length_map, List.length_range]
  worker := fun _ =>
    ⟨fun _ h => (by cases h), fun _ _ h => (by cases h), fun _ h => (by cases h), fun h => (by cases h)⟩
  item_inj := fun _ _ _ h => by cases h
  stored := fun i hi => absurd hi (Nat.not_lt_zero i)
  nodup_calls := List.nodup_nil
  calls_lt := fun _ h => absurd h List.not_mem_nil
  called := fun i hi => absurd hi (Nat.not_lt_zero i)

/-- The items stay different if no other worker has that of `w`. -/
theorem Inv.item_inj_goTo (h : s.Inv n f)
    (hw : ∀ i, w.item = some i → ∀ u, u ≠ t → (s.worker u).item ≠ some i) :
    ∀ u v i, ((s.goTo t w).worker u).item = some i → ((s.goTo t w).worker v).item = some i → u = v := by
  intro u v i hu hv
  by_cases hut : u = t
  · by_cases hvt : v = t
    · rw [hut, hvt]
    · rw [hut, worker_goTo_self] at hu
      rw [worker_goTo_of_ne hvt] at hv
      exact absurd hv (hw i hu v hvt)
  · by_cases hvt : v = t
    · rw [hvt, worker_goTo_self] at hv
      rw [worker_goTo_of_ne hut] at hu
      exact absurd hu (hw i hv u hut)
    · rw [worker_goTo_of_ne hut] at hu
      rw [worker_goTo_of_ne hvt] at hv
      exact h.item_inj u v i hu hv

/-- The counter is past the items. -/
theorem Inv.fetch_end (h : s.Inv n f) (hw : s.worker t = .fetch) (hle : n ≤ s.next) :
    ({ s with next := s.next + 1 }.goTo t .ended).Inv n f where
  length_out := h.length_out
  worker := by
    refine forall_goTo (P := fun w => w.Ok n f (s.next + 1) s.calls) ?_ fun u _ => ?_
    · exact ⟨fun _ hi => (by cases hi), fun _ _ hr => (by cases hr), fun _ hc => (by cases hc),
        fun _ => by omega⟩
    · exact (h.worker u).succ
  item_inj := h.item_inj_goTo fun _ hi => by cases hi
  stored := by
    intro i _ hi
    rcases h.stored i (by omega) hi with hhas | hout
    · exact exists_goTo (P := fun w => w.item = some i) hhas fun hit => by rw [hw] at hit; cases hit
    · exact .inr hout
  nodup_calls := h.nodup_calls
  calls_lt := fun i hi => ⟨Nat.lt_succ_of_lt (h.calls_lt i hi).1, (h.calls_lt i hi).2⟩
  called := by
    intro i _ hi
    rcases h.called i (by omega) hi with hhas | hmem
    · exact exists_goTo (P := fun w => w = .call i) hhas fun hit => by rw [hw] at hit; cases hit
    · exact .inr hmem

/-- The worker takes the next item. -/
theorem Inv.fetch_call (h : s.Inv n f) (hw : s.worker t = .fetch) (hlt : s.next < n) :
    ({ s with next := s.next + 1 }.goTo t (.call s.next)).Inv n f where
  length_out := h.length_out
  worker := by
    refine forall_goTo (P := fun w => w.Ok n f (s.next + 1) s.calls) ?_ fun u _ => ?_
    · refine ⟨fun i hi => ?_, fun _ _ hr => (by cases hr), fun i hc hmem => ?_, fun he => (by cases he)⟩
      · obtain rfl : s.next = i := Option.some.inj hi
        exact ⟨Nat.lt_succ_self _, hlt⟩
      · obtain rfl : s.next = i := by injection hc
        exact lt_irrefl _ (h.calls_lt _ hmem).1
    · exact (h.worker u).succ
  item_inj := by
    refine h.item_inj_goTo fun i hi u _ hu => ?_
    obtain rfl : s.next = i := Option.some.inj hi
    exact lt_irrefl _ ((h.worker u).item_lt _ hu).1
  stored := by
    intro i hnext hi
    rcases Nat.lt_succ_iff_lt_or_eq.mp hnext with hlt' | rfl
    · rcases h.stored i hlt' hi with hhas | hout
      · exact exists_goTo (P := fun w => w.item = some i) hhas fun hit => by rw [hw] at hit; cases hit
      · exact .inr hout
    · exact .inl ⟨t, by rw [worker_goTo_self]; rfl⟩
  nodup_calls := h.nodup_calls
  calls_lt := fun i hi => ⟨Nat.lt_succ_of_lt (h.calls_lt i hi).1, (h.calls_lt i hi).2⟩
  called := by
    intro i hnext hi
    rcases Nat.lt_succ_iff_lt_or_eq.mp hnext with hlt' | rfl
    · rcases h.called i hlt' hi with hhas | hmem
      · exact exists_goTo (P := fun w => w = .call i) hhas fun hit => by rw [hw] at hit; cases hit
      · exact .inr hmem
    · exact .inl ⟨t, worker_goTo_self⟩

/-- No other worker has the item of `t`. -/
theorem Inv.item_ne (h : s.Inv n f) (ht : (s.worker t).item = some i) (hu : u ≠ t) :
    (s.worker u).item ≠ some i := fun hit => hu (h.item_inj u t i hit ht)

/-- The worker runs its item. -/
theorem Inv.call (h : s.Inv n f) (hw : s.worker t = .call i) :
    ({ s with calls := s.calls ++ [i] }.goTo t (.store i (f i))).Inv n f where
  length_out := h.length_out
  worker := by
    refine forall_goTo (P := fun w => w.Ok n f s.next (s.calls ++ [i])) ?_ fun u hu => ?_
    · refine ⟨fun j hj => ?_, fun j r hr => ?_, fun _ hc => (by cases hc), fun he => (by cases he)⟩
      · exact (h.worker t).item_lt j (by rw [hw]; exact hj)
      · cases hr
        rfl
    · refine ⟨(h.worker u).item_lt, (h.worker u).result, fun j hj hmem => ?_, (h.worker u).ended⟩
      rcases List.mem_append.mp hmem with hmem | hmem
      · exact (h.worker u).not_called j hj hmem
      · obtain rfl : j = i := List.mem_singleton.mp hmem
        exact h.item_ne (by rw [hw]; rfl) hu (by rw [hj]; rfl)
  item_inj := h.item_inj_goTo fun j hj _ hu => h.item_ne (by rw [hw]; exact hj) hu
  stored := by
    intro j hnext hj
    rcases h.stored j hnext hj with hhas | hout
    · exact exists_goTo (P := fun w => w.item = some j) hhas fun hit => .inl (by rw [hw] at hit; exact hit)
    · exact .inr hout
  nodup_calls := h.nodup_calls.append (List.nodup_singleton i)
    (List.disjoint_singleton.mpr ((h.worker t).not_called i hw))
  calls_lt := by
    intro j hj
    rcases List.mem_append.mp hj with hj | hj
    · exact h.calls_lt j hj
    · obtain rfl : j = i := List.mem_singleton.mp hj
      exact (h.worker t).item_lt j (by rw [hw]; rfl)
  called := by
    intro j hnext hj
    rcases h.called j hnext hj with hhas | hmem
    · refine exists_goTo (P := fun w => w = .call j) hhas fun hit => .inr ?_
      obtain rfl : i = j := by rw [hw] at hit; injection hit
      exact List.mem_append_right _ (List.mem_singleton_self i)
    · exact .inr (List.mem_append_left _ hmem)

/-- The worker stores its result. -/
theorem Inv.store (h : s.Inv n f) (hw : s.worker t = .store i r) :
    ({ s with out := s.out.set i (some r) }.goTo t .fetch).Inv n f where
  length_out := by
    change (s.out.set i (some r)).length = n
    rw [List.length_set, h.length_out]
  worker := by
    refine forall_goTo (P := fun w => w.Ok n f s.next s.calls) ?_ fun u _ => h.worker u
    exact ⟨fun _ hi => (by cases hi), fun _ _ hr => (by cases hr), fun _ hc => (by cases hc),
      fun he => (by cases he)⟩
  item_inj := h.item_inj_goTo fun _ hi => by cases hi
  stored := by
    intro j hnext hj
    have hset : (s.out.set i (some r))[i]? = some (some (f i)) := by
      have hlt : i < s.out.length := by
        rw [h.length_out]
        exact ((h.worker t).item_lt i (by rw [hw]; rfl)).2
      rw [List.getElem?_set_self hlt, (h.worker t).result i r hw]
    rcases h.stored j hnext hj with hhas | hout
    · refine exists_goTo (P := fun w => w.item = some j) hhas fun hit => .inr ?_
      obtain rfl : i = j := by rw [hw] at hit; exact Option.some.inj hit
      exact hset
    · refine .inr ?_
      change (s.out.set i (some r))[j]? = _
      by_cases hij : i = j
      · rw [← hij, hset]
      · rw [List.getElem?_set_ne hij, hout]
  nodup_calls := h.nodup_calls
  calls_lt := h.calls_lt
  called := by
    intro j hnext hj
    rcases h.called j hnext hj with hhas | hmem
    · exact exists_goTo (P := fun w => w = .call j) hhas fun hit => by rw [hw] at hit; cases hit
    · exact .inr hmem

/-! ## The run -/

theorem Inv.step (h : s.Inv n f) (hs : step n f s t = some s') : s'.Inv n f := by
  rcases step_cases hs with ⟨hw, hle, rfl⟩ | ⟨hw, hlt, rfl⟩ | ⟨i, hw, rfl⟩ | ⟨i, r, hw, rfl⟩
  · exact h.fetch_end hw hle
  · exact h.fetch_call hw hlt
  · exact h.call hw
  · exact h.store hw

/-- How many steps the workers take at most. -/
def todo (n : ℕ) (s : Pool R jobs) : ℕ := 3 * (n - s.next) + ∑ t, (s.worker t).remaining

/-- The other workers keep what they have to do. -/
theorem todo_lt {s s' : Pool R jobs} {t : Fin jobs} {w : Worker R}
    (hs' : s'.worker = Function.update s.worker t w)
    (h : 3 * (n - s'.next) + w.remaining < 3 * (n - s.next) + (s.worker t).remaining) :
    todo n s' < todo n s := by
  have hsum := sum_update Worker.remaining s.worker t w
  rw [todo, todo, hs']
  omega

theorem todo_step (hs : Pool.step n f s t = some s') : todo n s' < todo n s := by
  rcases step_cases hs with ⟨hw, hle, rfl⟩ | ⟨hw, hlt, rfl⟩ | ⟨i, hw, rfl⟩ | ⟨i, r, hw, rfl⟩
  · refine todo_lt rfl ?_
    rw [hw]
    simp only [goTo, Worker.remaining]
    omega
  · refine todo_lt rfl ?_
    rw [hw]
    simp only [goTo, Worker.remaining]
    omega
  · refine todo_lt rfl ?_
    rw [hw]
    exact Nat.lt_succ_self _
  · refine todo_lt rfl ?_
    rw [hw]
    exact Nat.lt_succ_self _

/-- No worker panics: one that has not ended can go on. -/
theorem Inv.live (h : s.Inv n f) (hw : s.worker t ≠ .ended) : ∃ s', Pool.step n f s t = some s' := by
  rw [Pool.step]
  cases hcase : s.worker t with
  | fetch => exact ⟨_, rfl⟩
  | call i => exact ⟨_, rfl⟩
  | store i r =>
    have hlt : i < s.out.length := by
      rw [h.length_out]
      exact ((h.worker t).item_lt i (by rw [hcase]; rfl)).2
    exact ⟨_, if_pos hlt⟩
  | ended => exact absurd hcase hw

/-- What is known when the workers have ended. -/
theorem Inv.exactly_once (h : s.Inv n f) (hend : s.Ended) (hjobs : 0 < jobs) :
    s.result = some ((List.range n).map f) ∧ s.calls.Perm (List.range n) := by
  have hnext : n ≤ s.next := (h.worker ⟨0, hjobs⟩).ended (hend _)
  have hout : s.out = ((List.range n).map f).map some := by
    refine List.ext_getElem? fun i => ?_
    by_cases hi : i < n
    · rcases h.stored i (by omega) hi with ⟨u, hu⟩ | hout
      · rw [hend u] at hu
        cases hu
      · rw [hout, List.getElem?_map, List.getElem?_map, List.getElem?_range hi]
        rfl
    · rw [List.getElem?_eq_none (by rw [h.length_out]; omega),
        List.getElem?_eq_none (by rw [List.length_map, List.length_map, List.length_range]; omega)]
  refine ⟨?_, ?_⟩
  · rw [result, hout, List.mapM_map]
    exact (List.mapM_pure (m := Option)).trans (by rw [List.map_id']; rfl)
  · rw [List.perm_ext_iff_of_nodup h.nodup_calls List.nodup_range]
    intro i
    rw [List.mem_range]
    refine ⟨fun hi => (h.calls_lt i hi).2, fun hi => ?_⟩
    rcases h.called i (by omega) hi with ⟨u, hu⟩ | hmem
    · rw [hend u] at hu
      cases hu
    · exact hmem

end Pool

/-- **Every item is run once, and the results are in order**, whatever the workers' steps are. -/
theorem exactly_once (n jobs : ℕ) (f : ℕ → R) :
    runParallel n jobs f fun result calls =>
      result = some ((List.range n).map f) ∧ calls.Perm (List.range n) := by
  refine Inevitable.of_invariant (I := Pool.Inv n f) (m := Pool.todo n) (Pool.inv_start n _ f) ?_ ?_
  · intro s h hnot
    by_contra hstuck
    have hend : s.Ended := by
      intro t
      by_contra hw
      obtain ⟨s', hs'⟩ := h.live hw
      exact hstuck ⟨t, s', hs'⟩
    exact hnot ⟨hend, h.exactly_once hend (by omega)⟩
  · exact fun s t s' h hs => ⟨h.step hs, Pool.todo_step hs⟩

end Harness

/-! ## The copies -/

def Mptest.runParallel {R : Type} :
    (n jobs : ℕ) → (f : ℕ → R) → (Q : Option (List R) → List ℕ → Prop) → Prop := Harness.runParallel

def Git.runParallel {R : Type} :
    (n jobs : ℕ) → (f : ℕ → R) → (Q : Option (List R) → List ℕ → Prop) → Prop := Harness.runParallel

def Stdfs.runParallel {R : Type} :
    (n jobs : ℕ) → (f : ℕ → R) → (Q : Option (List R) → List ℕ → Prop) → Prop := Harness.runParallel

/-- The workers of the three suites. -/
theorem runParallel_exactly_once {R : Type} (n jobs : ℕ) (f : ℕ → R) :
    let Q (result : Option (List R)) (calls : List ℕ) : Prop :=
      result = some ((List.range n).map f) ∧ calls.Perm (List.range n)
    Mptest.runParallel n jobs f Q ∧ Git.runParallel n jobs f Q ∧ Stdfs.runParallel n jobs f Q :=
  ⟨Harness.exactly_once n jobs f, Harness.exactly_once n jobs f, Harness.exactly_once n jobs f⟩

end Fstest
