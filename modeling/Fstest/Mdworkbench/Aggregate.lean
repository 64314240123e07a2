import Fstest.Mdworkbench.Ranks
import Mathlib.Algebra.BigOperators.Group.List.Basic
import Mathlib.Algebra.GroupWithZero.Nat
import Mathlib.Algebra.Order.BigOperators.Group.List
import Mathlib.Algebra.Order.Group.Nat
import Mathlib.Order.BoundedOrder.Lattice
import Mathlib.Order.Lattice.Nat

/-!
# What mdworkbench reports of a phase

A rank counts its operations and records how long each has taken (`TimedStat.record`). The report
adds up the counters of the ranks and takes the longest operation of all. It summarizes the samples
of each rank, and those of an aggregate into which no sample is put (`samples_aggregate`).

Durations are the elements of a linear order with a least one, the zero.
-/

namespace Fstest.Mdworkbench

variable {D : Type} [LinearOrder D] [OrderBot D]

/-- The counters of a rank in a phase, with what it records of its operations. -/
structure TimedStat (D : Type) [LinearOrder D] [OrderBot D] extends PhaseStat where
  maxOpTime : D := ⊥
  latCreate : List D := []
  latRead : List D := []
  latStat : List D := []
  latDelete : List D := []

inductive OpKind where
  | create
  | read
  | stat
  | delete
  deriving DecidableEq, Repr

/-- An operation that has taken `dt`. -/
def TimedStat.record (s : TimedStat D) (kind : OpKind) (dt : D) : TimedStat D :=
  let s := if s.maxOpTime < dt then { s with maxOpTime := dt } else s
  match kind with
  | .create => { s with latCreate := s.latCreate ++ [dt] }
  | .read => { s with latRead := s.latRead ++ [dt] }
  | .stat => { s with latStat := s.latStat ++ [dt] }
  | .delete => { s with latDelete := s.latDelete ++ [dt] }

/-- The fields of `lat_json` that are found by comparison. -/
structure LatSummary (D : Type) where
  count : ℕ
  min : D
  max : D
  deriving DecidableEq

def latJson (v : List D) : LatSummary D :=
  let v := v.mergeSort (· ≤ ·)
  { count := v.length, min := v.head?.getD ⊥, max := v.getLast?.getD ⊥ }

/-- The fields that the report has both for a rank and for the aggregate. -/
structure Reported (D : Type) extends PhaseStat where
  opMaxSec : D
  create : LatSummary D
  read : LatSummary D
  stat : LatSummary D
  delete : LatSummary D

def reported (s : TimedStat D) : Reported D where
  toPhaseStat := s.toPhaseStat
  opMaxSec := s.maxOpTime
  create := latJson s.latCreate
  read := latJson s.latRead
  stat := latJson s.latStat
  delete := latJson s.latDelete

/-- The loop of `run` over the ranks of a phase adds the entry `st` to the aggregate. The counters
are of the type `u64`. -/
def aggregateStep (agg st : TimedStat D) : TimedStat D :=
  { agg with
    objCreate := (agg.objCreate + st.objCreate) % 2 ^ 64
    objRead := (agg.objRead + st.objRead) % 2 ^ 64
    objStat := (agg.objStat + st.objStat) % 2 ^ 64
    objDelete := (agg.objDelete + st.objDelete) % 2 ^ 64
    dsetCreate := (agg.dsetCreate + st.dsetCreate) % 2 ^ 64
    dsetDelete := (agg.dsetDelete + st.dsetDelete) % 2 ^ 64
    errors := (agg.errors + st.errors) % 2 ^ 64
    maxOpTime := agg.maxOpTime ⊔ st.maxOpTime }

/-- What the report says of the ranks of a phase. -/
structure PhaseReport (D : Type) where
  aggregate : Reported D
  ranks : List (ℕ × Reported D)

def phaseReport (slot : List (ℕ × TimedStat D)) : PhaseReport D :=
  let entries := slot.mergeSort (fun a b => a.1 ≤ b.1)
  { aggregate := reported (entries.foldl (fun agg e => aggregateStep agg e.2) {})
    ranks := entries.map fun e => (e.1, reported e.2) }

/-! ## The aggregate -/

/-- The counters of a phase. -/
def counters : List (PhaseStat → ℕ) :=
  [PhaseStat.objCreate, PhaseStat.objRead, PhaseStat.objStat, PhaseStat.objDelete,
    PhaseStat.dsetCreate, PhaseStat.dsetDelete, PhaseStat.errors]

/-- The kinds of samples. -/
def sampleKinds : List (TimedStat D → List D) :=
  [TimedStat.latCreate, TimedStat.latRead, TimedStat.latStat, TimedStat.latDelete]

/-- The aggregate over the entries of a phase. -/
def aggregate (slot : List (ℕ × TimedStat D)) : TimedStat D :=
  (slot.mergeSort (fun a b => a.1 ≤ b.1)).foldl (fun agg e => aggregateStep agg e.2) {}

theorem phaseReport_aggregate (slot : List (ℕ × TimedStat D)) :
    (phaseReport slot).aggregate = reported (aggregate slot) := rfl

/-- **The aggregate is the union of the ranks.** -/
structure UnionOfRanks (slot : List (ℕ × TimedStat D)) : Prop where
  counts : ∀ count ∈ counters, count (aggregate slot).toPhaseStat = (slot.map fun e => count e.2.toPhaseStat).sum
  opMax : (∀ e ∈ slot, e.2.maxOpTime ≤ (aggregate slot).maxOpTime) ∧
    (slot ≠ [] → ∃ e ∈ slot, (aggregate slot).maxOpTime = e.2.maxOpTime)
  latency : ∀ kind ∈ sampleKinds, latJson (kind (aggregate slot)) = latJson (slot.flatMap fun e => kind e.2)
  sampleCount : ∀ kind ∈ sampleKinds,
    (latJson (kind (aggregate slot))).count = (slot.map fun e => (latJson (kind e.2)).count).sum

/-- The loop adds up a counter, in a word. -/
theorem foldl_count {count : PhaseStat → ℕ}
    (hstep : ∀ agg st : TimedStat D, count (aggregateStep agg st).toPhaseStat =
      (count agg.toPhaseStat + count st.toPhaseStat) % 2 ^ 64)
    (entries : List (ℕ × TimedStat D)) (agg : TimedStat D) (hagg : count agg.toPhaseStat < 2 ^ 64) :
    count (entries.foldl (fun agg e => aggregateStep agg e.2) agg).toPhaseStat =
      (count agg.toPhaseStat + (entries.map fun e => count e.2.toPhaseStat).sum) % 2 ^ 64 := by
  induction entries generalizing agg with
  | nil => exact (Nat.mod_eq_of_lt hagg).symm
  | cons e entries ih =>
    have hlt : count (aggregateStep agg e.2).toPhaseStat < 2 ^ 64 := by
      rw [hstep]
      exact Nat.mod_lt _ (by decide)
    rw [List.foldl_cons, ih _ hlt, hstep, Nat.mod_add_mod, List.map_cons, List.sum_cons, Nat.add_assoc]

/-- **No samples are put into the aggregate.** -/
theorem foldl_samples {kind : TimedStat D → List D} (hkind : kind ∈ sampleKinds)
    (entries : List (ℕ × TimedStat D)) (agg : TimedStat D) :
    kind (entries.foldl (fun agg e => aggregateStep agg e.2) agg) = kind agg := by
  have hstep : ∀ agg st, kind (aggregateStep agg st) = kind agg := by
    intro agg st
    simp only [sampleKinds, List.mem_cons, List.not_mem_nil, or_false] at hkind
    rcases hkind with rfl | rfl | rfl | rfl <;> rfl
  induction entries generalizing agg with
  | nil => rfl
  | cons e entries ih => rw [List.foldl_cons, ih, hstep]

theorem le_foldl_maxOpTime (entries : List (ℕ × TimedStat D)) (agg : TimedStat D) :
    agg.maxOpTime ≤ (entries.foldl (fun agg e => aggregateStep agg e.2) agg).maxOpTime ∧
    ∀ e ∈ entries,
      e.2.maxOpTime ≤ (entries.foldl (fun agg e => aggregateStep agg e.2) agg).maxOpTime := by
  induction entries generalizing agg with
  | nil => exact ⟨le_refl _, fun e he => by cases he⟩
  | cons e entries ih =>
    obtain ⟨hagg, hrest⟩ := ih (aggregateStep agg e.2)
    refine ⟨le_sup_left.trans hagg, fun e' he' => ?_⟩
    rcases List.mem_cons.mp he' with rfl | he'
    · exact le_sup_right.trans hagg
    · exact hrest e' he'

/-- The longest operation is that of some entry, or what the loop has started with. -/
theorem foldl_maxOpTime_mem (entries : List (ℕ × TimedStat D)) (agg : TimedStat D) :
    (entries.foldl (fun agg e => aggregateStep agg e.2) agg).maxOpTime = agg.maxOpTime ∨
    ∃ e ∈ entries,
      (entries.foldl (fun agg e => aggregateStep agg e.2) agg).maxOpTime = e.2.maxOpTime := by
  induction entries generalizing agg with
  | nil => exact .inl rfl
  | cons e entries ih =>
    rcases ih (aggregateStep agg e.2) with h | ⟨e', he', h⟩
    · have hstep : (aggregateStep agg e.2).maxOpTime = agg.maxOpTime ⊔ e.2.maxOpTime := rfl
      rw [List.foldl_cons, h, hstep]
      rcases LinearOrder.le_total agg.maxOpTime e.2.maxOpTime with hle | hle
      · exact .inr ⟨e, List.mem_cons_self, sup_eq_right.mpr hle⟩
      · exact .inl (sup_eq_left.mpr hle)
    · exact .inr ⟨e', List.mem_cons_of_mem e he', h⟩

theorem count_aggregate {count : PhaseStat → ℕ} (h : count ∈ counters)
    (slot : List (ℕ × TimedStat D)) :
    count (aggregate slot).toPhaseStat = (slot.map fun e => count e.2.toPhaseStat).sum % 2 ^ 64 := by
  have hstep : ∀ agg st : TimedStat D, count (aggregateStep agg st).toPhaseStat =
      (count agg.toPhaseStat + count st.toPhaseStat) % 2 ^ 64 := by
    intro agg st
    simp only [counters, List.mem_cons, List.not_mem_nil, or_false] at h
    rcases h with rfl | rfl | rfl | rfl | rfl | rfl | rfl <;> rfl
  have hzero : count ({} : TimedStat D).toPhaseStat = 0 := by
    simp only [counters, List.mem_cons, List.not_mem_nil, or_false] at h
    rcases h with rfl | rfl | rfl | rfl | rfl | rfl | rfl <;> rfl
  rw [aggregate, foldl_count hstep _ _ (by rw [hzero]; decide), hzero, Nat.zero_add,
    ((List.mergeSort_perm slot _).map _).sum_eq]

theorem samples_aggregate {kind : TimedStat D → List D} (h : kind ∈ sampleKinds)
    (slot : List (ℕ × TimedStat D)) : kind (aggregate slot) = [] := by
  rw [aggregate, foldl_samples h]
  simp only [sampleKinds, List.mem_cons, List.not_mem_nil, or_false] at h
  rcases h with rfl | rfl | rfl | rfl <;> rfl

/-- **The aggregate has the longest operation of the ranks.** -/
theorem maxOpTime_aggregate (slot : List (ℕ × TimedStat D)) :
    (∀ e ∈ slot, e.2.maxOpTime ≤ (aggregate slot).maxOpTime) ∧
    (slot ≠ [] → ∃ e ∈ slot, (aggregate slot).maxOpTime = e.2.maxOpTime) := by
  have hle : ∀ e ∈ slot, e.2.maxOpTime ≤ (aggregate slot).maxOpTime := fun e he =>
    (le_foldl_maxOpTime _ _).2 e (List.mem_mergeSort.mpr he)
  refine ⟨hle, fun hne => ?_⟩
  rcases foldl_maxOpTime_mem (slot.mergeSort (fun a b => a.1 ≤ b.1)) {} with h | ⟨e, he, h⟩
  · -- No operation has taken any time.
    obtain ⟨e, he⟩ := List.exists_mem_of_ne_nil slot hne
    have hbot : (aggregate slot).maxOpTime = ⊥ := h
    refine ⟨e, he, ?_⟩
    rw [hbot, eq_comm, ← le_bot_iff, ← hbot]
    exact hle e he
  · exact ⟨e, List.mem_mergeSort.mp he, h⟩

theorem latJson_count (v : List D) : (latJson v).count = v.length := List.length_mergeSort v

/-- **When the aggregate is the union of the ranks**: if they have taken no samples, and the sums fit
in a word. -/
theorem unionOfRanks_iff (slot : List (ℕ × TimedStat D)) :
    UnionOfRanks slot ↔
      (∀ count ∈ counters, (slot.map fun e => count e.2.toPhaseStat).sum < 2 ^ 64) ∧
      ∀ e ∈ slot, ∀ kind ∈ sampleKinds, kind e.2 = [] := by
  constructor
  · intro h
    refine ⟨fun count hcount => ?_, fun e he kind hkind => ?_⟩
    · rw [← h.counts count hcount, count_aggregate hcount]
      exact Nat.mod_lt _ (by decide)
    · have hsum := h.sampleCount kind hkind
      rw [samples_aggregate hkind, latJson_count, List.length_nil, eq_comm, List.sum_eq_zero_iff] at hsum
      have hzero := hsum _ (List.mem_map_of_mem he)
      rw [latJson_count] at hzero
      exact List.length_eq_zero_iff.mp hzero
  · rintro ⟨hfits, hnone⟩
    refine ⟨fun count hcount => ?_, maxOpTime_aggregate slot, fun kind hkind => ?_, fun kind hkind => ?_⟩
    · rw [count_aggregate hcount, Nat.mod_eq_of_lt (hfits count hcount)]
    · rw [samples_aggregate hkind, List.flatMap_eq_nil_iff.mpr fun e he => hnone e he kind hkind]
    · rw [samples_aggregate hkind, latJson_count, List.length_nil, eq_comm, List.sum_eq_zero_iff]
      intro k hk
      obtain ⟨e, he, rfl⟩ := List.mem_map.mp hk
      rw [latJson_count, hnone e he kind hkind, List.length_nil]

/-- **One rank with one operation**: the rank has a sample, and the aggregate has none. -/
theorem aggregate_without_samples :
    (phaseReport [(0, ({} : TimedStat ℕ).record .create 5)]).aggregate.create.count = 0 ∧
    (phaseReport [(0, ({} : TimedStat ℕ).record .create 5)]).ranks.map (fun r => r.2.create.count) = [1] ∧
    ¬ UnionOfRanks [(0, ({} : TimedStat ℕ).record .create 5)] := by
  have hkind : (TimedStat.latCreate : TimedStat ℕ → List ℕ) ∈ sampleKinds := List.mem_cons_self
  have hnone := samples_aggregate hkind [(0, ({} : TimedStat ℕ).record .create 5)]
  refine ⟨?_, ?_, fun h => ?_⟩
  · rw [phaseReport_aggregate, reported, hnone, latJson_count]
    rfl
  · simp [phaseReport, reported, latJson_count, TimedStat.record]
  · have hsum := h.sampleCount _ hkind
    rw [hnone] at hsum
    simp [latJson_count, TimedStat.record] at hsum

end Fstest.Mdworkbench
