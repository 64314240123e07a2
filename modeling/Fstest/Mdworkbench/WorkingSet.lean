import Fstest.Mdworkbench.Window

/-!
# The working set of mdworkbench

`WorkingSet` says what the first-in first-out working set of a whole run promises, for every
interleaving of the ranks between their barriers. `workingSet_iff` is the exact condition on the
parameters: the shift between readers and writers must not wrap around for some of the ranks only.
-/

namespace Fstest.Mdworkbench

open Barrier Entries

/-- A run of all phases from the first object on, with as many objects as an iteration needs. -/
structure Params.Whole (p : Params) : Prop where
  precreates : p.phasePrecreate = true
  benchmarks : p.phaseBenchmark = true
  cleans : p.phaseCleanup = true
  start : p.startItem = 0
  num_le : p.num ≤ p.precreate

/-- What the working set promises for a run. Barrier generation `2 * (k + 1)` lies between the
iteration number `k` of the benchmark and the phase that follows it. -/
structure WorkingSet (p : Params) : Prop where
  /-- Every operation that a rank is about to do finds what it needs. -/
  finds : ∀ s, p.Reaches s → ∀ t a r, s.blocked t = none → s.rest t = .op a :: r →
    Finds { x | x ∈ s.shared.entries } a
  /-- Every object holds its own contents. -/
  content : ∀ s, p.Reaches s → ∀ rank d i, .obj rank d i ∈ s.shared.entries →
    s.shared.content (.obj rank d i) = p.pattern rank d i
  errors : ∀ s, p.Reaches s → ∀ t, (s.shared.ranks t).stat.errors = 0 ∧
    ∀ c ∈ (s.shared.ranks t).slots, c.errors = 0
  window : ∀ s, p.Reaches s → ∀ k ≤ p.iterations, s.generation = 2 * (k + 1) →
    ∀ x, x ∈ s.shared.entries ↔ x ∈ p.window (p.firstObject k)
  empty : ∀ s, p.Reaches s → Finished s → s.shared.entries = ∅
  ends : DeadlockFree p.exec (fun t => p.rankProgram t) p.emptyStore
  /-- No entry is made, or removed, by two ranks. -/
  owner : ∀ t u : Fin p.threads, ∀ a b, .op a ∈ p.rankProgram t → .op b ∈ p.rankProgram u → ∀ x,
    effects.adds a = some x ∧ effects.adds b = some x ∨
      effects.removes a = some x ∧ effects.removes b = some x → t = u

namespace Params

variable {p : Params}

/-! ## The phases of a run -/

/-- What rank 0 does at the very end. -/
def lastActs (p : Params) (rank : ℕ) : List Act :=
  if p.phaseCleanup ∧ rank = 0 then [.removePrefix] else []

theorem rankProgram_eq (rank : ℕ) : p.rankProgram rank =
    ((p.phases rank).map phaseBody).flatMap round ++ (p.lastActs rank).map .op := by
  rw [rankProgram, lastActs, List.flatMap_map]
  congr 1
  split <;> rfl

theorem phases_eq (h : p.Whole) (rank : ℕ) : p.phases rank = p.precreateRank rank 0 ::
    ((List.range p.iterations).map fun k => p.benchmarkRank rank (p.firstObject k % 2 ^ 64)) ++
      [p.cleanupRank rank (p.firstObject p.iterations % 2 ^ 64)] := by
  simp only [phases, h.precreates, h.benchmarks, h.cleans, h.start, if_true, currentIndex_eq h.start]
  rfl

theorem length_phases (h : p.Whole) (rank : ℕ) : (p.phases rank).length = p.iterations + 2 := by
  simp [phases_eq h]

theorem waits_rankProgram (h : p.Whole) (rank : ℕ) :
    waits (p.rankProgram rank) = 2 * (p.iterations + 2) := by
  rw [rankProgram_eq, waits_rounds, List.length_map, length_phases h]

/-- The entries at the start of phase `j`. -/
def boundary (p : Params) : ℕ → Set Entry
  | 0 => ∅
  | k + 1 => if k ≤ p.iterations then p.window (p.firstObject k) else ∅

/-- The operations of the ranks in a barrier generation. -/
abbrev acts (p : Params) (g : ℕ) (t : Fin p.threads) : List Act := phase g (p.rankProgram t)

theorem acts_even (h : p.Whole) (j : ℕ) (t : Fin p.threads) :
    p.acts (2 * j) t = if j = p.iterations + 2 then p.lastActs t else [] := by
  rw [acts, rankProgram_eq, phase_even_rounds, List.length_map, length_phases h]

theorem acts_odd (j : ℕ) (t : Fin p.threads) :
    p.acts (2 * j + 1) t = ((p.phases t).map phaseBody).getD j [] := by
  rw [acts, rankProgram_eq, phase_odd_rounds]

theorem acts_precreate (h : p.Whole) (t : Fin p.threads) :
    p.acts 1 t = phaseBody (p.precreateRank t 0) := by
  rw [show 1 = 2 * 0 + 1 from rfl, acts_odd, phases_eq h]
  rfl

theorem acts_benchmark (h : p.Whole) {k : ℕ} (hk : k < p.iterations) (t : Fin p.threads) :
    p.acts (2 * (k + 1) + 1) t = phaseBody (p.benchmarkRank t (p.firstObject k % 2 ^ 64)) := by
  rw [acts_odd, phases_eq h]
  simp [List.getD_eq_getElem?_getD, List.getElem?_append, hk]

theorem acts_cleanup (h : p.Whole) (t : Fin p.threads) :
    p.acts (2 * (p.iterations + 1) + 1) t =
      phaseBody (p.cleanupRank t (p.firstObject p.iterations % 2 ^ 64)) := by
  rw [acts_odd, phases_eq h]
  simp [List.getD_eq_getElem?_getD]

theorem acts_late (h : p.Whole) {j : ℕ} (hj : p.iterations + 1 < j) (t : Fin p.threads) :
    p.acts (2 * j + 1) t = [] := by
  have hlen := length_phases h t
  rw [acts_odd, List.getD_eq_getElem?_getD, List.getElem?_eq_none, Option.getD_none]
  rw [List.length_map]
  omega

/-! ## The condition -/

/-- The parameters with which the working set works. -/
def Moves (p : Params) : Prop :=
  p.readOnly = true ∨ p.num = 0 ∨ p.iterations = 0 ∨ p.dsetCount = 0 ∨
    p.precreate + p.iterations * p.num ≤ 2 ^ 64 ∧ p.ShiftsFit

theorem firstObject_succ (k : ℕ) :
    p.firstObject (k + 1) = p.firstObject k + if p.readOnly then 0 else p.num := by
  rw [firstObject, firstObject]
  split
  · rfl
  · exact Nat.succ_mul k p.num

theorem firstObject_le {k m : ℕ} (h : k ≤ m) : p.firstObject k ≤ p.firstObject m := by
  rw [firstObject, firstObject]
  split
  · exact Nat.le_refl 0
  · exact Nat.mul_le_mul_right p.num h

/-- The numbers of the objects do not wrap around. -/
def NoWrap (p : Params) : Prop :=
  p.readOnly = true ∨ p.num = 0 ∨ p.iterations = 0 ∨ p.dsetCount = 0 ∨
    p.precreate + p.iterations * p.num ≤ 2 ^ 64

theorem Moves.noWrap (h : p.Moves) : p.NoWrap :=
  h.imp_right fun h => h.imp_right fun h => h.imp_right fun h => h.imp_right And.left

theorem Moves.spread (h : p.Moves) (hiter : 0 < p.iterations) : p.Spread := by
  intro hro hnum d hd
  rcases h with h | h | h | h | ⟨-, h⟩
  · rw [hro] at h
    cases h
  · omega
  · omega
  · omega
  · exact p.shiftsFit_iff.mp h d hd

/-- The objects of the last window have numbers that do not wrap around. -/
theorem NoWrap.fits (h : p.NoWrap) (hdset : 0 < p.dsetCount) :
    p.firstObject p.iterations + p.precreate ≤ 2 ^ 64 := by
  have hP := p.precreate_lt
  rw [firstObject]
  rcases h with h | h | h | h | h
  · rw [h, if_pos rfl]
    omega
  · rw [h]
    split <;> omega
  · rw [h, Nat.zero_mul]
    split <;> omega
  · omega
  · split <;> omega

/-- Nor do those of an iteration. -/
theorem NoWrap.index (h : p.NoWrap) (hle : p.num ≤ p.precreate) {k : ℕ} (hk : k < p.iterations)
    (hdset : 0 < p.dsetCount) (f : ℕ) (hf : f < p.num) : p.firstObject k + f < 2 ^ 64 ∧
      (p.readOnly = false → p.precreate + (p.firstObject k + f) < 2 ^ 64) := by
  have hlast := h.fits hdset
  have hnext : p.firstObject (k + 1) ≤ p.firstObject p.iterations := firstObject_le hk
  have hP := p.precreate_lt
  rw [firstObject_succ] at hnext
  cases hro : p.readOnly with
  | true =>
    have hzero : p.firstObject k = 0 := by rw [firstObject, if_pos hro]
    exact ⟨by omega, by simp⟩
  | false =>
    rw [hro, if_neg (by simp)] at hnext
    exact ⟨by omega, fun _ => by omega⟩

/-- What a rank does in an iteration. -/
theorem acts_moveWindow (h : p.Whole) (hno : p.NoWrap) {k : ℕ} (hk : k < p.iterations)
    (t : Fin p.threads) :
    p.acts (2 * (k + 1) + 1) t = phaseBody (p.moveWindow t (p.firstObject k)) := by
  rw [acts_benchmark h hk, benchmarkRank_eq (hno.index h.num_le hk)]

/-- Every phase fits between the entries before and after it. -/
theorem phases_fit (h : p.Whole) {g : ℕ} (hg : g ≤ 2 ∨ p.Moves) :
    PhaseFits (p.acts g) (p.boundary (g / 2)) (p.boundary ((g + 1) / 2)) := by
  obtain ⟨j, rfl | rfl⟩ := Nat.even_or_odd' g
  · rw [show 2 * j / 2 = j by omega, show (2 * j + 1) / 2 = j by omega]
    by_cases hj : j = p.iterations + 2
    · have hlast : ∀ t, ∀ a ∈ p.acts (2 * j) t, a = .removePrefix := by
        intro t a ha
        rw [acts_even h, if_pos hj, lastActs] at ha
        split at ha
        · exact List.mem_singleton.mp ha
        · cases ha
      have hempty : p.boundary j = ∅ := by
        rw [hj, boundary, if_neg (by omega)]
      have hnone : ∀ done : Fin p.threads → List Act, (∀ u, done u ⊆ p.acts (2 * j) u) →
          contents effects ∅ done = ∅ := by
        intro done hsub
        refine Set.eq_empty_of_forall_notMem fun x hx => ?_
        rcases hx with ⟨hx, -⟩ | ⟨u, a, ha, hx⟩
        · exact hx
        · rw [hlast u a (hsub u ha)] at hx
          cases hx
      rw [hempty]
      refine ⟨⟨fun t => ?_, fun t u _ a ha b hb x hx => ?_⟩, fun t a ha x hx => ?_, ?_, ?_⟩
      · refine List.pairwise_of_forall_mem_list fun b _ a ha x hx => ?_
        rw [hlast t a ha] at hx
        cases hx
      · rw [hlast t a ha] at hx
        cases hx
      · rw [hlast t a ha] at hx
        cases hx
      · intro t l a r hL done hl hsub
        rw [hlast t a (by rw [hL]; simp), Around, hnone done hsub]
      · exact hnone _ fun u => List.Subset.refl _
    · exact phaseFits_idle fun t => by rw [acts_even h, if_neg hj]
  · rw [show (2 * j + 1) / 2 = j by omega, show (2 * j + 1 + 1) / 2 = j + 1 by omega]
    rcases j with - | k
    · rw [show p.acts (2 * 0 + 1) = _ from funext (acts_precreate h), boundary, boundary,
        if_pos (Nat.zero_le _), show p.firstObject 0 = 0 by simp [firstObject]]
      exact precreate_fits
    · have hmoves : p.Moves := hg.resolve_left (by omega)
      rcases Nat.lt_trichotomy k p.iterations with hk | rfl | hk
      · rw [show p.acts (2 * (k + 1) + 1) = _ from funext (acts_moveWindow h hmoves.noWrap hk),
          boundary, boundary, if_pos hk.le, if_pos (by omega), firstObject_succ]
        exact benchmark_fits h.num_le (hmoves.spread (by omega)) _
      · rw [show p.acts (2 * (p.iterations + 1) + 1) = _ from funext (acts_cleanup h), boundary,
          boundary, if_pos (Nat.le_refl _), if_neg (by omega)]
        simp only [cleanupRank_eq hmoves.noWrap.fits]
        exact cleanup_fits _
      · rw [boundary, boundary, if_neg (by omega), if_neg (by omega)]
        exact phaseFits_idle fun t => acts_late h (by omega) t

/-! ## Whole runs -/

theorem emptyStore_holds : p.emptyStore.Holds ∅ where
  entries x := by simp [emptyStore]
  content _ _ _ hx := hx.elim
  clean t := ⟨rfl, fun c hc => (List.not_mem_nil hc).elim, rfl⟩

/-- In every reachable state the ranks are in the middle of a phase without errors. -/
theorem reaches_inv (h : p.Whole) (hmoves : p.Moves) {s : State p.threads (Store p.threads) Act}
    (hs : p.Reaches s) : ∃ done, Located (fun t => p.rankProgram t) done s ∧
      PhaseInv (p.acts s.generation) (p.boundary (s.generation / 2)) done s.shared := by
  refine phase_invariant
    (I := fun g done y => PhaseInv (p.acts g) (p.boundary (g / 2)) done y) p.threads_pos ?_ ?_ ?_ hs
  · exact ⟨fun u => List.nil_subset _, contents_nil ▸ emptyStore_holds⟩
  · intro g done y t a r hi hL
    exact step_inv (phases_fit h (.inr hmoves)) hi hL
  · intro g y hi
    exact next_inv (phases_fit h (.inr hmoves)) hi _

/-! ## Which rank makes and removes an entry -/

theorem mem_rankProgram {rank : ℕ} {a : Act} : .op a ∈ p.rankProgram rank ↔
    (∃ body ∈ p.phases rank, a ∈ phaseBody body) ∨ a ∈ p.lastActs rank := by
  rw [rankProgram_eq]
  simp [Barrier.round]

theorem not_mem_lastActs {rank : ℕ} {a : Act} {x : Entry}
    (hx : effects.adds a = some x ∨ effects.removes a = some x) : a ∉ p.lastActs rank := by
  intro ha
  rw [lastActs] at ha
  split at ha
  · rw [List.mem_singleton.mp ha] at hx
    rcases hx with hx | hx <;> cases hx
  · cases ha

theorem adds_cases (h : p.Whole) (hno : p.NoWrap) {t : Fin p.threads} {a : Act} {x : Entry}
    (ha : .op a ∈ p.rankProgram t) (hx : effects.adds a = some x) :
    (∃ d < p.dsetCount, x = .dset t d) ∨ (∃ d < p.dsetCount, ∃ i < p.precreate, x = .obj t d i) ∨
      ∃ d < p.dsetCount, ∃ i ≥ p.precreate, p.readOnly = false ∧ 0 < p.num ∧ 0 < p.iterations ∧
        x = .obj (p.writeRank t d) d i := by
  obtain ⟨body, hbody, ha⟩ := (mem_rankProgram.mp ha).resolve_right (not_mem_lastActs (.inl hx))
  rw [phases_eq h] at hbody
  rw [mem_phaseBody] at ha
  rcases List.mem_append.mp hbody with hbody | hbody
  · rcases List.mem_cons.mp hbody with rfl | hbody
    · rw [mem_precreateRank] at ha
      grind
    · obtain ⟨k, hk, rfl⟩ := List.mem_map.mp hbody
      rw [List.mem_range] at hk
      rw [benchmarkRank_eq (hno.index h.num_le hk), mem_moveWindow] at ha
      grind [mem_objectStep]
  · rw [List.mem_singleton.mp hbody, cleanupRank_eq hno.fits, mem_cleanup] at ha
    grind

theorem removes_cases (h : p.Whole) (hno : p.NoWrap) {t : Fin p.threads} {a : Act} {x : Entry}
    (ha : .op a ∈ p.rankProgram t) (hx : effects.removes a = some x) :
    (∃ d < p.dsetCount, x = .dset t d) ∨
      (∃ d < p.dsetCount, ∃ i ≥ p.firstObject p.iterations, x = .obj t d i) ∨
      ∃ d < p.dsetCount, ∃ i < p.firstObject p.iterations, p.readOnly = false ∧ 0 < p.num ∧
        0 < p.iterations ∧ x = .obj (p.readRank t d) d i := by
  obtain ⟨body, hbody, ha⟩ := (mem_rankProgram.mp ha).resolve_right (not_mem_lastActs (.inr hx))
  rw [phases_eq h] at hbody
  rw [mem_phaseBody] at ha
  rcases List.mem_append.mp hbody with hbody | hbody
  · rcases List.mem_cons.mp hbody with rfl | hbody
    · rw [mem_precreateRank] at ha
      grind
    · obtain ⟨k, hk, rfl⟩ := List.mem_map.mp hbody
      rw [List.mem_range] at hk
      rw [benchmarkRank_eq (hno.index h.num_le hk), mem_moveWindow] at ha
      have hnext : p.firstObject (k + 1) ≤ p.firstObject p.iterations := firstObject_le hk
      rw [firstObject_succ] at hnext
      grind [mem_objectStep]
  · rw [List.mem_singleton.mp hbody, cleanupRank_eq hno.fits, mem_cleanup] at ha
    grind

/-- The rank that makes, or removes, an entry is determined by the entry. -/
theorem owner_unique (h : p.Whole) (hmoves : p.Moves) {t u : Fin p.threads} {a b : Act} {x : Entry}
    (ha : .op a ∈ p.rankProgram t) (hb : .op b ∈ p.rankProgram u)
    (hx : effects.adds a = some x ∧ effects.adds b = some x ∨
      effects.removes a = some x ∧ effects.removes b = some x) : t = u := by
  have hspread : p.readOnly = false → 0 < p.num → 0 < p.iterations → ∀ d < p.dsetCount,
      (p.readRank t d = p.readRank u d → t = u) ∧ (p.writeRank t d = p.writeRank u d → t = u) := by
    intro hro hnum hiter d hd
    obtain ⟨hread, hwrite⟩ := hmoves.spread hiter hro hnum d hd
    exact ⟨fun heq => Fin.val_injective (hread t.isLt u.isLt heq),
      fun heq => Fin.val_injective (hwrite t.isLt u.isLt heq)⟩
  have hval : (t : ℕ) = u → t = u := fun heq => Fin.val_injective heq
  rcases hx with ⟨hax, hbx⟩ | ⟨hax, hbx⟩
  · have hta := adds_cases h hmoves.noWrap ha hax
    have htb := adds_cases h hmoves.noWrap hb hbx
    grind
  · have hta := removes_cases h hmoves.noWrap ha hax
    have htb := removes_cases h hmoves.noWrap hb hbx
    grind

/-- With these parameters the working set keeps its promises. -/
theorem workingSet_of_moves (h : p.Whole) (hmoves : p.Moves) : WorkingSet p := by
  have hwaits : ∀ t u : Fin p.threads,
      waits (p.rankProgram t) = waits (p.rankProgram u) := fun t u => by
    rw [waits_rankProgram h, waits_rankProgram h]
  refine ⟨fun s hs t a r hb hr => ?_, fun s hs rank d i hx => ?_, fun s hs t => ?_,
    fun s hs k hk hg x => ?_, fun s hs hfin => ?_, (deadlockFree_iff _ _ _).mpr hwaits,
    fun t u a b ha hb x hx => owner_unique h hmoves ha hb hx⟩
  all_goals obtain ⟨done, hloc, hi⟩ := reaches_inv h hmoves hs
  · have hentries : { x | x ∈ s.shared.entries } = contents effects _ done :=
      Set.ext hi.holds.entries
    have hcur := hloc.current t
    rw [if_neg (by simp [Counted, hb]), hr, phase] at hcur
    rw [hentries]
    exact (phases_fit h (.inr hmoves)).finds hi.sub hcur
  · exact hi.holds.content rank d i ((hi.holds.entries _).mp hx)
  · exact ⟨(hi.holds.clean t).stat, (hi.holds.clean t).slots⟩
  · have hnil : done = fun _ => [] := by
      funext t
      have hsub := hi.sub t
      rw [hg, acts_even h, if_neg (by omega)] at hsub
      exact List.subset_nil.mp hsub
    rw [hi.holds.entries, hnil, contents_nil, hg, show 2 * (k + 1) / 2 = k + 1 by omega, boundary,
      if_pos hk]
  · have hg := (Reachable.synced p.threads_pos hs).waits_eq hfin ⟨0, p.threads_pos⟩
    rw [waits_rankProgram h] at hg
    have hempty : contents effects (p.boundary (s.generation / 2)) done = ∅ := by
      rw [← hg, show 2 * (p.iterations + 2) / 2 = p.iterations + 1 + 1 by omega, boundary,
        if_neg (by omega)]
      refine Set.eq_empty_of_forall_notMem fun x hx => ?_
      rcases hx with ⟨hx, -⟩ | ⟨u, a, ha, hx⟩
      · exact hx
      · have hlast := hi.sub u ha
        rw [← hg, acts_even h, if_pos rfl] at hlast
        exact not_mem_lastActs (.inl hx) hlast
    refine Finset.eq_empty_of_forall_notMem fun x hx => ?_
    have hx' := (hi.holds.entries x).mp hx
    rw [hempty] at hx'
    exact hx'

end Params

end Fstest.Mdworkbench
