import Fstest.Mdworkbench.WorkingSet

/-!
# Where the working set breaks

The other direction of `workingSet_iff`: where the ranks do not read every object of a data set,
the oldest object of some rank is still there after the first iteration, and where they do not write
every new object, one is missing.
-/

namespace Fstest.Mdworkbench

open Barrier Entries

namespace Params

variable {p : Params}

/-- An operation leaves the entries alone, adds its entry or removes it. -/
theorem entries_exec (t : Fin p.threads) (a : Act) (y : Store p.threads) :
    (p.exec t a y).entries = y.entries ∨
      (∃ x, effects.adds a = some x ∧ (p.exec t a y).entries = insert x y.entries) ∨
      ∃ x, effects.removes a = some x ∧ (p.exec t a y).entries = y.entries.erase x := by
  cases a with
  | start | push => exact .inl rfl
  | stat | read | removePrefix =>
    simp only [exec]
    repeat' split
    all_goals exact .inl rfl
  | createDset | precreate | create =>
    simp only [exec]
    repeat' split
    all_goals first | exact .inl rfl | exact .inr (.inl ⟨_, rfl, rfl⟩)
  | delete | unlink | removeDset =>
    simp only [exec]
    repeat' split
    all_goals first | exact .inl rfl | exact .inr (.inr ⟨_, rfl, rfl⟩)

theorem mem_of_mem_exec {t : Fin p.threads} {a : Act} {y : Store p.threads} {x : Entry}
    (h : x ∈ (p.exec t a y).entries) : x ∈ y.entries ∨ effects.adds a = some x := by
  rcases entries_exec t a y with heq | ⟨e, ha, heq⟩ | ⟨e, -, heq⟩ <;> rw [heq] at h
  · exact .inl h
  · rcases Finset.mem_insert.mp h with rfl | h
    · exact .inr ha
    · exact .inl h
  · exact .inl (Finset.mem_of_mem_erase h)

theorem mem_exec_of_mem {t : Fin p.threads} {a : Act} {y : Store p.threads} {x : Entry}
    (h : x ∈ y.entries) (ha : effects.removes a ≠ some x) : x ∈ (p.exec t a y).entries := by
  rcases entries_exec t a y with heq | ⟨e, -, heq⟩ | ⟨e, hr, heq⟩ <;> rw [heq]
  · exact h
  · exact Finset.mem_insert_of_mem h
  · refine Finset.mem_erase.mpr ⟨?_, h⟩
    rintro rfl
    exact ha hr

/-- An object that no rank makes before generation `m` is not there until then. -/
theorem not_mem_entries {m : ℕ} {x : Entry}
    (hnone : ∀ g ≤ m, ∀ t, ∀ a ∈ p.acts g t, effects.adds a ≠ some x)
    {s : State p.threads (Store p.threads) Act} (hs : p.Reaches s) (hg : s.generation ≤ m) :
    x ∉ s.shared.entries := by
  obtain ⟨-, -, hI⟩ := phase_invariant (I := fun g _ y => g ≤ m → x ∉ y.entries) p.threads_pos
    (fun _ => Finset.notMem_empty x) (fun g done y t a r hI hL hgm hx => by
      rcases mem_of_mem_exec hx with hx | hx
      · exact hI hgm hx
      · exact hnone g hgm t a (by rw [show p.acts g t = _ from hL]; simp) hx)
    (fun g y hI hgm => hI (by omega)) hs
  exact hI hg

/-- An object from precreation that no rank removes before generation `m` is there until then. -/
theorem mem_entries (h : p.Whole) {m : ℕ} {x : Entry} (hx : x ∈ p.window 0)
    (hnone : ∀ g, 2 ≤ g → g ≤ m → ∀ t, ∀ a ∈ p.acts g t, effects.removes a ≠ some x)
    {s : State p.threads (Store p.threads) Act} (hs : p.Reaches s) (hlow : 2 ≤ s.generation)
    (hg : s.generation ≤ m) : x ∈ s.shared.entries := by
  suffices hall : ∃ done, Located (fun t => p.rankProgram t) done s ∧
      (s.generation ≤ 2 →
        PhaseInv (p.acts s.generation) (p.boundary (s.generation / 2)) done s.shared) ∧
      (2 ≤ s.generation → s.generation ≤ m → x ∈ s.shared.entries) by
    obtain ⟨done, -, -, hI⟩ := hall
    exact hI hlow hg
  refine phase_invariant
    (I := fun g done y => (g ≤ 2 → PhaseInv (p.acts g) (p.boundary (g / 2)) done y) ∧
      (2 ≤ g → g ≤ m → x ∈ y.entries)) p.threads_pos ?_ ?_ ?_ hs
  · exact ⟨fun _ => ⟨fun u => List.nil_subset _, contents_nil ▸ emptyStore_holds⟩,
      fun h2 => by omega⟩
  · rintro g done y t a r ⟨hinv, hin⟩ hL
    refine ⟨fun h2 => step_inv (phases_fit h (.inl h2)) (hinv h2) hL, fun h2 hgm => ?_⟩
    exact mem_exec_of_mem (hin h2 hgm) (hnone g h2 hgm t a (by rw [show p.acts g t = _ from hL]; simp))
  · rintro g y ⟨hinv, hin⟩
    refine ⟨fun h2 => next_inv (phases_fit h (.inl (by omega))) (hinv (by omega)) _,
      fun h2 hgm => ?_⟩
    by_cases hg1 : g = 1
    · subst hg1
      have hnext := next_inv (phases_fit h (.inl (by omega))) (hinv (by omega)) (fun _ => [])
      refine (hnext.holds.entries x).mpr ?_
      rw [contents_nil, show (1 + 1) / 2 = 0 + 1 from rfl, boundary, if_pos (Nat.zero_le _),
        show p.firstObject 0 = 0 by simp [firstObject]]
      exact hx
    · exact hin (by omega) (by omega)

/-! ## The condition is necessary -/

/-- Some run comes to the boundary before each iteration, and to the last one. -/
theorem exists_boundary (h : p.Whole) {k : ℕ} (hk : k ≤ p.iterations) :
    ∃ s, Reachable p.exec (fun t : Fin p.threads => p.rankProgram t) p.emptyStore s ∧
      s.generation = 2 * (k + 1) := by
  refine exists_reachable_generation (fun t u => ?_) p.emptyStore ⟨0, p.threads_pos⟩ ?_
  · rw [waits_rankProgram h, waits_rankProgram h]
  · rw [waits_rankProgram h]
    omega

section

variable (h : p.Whole) (hw : WorkingSet p)

include h hw

/-- The last window has no number beyond `u64`. -/
theorem noWrap_of_workingSet : p.NoWrap := by
  by_contra hno
  simp only [NoWrap, not_or, Bool.not_eq_true] at hno
  obtain ⟨hro, hnum, hiter, hdset, hbig⟩ := hno
  obtain ⟨s, hs, hg⟩ := exists_boundary h (Nat.le_refl p.iterations)
  have hpos : 0 < p.precreate := Nat.lt_of_lt_of_le (Nat.pos_of_ne_zero hnum) h.num_le
  have hin := (hw.window s hs p.iterations (Nat.le_refl _) hg
    (.obj 0 0 (p.firstObject p.iterations + p.precreate - 1))).mpr (by
      rw [mem_window_obj]
      exact ⟨p.threads_pos, Nat.pos_of_ne_zero hdset, by omega, by omega⟩)
  have hlast : p.firstObject p.iterations = p.iterations * p.num := by
    rw [firstObject, hro, if_neg (by simp)]
  refine not_mem_entries (fun g _ t a ha hadd => ?_) hs (Nat.le_refl _) hin
  -- The number of an object that is made is a `u64`.
  have hP := p.precreate_lt
  have hmem : .op a ∈ p.rankProgram t := mem_iff_exists_phase.mpr ⟨g, ha⟩
  obtain ⟨body, hbody, ha⟩ := (mem_rankProgram.mp hmem).resolve_right (not_mem_lastActs (.inl hadd))
  rw [phases_eq h] at hbody
  rw [mem_phaseBody] at ha
  have hmod : ∀ i : ℕ, i % 2 ^ 64 < 2 ^ 64 := fun i => Nat.mod_lt _ (by decide)
  rcases List.mem_append.mp hbody with hbody | hbody
  · rcases List.mem_cons.mp hbody with rfl | hbody
    · rw [mem_precreateRank] at ha
      grind
    · obtain ⟨k, hk, rfl⟩ := List.mem_map.mp hbody
      simp only [benchmarkRank, List.mem_flatMap, benchmarkStep, hro] at ha
      grind
  · rw [List.mem_singleton.mp hbody] at ha
    simp only [cleanupRank, List.mem_flatMap, List.mem_append, List.mem_map] at ha
    grind

/-- The first iteration goes over all ranks of every data set. -/
theorem spread_of_workingSet (hiter : 0 < p.iterations) : p.Spread := by
  intro hro hnum d hd
  have hno := noWrap_of_workingSet h hw
  have hP := h.num_le
  -- A state between the first iteration and the next phase.
  obtain ⟨s, hs, hg⟩ := exists_boundary h hiter
  have hwin := hw.window s hs 1 hiter hg
  have hfirst : p.firstObject 1 = p.num := by simp [firstObject, hro]
  have hacts : ∀ g, 2 ≤ g → g ≤ 4 → ∀ t : Fin p.threads, ∀ a ∈ p.acts g t, g = 3 ∧
      a ∈ phaseBody (p.moveWindow t 0) := by
    intro g hlow hhigh t a ha
    have hcases : g = 2 * 1 ∨ g = 2 * (0 + 1) + 1 ∨ g = 2 * 2 := by omega
    rcases hcases with rfl | rfl | rfl
    · rw [acts_even h, if_neg (by omega)] at ha
      cases ha
    · rw [acts_moveWindow h hno hiter, show p.firstObject 0 = 0 by simp [firstObject]] at ha
      exact ⟨rfl, ha⟩
    · rw [acts_even h, if_neg (by omega)] at ha
      cases ha
  constructor
  · rw [injOn_Iio_iff_surjOn (p.readRank_mapsTo d)]
    intro rank hr
    by_contra hmiss
    -- Nobody reads the oldest object of `rank`, so it stays.
    have hin : .obj rank d 0 ∈ s.shared.entries := by
      refine mem_entries h (mem_window_obj.mpr ⟨hr, hd, by omega, by omega⟩) ?_ hs (by omega)
        (Nat.le_refl _)
      intro g hlow hhigh t a ha hremove
      obtain ⟨-, ha⟩ := hacts g hlow (by omega) t a ha
      rw [mem_phaseBody, mem_moveWindow] at ha
      have hno : p.readRank t d ≠ rank := fun heq => hmiss ⟨t, t.isLt, heq⟩
      grind [mem_objectStep]
    have hold := mem_window_obj.mp ((hwin _).mp hin)
    omega
  · rw [injOn_Iio_iff_surjOn (p.writeRank_mapsTo d)]
    intro rank hr
    by_contra hmiss
    -- Nobody writes the first new object of `rank`.
    have hin : .obj rank d p.precreate ∈ s.shared.entries :=
      (hwin _).mpr (mem_window_obj.mpr ⟨hr, hd, by omega, by omega⟩)
    refine not_mem_entries (fun g hhigh t a ha hadd => ?_) hs (Nat.le_refl _) hin
    have hno : p.writeRank t d ≠ rank := fun heq => hmiss ⟨t, t.isLt, heq⟩
    by_cases hlow : 2 ≤ g
    · obtain ⟨-, ha⟩ := hacts g hlow (by omega) t a ha
      rw [mem_phaseBody, mem_moveWindow] at ha
      grind [mem_objectStep]
    · have hcases : g = 2 * 0 ∨ g = 1 := by omega
      rcases hcases with rfl | rfl
      · rw [acts_even h, if_neg (by omega)] at ha
        cases ha
      · rw [acts_precreate h, mem_phaseBody, mem_precreateRank] at ha
        grind

end

end Params

/-- **The working set keeps its promises exactly if the objects are not moved, or their numbers fit
and no shift wraps around for some of the ranks only.** -/
theorem workingSet_iff {p : Params} (h : p.Whole) (hoffset : p.offset * p.dsetCount < 2 ^ 64) :
    WorkingSet p ↔ p.readOnly = true ∨ p.num = 0 ∨ p.iterations = 0 ∨ p.dsetCount = 0 ∨
      p.precreate + p.iterations * p.num ≤ 2 ^ 64 ∧ (p.threads ∣ 2 ^ 64 ∨
        ∀ d < p.dsetCount, p.offset * (d + 1) + p.threads ≤ 2 ^ 64 ∧
          (p.offset * (d + 1) ≤ 2 ^ 63 + p.threads ∨
            2 ^ 63 + 2 * p.threads ≤ p.offset * (d + 1))) := by
  have hshift : ∀ d < p.dsetCount, p.shift d = p.offset * (d + 1) := by
    intro d hd
    exact Nat.mod_eq_of_lt (Nat.lt_of_le_of_lt (Nat.mul_le_mul_left _ hd) hoffset)
  have hmoves : WorkingSet p ↔ p.Moves := by
    refine ⟨fun hw => ?_, fun hmoves => Params.workingSet_of_moves h hmoves⟩
    have hno := Params.noWrap_of_workingSet h hw
    by_contra hnot
    simp only [Params.Moves, not_or, Bool.not_eq_true] at hnot
    obtain ⟨hro, hnum, hiter, hdset, hbad⟩ := hnot
    have hspread := Params.spread_of_workingSet h hw (Nat.pos_of_ne_zero hiter) hro
      (Nat.pos_of_ne_zero hnum)
    refine hbad ⟨?_, p.shiftsFit_iff.mpr hspread⟩
    simpa [Params.NoWrap, hro, hnum, hiter, hdset] using hno
  rw [hmoves, Params.Moves, Params.ShiftsFit]
  have hall : (∀ d < p.dsetCount, p.shift d + p.threads ≤ 2 ^ 64 ∧
      (p.shift d ≤ 2 ^ 63 + p.threads ∨ 2 ^ 63 + 2 * p.threads ≤ p.shift d)) ↔
      ∀ d < p.dsetCount, p.offset * (d + 1) + p.threads ≤ 2 ^ 64 ∧
        (p.offset * (d + 1) ≤ 2 ^ 63 + p.threads ∨ 2 ^ 63 + 2 * p.threads ≤ p.offset * (d + 1)) :=
    forall₂_congr fun d hd => by rw [hshift d hd]
  rw [hall]

theorem one_lt_u64 : 1 < 2 ^ 64 := by decide

theorem zero_lt_u64 : 0 < 2 ^ 64 := by decide

/-- Three ranks with one data set of one object each. -/
def threeRanks (offset : ℕ) : Params where
  threads := 3
  num := 1
  precreate := 1
  dsetCount := 1
  fileSize := 0
  iterations := 1
  offset := offset
  phasePrecreate := true
  phaseBenchmark := true
  phaseCleanup := true
  readOnly := false
  verifyRead := false
  seed := 1
  startItem := 0
  threads_pos := by decide
  threads_lt := by decide
  num_lt := one_lt_u64
  precreate_lt := one_lt_u64
  dsetCount_lt := one_lt_u64
  startItem_lt := zero_lt_u64

/-- Each rank reads what its neighbour has. -/
theorem workingSet_neighbours : WorkingSet (threeRanks 1) :=
  (workingSet_iff ⟨rfl, rfl, rfl, rfl, by decide⟩ (by decide)).mpr (by decide)

/-- With this offset ranks 0 and 1 both read from rank 1. -/
theorem workingSet_wraps : (threeRanks (2 ^ 63 + 4)).offset * (threeRanks (2 ^ 63 + 4)).dsetCount <
    2 ^ 64 ∧ ¬ WorkingSet (threeRanks (2 ^ 63 + 4)) := by
  refine ⟨by decide, fun hw => ?_⟩
  have hspread := Params.spread_of_workingSet ⟨rfl, rfl, rfl, rfl, by decide⟩ hw (by decide) rfl
    (by decide) 0 (by decide)
  have h01 := hspread.1 (show (0 : ℕ) < 3 by decide) (show (1 : ℕ) < 3 by decide) (by decide)
  cases h01

end Fstest.Mdworkbench
