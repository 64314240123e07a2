import Fstest.Mdworkbench.Phases
import Fstest.Mdworkbench.Shift

/-!
# The window of objects

Between two phases every data set holds `precreate` objects with consecutive numbers, a `window`.
Precreation makes the first window, an iteration of the benchmark moves it on by `num`, and the
cleanup removes the last one.
-/

namespace Fstest.Mdworkbench

open Barrier Entries

namespace Params

variable (p : Params)

/-- Every data set, with `precreate` objects from number `c` on. -/
def window (c : ℕ) : Set Entry :=
  { x | match x with
    | .dset rank d => rank < p.threads ∧ d < p.dsetCount
    | .obj rank d i => rank < p.threads ∧ d < p.dsetCount ∧ c ≤ i ∧ i < c + p.precreate }

/-- The number of the oldest object after `k` iterations. -/
def firstObject (k : ℕ) : ℕ := if p.readOnly then 0 else k * p.num

/-- The operations of a rank between two barriers. -/
def phaseBody (body : List Act) : List Act := .start :: body ++ [.push]

variable {p}

@[simp] theorem mem_window_dset {c rank d : ℕ} :
    .dset rank d ∈ p.window c ↔ rank < p.threads ∧ d < p.dsetCount := .rfl

@[simp] theorem mem_window_obj {c rank d i : ℕ} : .obj rank d i ∈ p.window c ↔
    rank < p.threads ∧ d < p.dsetCount ∧ c ≤ i ∧ i < c + p.precreate := .rfl

theorem currentIndex_eq (hstart : p.startItem = 0) (k : ℕ) :
    p.currentIndex k = p.firstObject k % 2 ^ 64 := by
  induction k with
  | zero => simp [currentIndex, firstObject, hstart]
  | succ k ih =>
    rw [currentIndex, ih, firstObject, firstObject]
    split
    · rfl
    · rw [Nat.mod_add_mod, Nat.succ_mul]

@[simp] theorem mem_phaseBody {body : List Act} {a : Act} :
    a ∈ phaseBody body ↔ a = .start ∨ a ∈ body ∨ a = .push := by
  simp [phaseBody]

/-- An operation does not use what an earlier one has changed. -/
def Apart (b a : Act) : Prop := ∀ x, effects.uses a = some x → ¬ Changes effects b x

theorem pairwise_phaseBody {R : Act → Act → Prop} {body : List Act} (hstart : ∀ a, R .start a)
    (hpush : ∀ a, R a .push) (h : body.Pairwise R) : (phaseBody body).Pairwise R := by
  rw [phaseBody, List.cons_append, List.pairwise_cons, List.pairwise_append]
  refine ⟨fun a _ => hstart a, h, List.pairwise_singleton _ _, fun a _ b hb => ?_⟩
  rw [List.mem_singleton.mp hb]
  exact hpush a

theorem apart_start (a : Act) : Apart .start a := by
  rintro x - (h | h) <;> cases h

theorem apart_push (a : Act) : Apart a .push := by
  rintro x h
  cases h

/-! ## Precreation -/

theorem mem_precreateRank {rank : ℕ} {a : Act} : a ∈ p.precreateRank rank 0 ↔
    (∃ d < p.dsetCount, a = .createDset rank d) ∨
      ∃ i < p.precreate, ∃ d < p.dsetCount, a = .precreate rank d i := by
  simp [precreateRank, ← List.range_eq_range', eq_comm]

theorem pairwise_precreateRank (rank : ℕ) : (p.precreateRank rank 0).Pairwise Apart := by
  rw [precreateRank, List.pairwise_append]
  refine ⟨?_, ?_, ?_⟩
  · rw [List.pairwise_map]
    exact List.pairwise_lt_range.imp fun hlt => by simp [Apart, Changes, effects, Act.uses, Act.adds, Act.removes]; omega
  · rw [← List.range_eq_range', List.pairwise_flatMap]
    refine ⟨fun i _ => ?_, List.pairwise_lt_range.imp fun hlt => ?_⟩
    · rw [List.pairwise_map]
      exact List.pairwise_lt_range.imp fun hlt => by simp [Apart, Changes, effects, Act.uses, Act.adds, Act.removes]; omega
    · simp [Apart, Changes, effects, Act.uses, Act.adds, Act.removes]
      omega
  · intro a ha b hb
    simp only [List.mem_map, List.mem_flatMap] at ha hb
    grind [Apart, Changes]

/-- The precreation makes the first window. -/
theorem contents_precreate :
    contents effects ∅ (fun t : Fin p.threads => phaseBody (p.precreateRank t 0)) = p.window 0 := by
  ext x
  simp only [contents, mem_phaseBody, mem_precreateRank, Set.mem_ofPred_eq, Set.mem_empty_iff_false,
    false_and, false_or]
  cases x with
  | dset rank d =>
    rw [mem_window_dset]
    constructor
    · rintro ⟨t, a, ha, hx⟩
      grind
    · rintro ⟨hr, hd⟩
      exact ⟨⟨rank, hr⟩, .createDset rank d, .inr (.inl (.inl ⟨d, hd, rfl⟩)), rfl⟩
  | obj rank d i =>
    rw [mem_window_obj]
    constructor
    · rintro ⟨t, a, ha, hx⟩
      grind
    · rintro ⟨hr, hd, -, hi⟩
      exact ⟨⟨rank, hr⟩, .precreate rank d i,
        .inr (.inl (.inr ⟨i, by omega, d, hd, rfl⟩)), rfl⟩

/-- A rank makes a data set before the objects in it. -/
theorem createDset_before {t : Fin p.threads} {l r : List Act} {i d : ℕ} (hd : d < p.dsetCount)
    (hL : phaseBody (p.precreateRank t 0) = l ++ .precreate t d i :: r) : .createDset t d ∈ l := by
  refine mem_before hL (pairwise_phaseBody (by simp) (by simp) ?_) ?_ (by simp)
  · rw [precreateRank, List.pairwise_append]
    refine ⟨?_, ?_, ?_⟩
    · rw [List.pairwise_map]
      exact List.pairwise_lt_range.imp fun _ => by simp
    · refine List.pairwise_of_forall_mem_list fun a _ b hb => ?_
      simp only [List.mem_map, List.mem_flatMap] at hb
      grind
    · simp
  · rw [mem_phaseBody, mem_precreateRank]
    exact .inr (.inl (.inl ⟨d, hd, rfl⟩))

theorem precreate_fits :
    PhaseFits (p := p) (fun t => phaseBody (p.precreateRank t 0)) ∅ (p.window 0) := by
  refine ⟨⟨fun t => ?_, fun t u htu a ha b hb => ?_⟩, fun t a ha x hx => ?_, ?_, contents_precreate⟩
  · exact pairwise_phaseBody apart_start apart_push (pairwise_precreateRank t)
  · have hne : (t : ℕ) ≠ u := Fin.val_ne_of_ne htu
    rw [mem_phaseBody, mem_precreateRank] at ha hb
    grind [Changes]
  · rw [mem_phaseBody, mem_precreateRank] at ha
    grind
  · intro t l a r hL done hl hsub
    have ha : a ∈ phaseBody (p.precreateRank t 0) := by
      rw [hL]
      simp
    rw [mem_phaseBody, mem_precreateRank] at ha
    rcases ha with rfl | (⟨d, hd, rfl⟩ | ⟨i, hi, d, hd, rfl⟩) | rfl
    · trivial
    · trivial
    · exact .inr ⟨t, .createDset t d, hl ▸ createDset_before hd hL, rfl⟩
    · trivial

/-! ## Benchmark -/

/-- What a rank does with object `i` of data set `d`, with numbers that have not wrapped around. -/
def objectStep (p : Params) (rank i d : ℕ) : List Act :=
  .stat (p.readRank rank d) d i :: .read (p.readRank rank d) d i ::
    if p.readOnly then []
    else [.delete (p.readRank rank d) d i, .create (p.writeRank rank d) d (p.precreate + i)]

/-- An iteration from object `c` on. -/
def moveWindow (p : Params) (rank c : ℕ) : List Act :=
  (List.range p.num).flatMap fun f => (List.range p.dsetCount).flatMap (p.objectStep rank (c + f))

theorem benchmarkRank_eq {c : ℕ} (hfit : 0 < p.dsetCount → ∀ f < p.num, c + f < 2 ^ 64 ∧
    (p.readOnly = false → p.precreate + (c + f) < 2 ^ 64)) (rank : ℕ) :
    p.benchmarkRank rank (c % 2 ^ 64) = p.moveWindow rank c := by
  refine List.flatMap_congr fun f hf => List.flatMap_congr fun d hd => ?_
  rw [List.mem_range] at hf hd
  obtain ⟨hc, hP⟩ := hfit (by omega) f hf
  rw [Nat.add_mod_mod, Nat.add_comm f, Nat.mod_eq_of_lt hc, benchmarkStep, objectStep]
  cases hro : p.readOnly with
  | true => rfl
  | false =>
    rw [Nat.mod_eq_of_lt (hP hro)]

theorem mem_objectStep {rank i d : ℕ} {a : Act} : a ∈ p.objectStep rank i d ↔
    a = .stat (p.readRank rank d) d i ∨ a = .read (p.readRank rank d) d i ∨
      p.readOnly = false ∧ (a = .delete (p.readRank rank d) d i ∨
        a = .create (p.writeRank rank d) d (p.precreate + i)) := by
  rw [objectStep]
  cases p.readOnly <;> simp

theorem mem_moveWindow {rank c : ℕ} {a : Act} : a ∈ p.moveWindow rank c ↔
    ∃ f < p.num, ∃ d < p.dsetCount, a ∈ p.objectStep rank (c + f) d := by
  simp [moveWindow]

/-- In every data set that is written, the ranks read different objects, and write different ones. -/
def Spread (p : Params) : Prop := p.readOnly = false → 0 < p.num → ∀ d < p.dsetCount,
  Set.InjOn (p.readRank · d) (Set.Iio p.threads) ∧ Set.InjOn (p.writeRank · d) (Set.Iio p.threads)

/-- Two steps of an iteration touch different objects, unless they are one step of one rank. -/
theorem apart_of_mem_objectStep (hnum : p.num ≤ p.precreate) (hspread : p.Spread)
    {t u : Fin p.threads} {c f g d e : ℕ} (hf : f < p.num) (hg : g < p.num) (hd : d < p.dsetCount)
    (hne : (t, f, d) ≠ (u, g, e)) {a b : Act} (ha : a ∈ p.objectStep t (c + f) d)
    (hb : b ∈ p.objectStep u (c + g) e) : Apart b a := by
  rw [mem_objectStep] at ha hb
  intro x hx hchange
  have hro : p.readOnly = false := by grind [Changes]
  obtain ⟨hread, hwrite⟩ := hspread hro (by omega) d hd
  have hread' : p.readRank t d = p.readRank u d → t = u := fun h =>
    Fin.val_injective (hread (Set.mem_Iio.mpr t.isLt) (Set.mem_Iio.mpr u.isLt) h)
  have hwrite' : p.writeRank t d = p.writeRank u d → t = u := fun h =>
    Fin.val_injective (hwrite (Set.mem_Iio.mpr t.isLt) (Set.mem_Iio.mpr u.isLt) h)
  grind [Changes]

theorem pairwise_moveWindow (hnum : p.num ≤ p.precreate) (hspread : p.Spread) (t : Fin p.threads)
    (c : ℕ) : (p.moveWindow t c).Pairwise Apart := by
  rw [moveWindow, List.pairwise_flatMap]
  refine ⟨fun f hf => ?_, List.pairwise_lt_range.imp_of_mem fun {f g} hf hg hlt => ?_⟩
  · rw [List.mem_range] at hf
    rw [List.pairwise_flatMap]
    refine ⟨fun d _ => ?_, List.pairwise_lt_range.imp_of_mem fun {d e} hd he hlt => ?_⟩
    · rw [objectStep]
      cases p.readOnly
      · simp [Apart, Changes, effects, Act.uses, Act.adds, Act.removes]
        omega
      · simp [Apart, Changes, effects, Act.adds, Act.removes]
    · rw [List.mem_range] at hd he
      intro b hb a ha
      exact apart_of_mem_objectStep hnum hspread hf hf he (by grind) ha hb
  · rw [List.mem_range] at hf hg
    intro b hb a ha
    obtain ⟨d, hd, hb⟩ := List.mem_flatMap.mp hb
    obtain ⟨e, he, ha⟩ := List.mem_flatMap.mp ha
    exact apart_of_mem_objectStep hnum hspread hg hf (List.mem_range.mp he) (by grind) ha hb

section

variable {c : ℕ}

/-- A read-only iteration changes nothing. -/
theorem contents_moveWindow_readOnly (hro : p.readOnly = true) (B : Set Entry) :
    contents effects B (fun t : Fin p.threads => phaseBody (p.moveWindow t c)) = B := by
  ext x
  simp only [contents, mem_phaseBody, mem_moveWindow, Set.mem_ofPred_eq]
  constructor
  · rintro (⟨hbase, -⟩ | ⟨t, a, ha, hx⟩)
    · exact hbase
    · grind [mem_objectStep]
  · intro hbase
    refine .inl ⟨hbase, ?_⟩
    grind [mem_objectStep]

/-- Every object that leaves the window is deleted by its reader. -/
theorem delete_mem_moveWindow (hro : p.readOnly = false) (hspread : p.Spread) {rank d i : ℕ}
    (hr : rank < p.threads) (hd : d < p.dsetCount) (hi : i < p.num) :
    ∃ t < p.threads, .delete rank d (c + i) ∈ p.moveWindow t c := by
  have honto := (injOn_Iio_iff_surjOn (p.readRank_mapsTo d)).mp (hspread hro (by omega) d hd).1
  obtain ⟨t, ht, htr⟩ := honto (Set.mem_Iio.mpr hr)
  have htr' : p.readRank t d = rank := htr
  refine ⟨t, ht, mem_moveWindow.mpr ⟨i, hi, d, hd, ?_⟩⟩
  rw [mem_objectStep, htr']
  exact .inr (.inr ⟨hro, .inl rfl⟩)

/-- Every object that enters the window is created by its writer. -/
theorem create_mem_moveWindow (hro : p.readOnly = false) (hspread : p.Spread) {rank d i : ℕ}
    (hr : rank < p.threads) (hd : d < p.dsetCount) (hi : i < p.num) :
    ∃ t < p.threads, .create rank d (c + p.precreate + i) ∈ p.moveWindow t c := by
  have honto := (injOn_Iio_iff_surjOn (p.writeRank_mapsTo d)).mp (hspread hro (by omega) d hd).2
  obtain ⟨t, ht, htr⟩ := honto (Set.mem_Iio.mpr hr)
  have htr' : p.writeRank t d = rank := htr
  refine ⟨t, ht, mem_moveWindow.mpr ⟨i, hi, d, hd, ?_⟩⟩
  rw [mem_objectStep, htr']
  refine .inr (.inr ⟨hro, .inr ?_⟩)
  congr 1
  omega

theorem contents_moveWindow (hnum : p.num ≤ p.precreate) (hro : p.readOnly = false)
    (hspread : p.Spread) :
    contents effects (p.window c) (fun t : Fin p.threads => phaseBody (p.moveWindow t c)) =
      p.window (c + p.num) := by
  ext x
  cases x with
  | dset rank d =>
    simp only [contents, mem_phaseBody, mem_moveWindow, Set.mem_ofPred_eq, mem_window_dset]
    constructor
    · rintro (⟨hbase, -⟩ | ⟨t, a, ha, hx⟩)
      · exact hbase
      · grind [mem_objectStep]
    · intro hbase
      refine .inl ⟨hbase, ?_⟩
      grind [mem_objectStep]
  | obj rank d i =>
    simp only [contents, mem_phaseBody, Set.mem_ofPred_eq, mem_window_obj]
    constructor
    · rintro (⟨⟨hr, hd, hci, hiP⟩, hkept⟩ | ⟨t, a, ha, hx⟩)
      · refine ⟨hr, hd, ?_, by omega⟩
        by_contra hlt
        obtain ⟨t, ht, hdel⟩ := delete_mem_moveWindow (c := c) (i := i - c) hro hspread hr hd (by omega)
        rw [Nat.add_sub_cancel' hci] at hdel
        exact hkept ⟨t, ht⟩ _ (.inr (.inl hdel)) rfl
      · have hwrite := fun d => p.writeRank_lt t d
        rw [mem_moveWindow] at ha
        grind [mem_objectStep]
    · rintro ⟨hr, hd, hci, hiP⟩
      by_cases hold : i < c + p.precreate
      · refine .inl ⟨⟨hr, hd, by omega, hold⟩, ?_⟩
        grind [mem_objectStep, mem_moveWindow]
      · obtain ⟨t, ht, hcreate⟩ := create_mem_moveWindow (c := c) (i := i - c - p.precreate) hro hspread
          hr hd (by omega)
        have hi : c + p.precreate + (i - c - p.precreate) = i := by omega
        rw [hi] at hcreate
        exact .inr ⟨⟨t, ht⟩, _, .inr (.inl hcreate), rfl⟩

end

/-- **An iteration moves the window**, if in every data set the ranks read, and write, different
objects. -/
theorem benchmark_fits (hnum : p.num ≤ p.precreate) (hspread : p.Spread) (c : ℕ) :
    PhaseFits (p := p) (fun t => phaseBody (p.moveWindow t c)) (p.window c)
      (p.window (c + if p.readOnly then 0 else p.num)) := by
  refine ⟨⟨fun t => ?_, fun t u htu a ha b hb => ?_⟩, fun t a ha x hx => ?_, ?_, ?_⟩
  · exact pairwise_phaseBody apart_start apart_push (pairwise_moveWindow hnum hspread t c)
  · rw [mem_phaseBody, mem_moveWindow] at ha hb
    rcases ha with rfl | ⟨f, hf, d, hd, ha⟩ | rfl
    · rintro x ⟨⟩
    · rcases hb with rfl | ⟨g, hg, e, he, hb⟩ | rfl
      · exact apart_start a
      · exact apart_of_mem_objectStep hnum hspread hf hg hd (by grind) ha hb
      · rintro x - (h | h) <;> cases h
    · rintro x ⟨⟩
  · rw [mem_phaseBody, mem_moveWindow] at ha
    rcases ha with rfl | ⟨f, hf, d, hd, ha⟩ | rfl
    · cases hx
    · have hread := p.readRank_mapsTo d t.isLt
      have hwrite := p.writeRank_mapsTo d t.isLt
      simp only [Set.mem_Iio] at hread hwrite
      rw [mem_objectStep] at ha
      grind [mem_window_obj]
    · cases hx
  · intro t l a r hL done hl hsub
    have ha : a ∈ phaseBody (p.moveWindow t c) := by
      rw [hL]
      simp
    rw [mem_phaseBody, mem_moveWindow] at ha
    rcases ha with rfl | ⟨f, hf, d, hd, ha⟩ | rfl
    · trivial
    · rw [mem_objectStep] at ha
      rcases ha with rfl | rfl | ⟨-, rfl | rfl⟩
      · trivial
      · trivial
      · trivial
      · -- Nobody removes a data set in an iteration.
        refine .inl ⟨mem_window_dset.mpr ⟨p.writeRank_lt t d, hd⟩, fun u b hb => ?_⟩
        have hb' := hsub u hb
        rw [mem_phaseBody, mem_moveWindow] at hb'
        grind [mem_objectStep]
    · trivial
  · cases hro : p.readOnly with
    | true => exact contents_moveWindow_readOnly hro _
    | false => exact contents_moveWindow hnum hro hspread

/-! ## Cleanup -/

/-- The cleanup of a data set, with numbers that have not wrapped around. -/
def cleanupDset (p : Params) (rank c d : ℕ) : List Act :=
  ((List.range p.precreate).map fun f => .unlink rank d (c + f)) ++ [.removeDset rank d]

theorem cleanupRank_eq {c : ℕ} (hfit : 0 < p.dsetCount → c + p.precreate ≤ 2 ^ 64) (rank : ℕ) :
    p.cleanupRank rank (c % 2 ^ 64) = (List.range p.dsetCount).flatMap (p.cleanupDset rank c) := by
  refine List.flatMap_congr fun d hd => ?_
  rw [List.mem_range] at hd
  have hc := hfit (by omega)
  refine congrArg (· ++ _) (List.map_congr_left fun f hf => ?_)
  rw [List.mem_range] at hf
  rw [Nat.add_mod_mod, Nat.mod_eq_of_lt (by omega), Nat.add_comm]

theorem mem_cleanup {rank c : ℕ} {a : Act} :
    a ∈ (List.range p.dsetCount).flatMap (p.cleanupDset rank c) ↔
      ∃ d < p.dsetCount, (∃ f < p.precreate, a = .unlink rank d (c + f)) ∨
        a = .removeDset rank d := by
  simp [cleanupDset, eq_comm]

theorem pairwise_cleanup {R : Act → Act → Prop} (rank c : ℕ)
    (hunlink : ∀ d f g, f < g → R (.unlink rank d (c + f)) (.unlink rank d (c + g)))
    (hremove : ∀ d f, R (.unlink rank d (c + f)) (.removeDset rank d))
    (hdsets : ∀ d e, d < e → ∀ a ∈ p.cleanupDset rank c d, ∀ b ∈ p.cleanupDset rank c e, R a b) :
    ((List.range p.dsetCount).flatMap (p.cleanupDset rank c)).Pairwise R := by
  rw [List.pairwise_flatMap]
  refine ⟨fun d _ => ?_, List.pairwise_lt_range.imp fun hlt => hdsets _ _ hlt⟩
  rw [cleanupDset, List.pairwise_append, List.pairwise_map]
  refine ⟨List.pairwise_lt_range.imp fun hlt => hunlink d _ _ hlt, List.pairwise_singleton _ _, ?_⟩
  intro a ha b hb
  obtain ⟨f, -, rfl⟩ := List.mem_map.mp ha
  rw [List.mem_singleton.mp hb]
  exact hremove d f

theorem mem_cleanupDset {rank c d : ℕ} {a : Act} (ha : a ∈ p.cleanupDset rank c d) :
    (∃ f, a = .unlink rank d (c + f)) ∨ a = .removeDset rank d := by
  simp only [cleanupDset, List.mem_append, List.mem_map, List.mem_singleton] at ha
  grind

/-- Nothing is left after the cleanup. -/
theorem contents_cleanup (c : ℕ) :
    contents effects (p.window c) (fun t : Fin p.threads =>
      phaseBody ((List.range p.dsetCount).flatMap (p.cleanupDset t c))) = ∅ := by
  ext x
  simp only [contents, mem_phaseBody, mem_cleanup, Set.mem_ofPred_eq, Set.mem_empty_iff_false,
    iff_false]
  rintro (⟨hbase, hkept⟩ | ⟨t, a, ha, hx⟩)
  · cases x with
    | dset rank d =>
      rw [mem_window_dset] at hbase
      exact hkept ⟨rank, hbase.1⟩ (.removeDset rank d) (.inr (.inl ⟨d, hbase.2, .inr rfl⟩)) rfl
    | obj rank d i =>
      rw [mem_window_obj] at hbase
      obtain ⟨hr, hd, hci, hiP⟩ := hbase
      exact hkept ⟨rank, hr⟩ (.unlink rank d i) (.inr (.inl ⟨d, hd, .inl ⟨i - c, by omega,
        by rw [Nat.add_sub_cancel' hci]⟩⟩)) rfl
  · grind

/-- A rank removes the objects of a data set before it. -/
theorem unlink_before {t : Fin p.threads} {l r : List Act} {c d f : ℕ} (hd : d < p.dsetCount)
    (hf : f < p.precreate)
    (hL : phaseBody ((List.range p.dsetCount).flatMap (p.cleanupDset t c)) = l ++ .removeDset t d :: r) :
    .unlink t d (c + f) ∈ l := by
  refine mem_before hL (pairwise_phaseBody (by simp) (by simp) (pairwise_cleanup t c ?_ ?_ ?_)) ?_ (by simp)
  · simp
  · simp
  · intro d' e hlt b hb b' hb'
    have h1 := mem_cleanupDset hb
    have h2 := mem_cleanupDset hb'
    grind
  · rw [mem_phaseBody, mem_cleanup]
    exact .inr (.inl ⟨d, hd, .inl ⟨f, hf, rfl⟩⟩)

theorem cleanup_fits (c : ℕ) :
    PhaseFits (p := p)
      (fun t => phaseBody ((List.range p.dsetCount).flatMap (p.cleanupDset t c)))
      (p.window c) ∅ := by
  refine ⟨⟨fun t => ?_, fun t u htu a ha b hb => ?_⟩, fun t a ha x hx => ?_, ?_, contents_cleanup c⟩
  · refine pairwise_phaseBody apart_start apart_push (pairwise_cleanup t c ?_ ?_ ?_)
    · intro d f g hlt
      grind [Apart, Changes]
    · intro d f
      grind [Apart, Changes]
    · intro d e hlt a ha b hb
      have ha' := mem_cleanupDset ha
      have hb' := mem_cleanupDset hb
      grind [Apart, Changes]
  · have hne : (t : ℕ) ≠ u := Fin.val_ne_of_ne htu
    rw [mem_phaseBody, mem_cleanup] at ha hb
    grind [Changes]
  · rw [mem_phaseBody, mem_cleanup] at ha
    have ht := t.isLt
    grind [mem_window_dset, mem_window_obj]
  · intro t l a r hL done hl hsub
    have ha : a ∈ phaseBody ((List.range p.dsetCount).flatMap (p.cleanupDset t c)) := by
      rw [hL]
      simp
    rw [mem_phaseBody, mem_cleanup] at ha
    rcases ha with rfl | ⟨d, hd, ⟨f, hf, rfl⟩ | rfl⟩ | rfl
    · trivial
    · trivial
    · intro i hi
      rcases hi with ⟨hbase, hkept⟩ | ⟨u, b, hb, hadd⟩
      · rw [mem_window_obj] at hbase
        obtain ⟨-, -, hci, hiP⟩ := hbase
        have hmem := unlink_before (f := i - c) hd (by omega) hL
        rw [Nat.add_sub_cancel' hci] at hmem
        exact hkept t (.unlink t d i) (hl ▸ hmem) rfl
      · have hb' := hsub u hb
        rw [mem_phaseBody, mem_cleanup] at hb'
        grind
    · trivial

end Params

end Fstest.Mdworkbench
