import Fstest.Lib.Sequel
import Fstest.Mdworkbench.WorkingSet

/-!
# An invocation of mdworkbench on the directory that an earlier one has left

Between two invocations there are the entries of the working directory and what the objects hold; the
counters of the ranks are new in each. `Agrees` compares what invocations with different seeds do: the
entries never depend on the seed, the contents only through the pattern (`exists_agreeing_run`).
-/

namespace Fstest.Mdworkbench

open Barrier

/-- What is on disk. -/
structure Dir where
  entries : Finset Entry
  content : Entry → Bytes
  prefixDir : Bool

/-- Nothing has been made yet. -/
def Dir.empty : Dir where
  entries := ∅
  content := fun _ => []
  prefixDir := false

def Store.dir {n : ℕ} (y : Store n) : Dir where
  entries := y.entries
  content := y.content
  prefixDir := y.prefixDir

namespace Params

variable (p : Params)

/-- The store with which an invocation starts. With the precreation, `run` makes the working
directory. -/
def opened (D : Dir) : Store p.threads where
  entries := D.entries
  content := D.content
  prefixDir := D.prefixDir || p.phasePrecreate
  ranks := fun _ => {}

/-- An invocation can make `D'` of the directory `D`. -/
def Ends (D D' : Dir) : Prop :=
  ∃ s, Reachable p.exec (fun t => p.rankProgram t) (p.opened D) s ∧ Finished s ∧ s.shared.dir = D'

/-- The parameters of an invocation with the given phases: everything else is the same. -/
abbrev invocation (seed : ℕ) (precreate benchmark cleanup : Bool) (iterations startItem : ℕ) : Params :=
  { p with
    seed := seed
    phasePrecreate := precreate
    phaseBenchmark := benchmark
    phaseCleanup := cleanup
    iterations := iterations
    startItem := startItem % 2 ^ 64
    startItem_lt := Nat.mod_lt _ (Nat.two_pow_pos 64) }

end Params

/-! ## What depends on the seed -/

/-- The same entries, and where `c` holds the same contents. -/
structure Dir.Agrees (c : Prop) (D D' : Dir) : Prop where
  entries : D.entries = D'.entries
  prefixDir : D.prefixDir = D'.prefixDir
  content : c → D.content = D'.content

section

variable {n : ℕ} {c : Prop} {y y' : Store n} {t : Fin n}

theorem Dir.Agrees.refl (D : Dir) : D.Agrees c D := ⟨rfl, rfl, fun _ => rfl⟩

theorem Dir.Agrees.symm {D D' : Dir} (h : D.Agrees c D') : D'.Agrees c D :=
  ⟨h.entries.symm, h.prefixDir.symm, fun hc => (h.content hc).symm⟩

@[simp] theorem Store.dir_modifyRank (f : Rank → Rank) : (y.modifyRank t f).dir = y.dir := rfl

@[simp] theorem Store.ranks_modifyRank (f : Rank → Rank) : (y.modifyRank t f).ranks t = f (y.ranks t) :=
  Function.update_self t _ _

theorem Dir.Agrees.write (h : y.dir.Agrees c y'.dir) (rank d i : ℕ) {bytes bytes' : Bytes}
    (hbytes : c → bytes = bytes') : (y.write rank d i bytes).dir.Agrees c (y'.write rank d i bytes').dir where
  entries := congrArg (insert _) h.entries
  prefixDir := h.prefixDir
  content hc := by
    have hentries : y.entries = y'.entries := h.entries
    have hcontent : y.content = y'.content := h.content hc
    simp only [Store.dir, Store.write, hbytes hc, hentries, hcontent]

theorem Dir.Agrees.remove (h : y.dir.Agrees c y'.dir) (e : Entry) :
    (y.remove e).dir.Agrees c (y'.remove e).dir where
  entries := congrArg (Finset.erase · e) h.entries
  prefixDir := h.prefixDir
  content := h.content

end

namespace Params

variable {p : Params} {c : Prop} {seed seed' seed'' : ℕ}

/-- The parameters with a seed. -/
abbrev seeded (p : Params) (seed : ℕ) : Params := { p with seed := seed }

/-- The same pattern in every object, if `c` holds. -/
def SamePattern (p : Params) (c : Prop) (seed seed' : ℕ) : Prop :=
  c → ∀ rank d i, (p.seeded seed).pattern rank d i = (p.seeded seed').pattern rank d i

/-- What a rank leaves out is forgotten at the start of a phase. -/
theorem exec_start_skip (y y' : Store p.threads) (t : Fin p.threads) :
    (((p.seeded seed).exec t .start y).ranks t).skip = (((p.seeded seed').exec t .start y').ranks t).skip := by
  simp only [Params.exec, Store.ranks_modifyRank]

theorem exec_removePrefix_ranks (y : Store p.threads) (t : Fin p.threads) :
    (p.exec t .removePrefix y).ranks = y.ranks := by
  simp only [exec]
  split <;> rfl

theorem exec_removePrefix_agrees {y y' : Store p.threads} (h : y.dir.Agrees c y'.dir) (t : Fin p.threads) :
    ((p.seeded seed).exec t .removePrefix y).dir.Agrees c ((p.seeded seed').exec t .removePrefix y').dir := by
  have hentries : y.entries = y'.entries := h.entries
  simp only [exec, hentries]
  split
  · exact ⟨rfl, rfl, h.content⟩
  · exact h

/-- **An operation does the same to the entries whatever the seed is**, and to the contents if the pattern
is the same. -/
theorem exec_agrees (hpattern : p.SamePattern c seed seed') {y y' : Store p.threads}
    (h : y.dir.Agrees c y'.dir) (t : Fin p.threads) (a : Act)
    (hskip : (y.ranks t).skip = (y'.ranks t).skip) :
    ((p.seeded seed).exec t a y).dir.Agrees c ((p.seeded seed').exec t a y').dir ∧
      (((p.seeded seed).exec t a y).ranks t).skip = (((p.seeded seed').exec t a y').ranks t).skip := by
  have hentries : y.entries = y'.entries := h.entries
  have hwrite := fun rank d i => h.write rank d i (fun hc => hpattern hc rank d i)
  cases a with
  | start =>
    simp only [Params.exec, Store.dir_modifyRank, Store.ranks_modifyRank]
    exact ⟨h, trivial⟩
  | push =>
    simp only [Params.exec, Store.dir_modifyRank, Store.ranks_modifyRank]
    exact ⟨h, hskip⟩
  | removePrefix =>
    rw [exec_removePrefix_ranks, exec_removePrefix_ranks]
    exact ⟨exec_removePrefix_agrees h t, hskip⟩
  | createDset rank d =>
    simp only [Params.exec, hentries]
    split
    · exact ⟨h, hskip⟩
    · simp only [Store.dir_modifyRank, Store.ranks_modifyRank]
      exact ⟨⟨rfl, h.prefixDir, h.content⟩, hskip⟩
  | precreate rank d i =>
    simp only [Params.exec, hentries, hskip]
    split
    · exact ⟨h, hskip⟩
    · split
      · simp only [Store.dir_modifyRank, Store.ranks_modifyRank]
        exact ⟨hwrite rank d i, hskip⟩
      · simp only [Store.dir_modifyRank, Store.ranks_modifyRank]
        exact ⟨h, trivial⟩
  | stat rank d i =>
    simp only [Params.exec, hentries]
    split
    · simp only [Store.dir_modifyRank, Store.ranks_modifyRank]
      exact ⟨h, trivial⟩
    · simp only [Store.dir_modifyRank, Store.ranks_modifyRank]
      exact ⟨h, trivial⟩
  | read rank d i =>
    have hread : ∀ (s : ℕ) (z : Store p.threads), ((p.seeded s).exec t (.read rank d i) z).dir = z.dir ∧
        (((p.seeded s).exec t (.read rank d i) z).ranks t).skip = (z.ranks t).skip := by
      intro s z
      simp only [Params.exec]
      repeat' split
      all_goals first | exact ⟨rfl, rfl⟩ | exact ⟨rfl, by rw [Store.ranks_modifyRank]; rfl⟩
    rw [(hread seed y).1, (hread seed' y').1, (hread seed y).2, (hread seed' y').2]
    exact ⟨h, hskip⟩
  | delete rank d i =>
    simp only [Params.exec, hentries, hskip]
    split
    · exact ⟨h, hskip⟩
    · split
      · simp only [Store.dir_modifyRank, Store.ranks_modifyRank]
        exact ⟨h.remove _, hskip⟩
      · simp only [Store.dir_modifyRank, Store.ranks_modifyRank]
        exact ⟨h, hskip⟩
  | create rank d i =>
    simp only [Params.exec, hentries, hskip]
    split
    · exact ⟨h, hskip⟩
    · split
      · simp only [Store.dir_modifyRank, Store.ranks_modifyRank]
        exact ⟨hwrite rank d i, hskip⟩
      · simp only [Store.dir_modifyRank, Store.ranks_modifyRank]
        exact ⟨h, hskip⟩
  | unlink rank d i =>
    simp only [Params.exec, hentries]
    split
    · simp only [Store.dir_modifyRank, Store.ranks_modifyRank]
      exact ⟨h.remove _, hskip⟩
    · exact ⟨h, hskip⟩
  | removeDset rank d =>
    simp only [Params.exec, hentries, Store.dir_modifyRank, Store.ranks_modifyRank]
    split
    · exact ⟨h, hskip⟩
    · exact ⟨h.remove _, hskip⟩

/-! ## What the objects hold -/

end Params

/-- Every object holds its own contents. -/
def Dir.Own (D : Dir) (q : Params) : Prop :=
  ∀ rank d i, .obj rank d i ∈ D.entries → D.content (.obj rank d i) = q.pattern rank d i

theorem Dir.Own.write {q : Params} {n : ℕ} {y : Store n} (h : y.dir.Own q) (rank d i : ℕ) :
    (y.write rank d i (q.pattern rank d i)).dir.Own q := by
  intro rank' d' i' hmem
  change Function.update y.content (.obj rank d i) _ (.obj rank' d' i') = _
  by_cases heq : Entry.obj rank' d' i' = .obj rank d i
  · rw [heq, Function.update_self]
    cases heq
    have hdrop : (if Entry.obj rank d i ∈ y.entries then y.content (.obj rank d i) else []).drop
        (q.pattern rank d i).length = [] := by
      split
      · rename_i hold
        have hcontent : y.content (.obj rank d i) = q.pattern rank d i := h rank d i hold
        rw [hcontent, List.drop_length]
      · exact List.drop_nil
    rw [Params.writeOver, hdrop, List.append_nil]
  · rw [Function.update_of_ne heq]
    exact h rank' d' i' ((Finset.mem_insert.mp hmem).resolve_left heq)

theorem Dir.Own.remove {q : Params} {n : ℕ} {y : Store n} (h : y.dir.Own q) (e : Entry) :
    (y.remove e).dir.Own q :=
  fun rank d i hmem => h rank d i (Finset.mem_of_mem_erase hmem)

namespace Params

variable {p : Params} {c : Prop} {seed seed' seed'' : ℕ}

/-- **Every object that is written is written with its own contents**, whatever else happens. -/
theorem exec_own {q : Params} {y : Store q.threads} (h : y.dir.Own q) (t : Fin q.threads) (a : Act) :
    (q.exec t a y).dir.Own q := by
  cases a with
  | createDset rank d =>
    simp only [exec]
    split
    · exact h
    · intro rank' d' i hmem
      exact h rank' d' i ((Finset.mem_insert.mp hmem).resolve_left fun h => by cases h)
  | removePrefix =>
    simp only [exec]
    split
    · exact h
    · exact h
  | start | push | stat | read =>
    simp only [exec]
    repeat' split
    all_goals exact h
  | precreate | create =>
    simp only [exec]
    repeat' split
    all_goals first | exact h | exact h.write _ _ _
  | delete | unlink | removeDset =>
    simp only [exec]
    repeat' split
    all_goals first | exact h | exact h.remove _

/-! ## Runs that agree -/

/-- What a rank has left out so far does not matter for what it has still to do. -/
def Fresh : List (Instr Act) → Prop
  | [] => True
  | .wait :: r => Fresh r
  | .op a :: r => a = .start ∨ a = .removePrefix ∧ Fresh r

/-- Two stores in the midst of runs that agree. -/
structure Alike (c : Prop) (rest : Fin p.threads → List (Instr Act)) (y y' : Store p.threads) : Prop where
  dir : y.dir.Agrees c y'.dir
  skip : ∀ t, (y.ranks t).skip = (y'.ranks t).skip ∨ Fresh (rest t)

theorem exec_ranks (y : Store p.threads) {t u : Fin p.threads} (a : Act) (hut : u ≠ t) :
    (p.exec t a y).ranks u = y.ranks u := by
  have hmodify : ∀ (z : Store p.threads) (f : Rank → Rank), (z.modifyRank t f).ranks u = z.ranks u :=
    fun z f => Function.update_of_ne hut _ _
  cases a <;> simp only [exec] <;> repeat' split
  all_goals first | rfl | exact hmodify _ _

theorem Alike.op (hpattern : p.SamePattern c seed seed') {rest : Fin p.threads → List (Instr Act)}
    {y y' : Store p.threads} {t : Fin p.threads} {a : Act} {r : List (Instr Act)} (h : Alike c rest y y')
    (hr : rest t = .op a :: r) :
    Alike c (Function.update rest t r) ((p.seeded seed).exec t a y) ((p.seeded seed').exec t a y') := by
  have hothers : ∀ u ≠ t, (((p.seeded seed).exec t a y).ranks u).skip =
      (((p.seeded seed').exec t a y').ranks u).skip ∨ Fresh (Function.update rest t r u) := by
    intro u hut
    rw [exec_ranks (p := p.seeded seed) y a hut, exec_ranks (p := p.seeded seed') y' a hut,
      Function.update_of_ne hut]
    exact h.skip u
  have hsame : ∀ hskip : (y.ranks t).skip = (y'.ranks t).skip,
      Alike c (Function.update rest t r) ((p.seeded seed).exec t a y) ((p.seeded seed').exec t a y') := by
    intro hskip
    obtain ⟨hdir, hskip'⟩ := exec_agrees hpattern h.dir t a hskip
    refine ⟨hdir, fun u => ?_⟩
    by_cases hut : u = t
    · subst hut
      exact .inl hskip'
    · exact hothers u hut
  rcases h.skip t with hskip | hfresh
  · exact hsame hskip
  · rw [hr] at hfresh
    rcases hfresh with rfl | ⟨rfl, hfresh⟩
    · refine ⟨?_, fun u => ?_⟩
      · simp only [exec, Store.dir_modifyRank]
        exact h.dir
      · by_cases hut : u = t
        · subst hut
          exact .inl (exec_start_skip y y' u)
        · exact hothers u hut
    · refine ⟨exec_removePrefix_agrees h.dir t, fun u => ?_⟩
      by_cases hut : u = t
      · subst hut
        rw [Function.update_self]
        exact .inr hfresh
      · exact hothers u hut

theorem Alike.wait {rest : Fin p.threads → List (Instr Act)} {y y' : Store p.threads} {t : Fin p.threads}
    {r : List (Instr Act)} (h : Alike c rest y y') (hr : rest t = .wait :: r) :
    Alike c (Function.update rest t r) y y' := by
  refine ⟨h.dir, fun u => ?_⟩
  by_cases hut : u = t
  · subst hut
    have hskip := h.skip u
    rw [hr] at hskip
    rwa [Function.update_self]
  · rw [Function.update_of_ne hut]
    exact h.skip u

/-- **Runs with different seeds from the same entries come to the same entries**, and to the same contents
if the pattern is the same. -/
theorem exists_agreeing_run (hpattern : p.SamePattern c seed seed') {prog : Fin p.threads → List (Instr Act)}
    (hprog : ∀ t, Fresh (prog t)) {y y' : Store p.threads} (h : y.dir.Agrees c y'.dir)
    {s : State p.threads (Store p.threads) Act} (hs : Reachable (p.seeded seed).exec prog y s)
    (hfin : Finished s) :
    ∃ s', Reachable (p.seeded seed').exec prog y' s' ∧ Finished s' ∧ s.shared.dir.Agrees c s'.shared.dir := by
  have hinit : Alike (p := p) c prog y y' := ⟨h, fun t => .inr (hprog t)⟩
  have hop : ∀ (f : Fin p.threads → List (Instr Act)) (z z' : Store p.threads) t a r,
      Alike (p := p) c f z z' → f t = .op a :: r →
      Alike (p := p) c (Function.update f t r) ((p.seeded seed).exec t a z) ((p.seeded seed').exec t a z') :=
    fun _ _ _ _ _ _ hR hr => hR.op hpattern hr
  obtain ⟨z, hz, halike⟩ := hs.simulate hinit hop fun _ _ _ _ _ hR hr => hR.wait hr
  exact ⟨_, hz, hfin, halike.dir⟩

/-! ## The programs of invocations -/

theorem fresh_rankProgram (rank : ℕ) : Fresh (p.rankProgram rank) := by
  rw [rankProgram]
  cases p.phases rank with
  | nil =>
    rw [List.flatMap_nil, List.nil_append]
    split
    · exact .inr ⟨rfl, trivial⟩
    · exact trivial
  | cons body bodies => exact .inl rfl

theorem closed_rankProgram (hclean : p.phaseCleanup = false) (rank : ℕ) : Closed (p.rankProgram rank) := by
  rw [rankProgram_eq, lastActs, if_neg (by simp [hclean]), List.map_nil, List.append_nil]
  exact closed_rounds _

theorem waits_rankProgram_eq (rank : ℕ) : waits (p.rankProgram rank) = 2 * (p.phases rank).length := by
  rw [rankProgram_eq, waits_rounds, List.length_map]

theorem currentIndex_add (k : ℕ) : p.currentIndex k = (p.startItem + p.firstObject k) % 2 ^ 64 := by
  induction k with
  | zero =>
    have hzero : p.firstObject 0 = 0 := by simp [firstObject]
    rw [hzero, Nat.add_zero, Nat.mod_eq_of_lt p.startItem_lt]
    rfl
  | succ k ih =>
    rw [currentIndex, ih, firstObject_succ]
    split
    · rfl
    · rw [Nat.mod_add_mod, Nat.add_assoc]

theorem firstObject_add (k k' : ℕ) : p.firstObject (k + k') = p.firstObject k + p.firstObject k' := by
  rw [firstObject, firstObject, firstObject]
  split
  · rfl
  · exact Nat.add_mul k k' p.num

section

variable (p) (k k' : ℕ) (t : ℕ)

/-- The precreation, and the first `k` iterations of the benchmark. -/
abbrev upTo (seed k : ℕ) : Params := p.invocation seed true true false k 0

/-- A benchmark of `k'` iterations, after `k` iterations. -/
abbrev benchmarkFrom (seed k k' : ℕ) : Params := p.invocation seed false true false k' (p.firstObject k)

/-- The cleanup after `k` iterations. -/
abbrev cleanupFrom (seed k : ℕ) : Params := p.invocation seed false false true 0 (p.firstObject k)

/-- A run of all phases. -/
abbrev whole (seed k : ℕ) : Params := p.invocation seed true true true k 0

theorem rankProgram_upTo (seed : ℕ) : (p.upTo seed k).rankProgram t =
    phaseProgram (p.precreateRank t 0) ++
      (List.range k).flatMap fun it => phaseProgram (p.benchmarkRank t (p.firstObject it % 2 ^ 64)) := by
  have hindex : ∀ it, (p.upTo seed k).currentIndex it = p.firstObject it % 2 ^ 64 := by
    intro it
    rw [currentIndex_add]
    exact congrArg (· % 2 ^ 64) (Nat.zero_add _)
  simp only [rankProgram, phases, hindex, if_true, Bool.false_eq_true, if_false, false_and, List.append_nil,
    List.singleton_append, List.flatMap_cons, List.flatMap_map]
  rfl

theorem rankProgram_benchmarkFrom (seed : ℕ) : (p.benchmarkFrom seed k k').rankProgram t =
    (List.range k').flatMap fun it => phaseProgram (p.benchmarkRank t (p.firstObject (k + it) % 2 ^ 64)) := by
  have hindex : ∀ it, (p.benchmarkFrom seed k k').currentIndex it = p.firstObject (k + it) % 2 ^ 64 := by
    intro it
    rw [currentIndex_add, firstObject_add]
    exact Nat.mod_add_mod _ _ _
  simp only [rankProgram, phases, hindex, if_true, Bool.false_eq_true, if_false, false_and, List.append_nil,
    List.nil_append, List.flatMap_map]
  rfl

theorem rankProgram_cleanupFrom (seed : ℕ) : (p.cleanupFrom seed k).rankProgram t =
    phaseProgram (p.cleanupRank t (p.firstObject k % 2 ^ 64)) ++
      if t = 0 then [.op .removePrefix] else [] := by
  simp only [rankProgram, phases, if_true, Bool.false_eq_true, if_false, true_and,
    List.nil_append, List.flatMap_cons, List.flatMap_nil, List.append_nil]
  rfl

theorem rankProgram_precreation (seed : ℕ) : (p.invocation seed true false false 0 0).rankProgram t =
    phaseProgram (p.precreateRank t 0) := by
  simp only [rankProgram, phases, if_true, Bool.false_eq_true, if_false, false_and, List.append_nil,
    List.flatMap_cons, List.flatMap_nil]
  rfl

theorem rankProgram_whole (seed : ℕ) : (p.whole seed k).rankProgram t =
    (p.upTo seed' k).rankProgram t ++ (p.cleanupFrom seed'' k).rankProgram t := by
  have hindex : ∀ it, (p.whole seed k).currentIndex it = p.firstObject it % 2 ^ 64 := by
    intro it
    rw [currentIndex_add]
    exact congrArg (· % 2 ^ 64) (Nat.zero_add _)
  rw [rankProgram_upTo, rankProgram_cleanupFrom]
  simp only [rankProgram, phases, hindex, if_true, true_and, List.append_assoc, List.flatMap_append,
    List.singleton_append, List.flatMap_cons, List.flatMap_nil, List.flatMap_map, List.nil_append]
  rfl

theorem rankProgram_upTo_zero (seed : ℕ) : (p.upTo seed 0).rankProgram t =
    (p.invocation seed' true false false 0 0).rankProgram t := by
  rw [rankProgram_upTo, rankProgram_precreation, List.range_zero, List.flatMap_nil, List.append_nil]

theorem waits_upTo (seed : ℕ) : waits ((p.upTo seed k).rankProgram t) = 2 * (k + 1) := by
  rw [waits_rankProgram_eq]
  simp [phases]

/-- **More iterations are a further invocation**, from the item to which the first one has come. -/
theorem rankProgram_upTo_add : (p.upTo seed (k + k')).rankProgram t =
    (p.upTo seed k).rankProgram t ++ (p.benchmarkFrom seed' k k').rankProgram t := by
  rw [rankProgram_upTo, rankProgram_upTo, rankProgram_benchmarkFrom, List.range_add, List.flatMap_append,
    List.flatMap_map, List.append_assoc]

end

end Params

end Fstest.Mdworkbench
