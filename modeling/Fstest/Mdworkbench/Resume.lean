import Fstest.Mdworkbench.Invocation
import Mathlib.Order.Monotone.Defs

/-!
# Runs of mdworkbench in several invocations

A precreation, benchmarks that go on from the item to which the one before has come, and a cleanup. They
can leave what one invocation with all phases can (`exists_whole`, `exists_cleaned`), and where all have
the same pattern every object holds its own. Without a seed each invocation has its own pattern, the
seconds of its clock, and reads fail (`selfConsistent_iff`).
-/

namespace Fstest.Mdworkbench

open Barrier Entries

/-- The same entries, and the same contents in each object. -/
structure Dir.Same (D D' : Dir) : Prop where
  entries : D.entries = D'.entries
  prefixDir : D.prefixDir = D'.prefixDir
  content : ∀ e ∈ D.entries, D.content e = D'.content e

theorem Dir.Agrees.same {c : Prop} {D D' : Dir} (h : D.Agrees c D') (hc : c ∨ D'.entries = ∅) : D.Same D' := by
  refine ⟨h.entries, h.prefixDir, fun e he => ?_⟩
  rcases hc with hc | hnone
  · rw [h.content hc]
  · rw [h.entries, hnone] at he
    exact absurd he (Finset.notMem_empty e)

namespace Params

/-- The seed of an invocation: 0 stands for the seconds of the clock. -/
def seedOf (G now : ℕ) : ℕ := if G = 0 then now else G

/-- The state is reached by an invocation on the directory. -/
abbrev ReachesFrom (p : Params) (D : Dir) (s : State p.threads (Store p.threads) Act) : Prop :=
  Reachable p.exec (fun t => p.rankProgram t) (p.opened D) s

section

variable (p : Params) (G : ℕ) (now : ℕ → ℕ)

abbrev precreation : Params := p.invocation (seedOf G (now 0)) true false false 0 0

/-- The next benchmark invocation, of `k` iterations, after those of `ks`. -/
abbrev nextBenchmark (ks : List ℕ) (k : ℕ) : Params :=
  p.benchmarkFrom (seedOf G (now (ks.length + 1))) ks.sum k

abbrev lastCleanup (ks : List ℕ) : Params := p.cleanupFrom (seedOf G (now (ks.length + 1))) ks.sum

/-- What a precreation and benchmarks of `ks` iterations can leave. Invocation `j` starts at the time
`now j`. -/
inductive Resumed : List ℕ → Dir → Prop
  | precreation {D : Dir} (h : (p.precreation G now).Ends Dir.empty D) : Resumed [] D
  | benchmark {ks : List ℕ} {k : ℕ} {D D' : Dir} (h : Resumed ks D)
      (h' : (p.nextBenchmark G now ks k).Ends D D') : Resumed (ks ++ [k]) D'

/-- What they can leave after a cleanup. -/
def Cleaned (ks : List ℕ) (D' : Dir) : Prop :=
  ∃ D, p.Resumed G now ks D ∧ (p.lastCleanup G now ks).Ends D D'

/-- The states of all invocations. -/
inductive Visits (ks : List ℕ) : (q : Params) → State q.threads (Store q.threads) Act → Prop
  | precreation {s} (h : (p.precreation G now).ReachesFrom Dir.empty s) : Visits ks (p.precreation G now) s
  | benchmark {ks₁ ks₂ : List ℕ} {k : ℕ} {D : Dir} {s} (hks : ks = ks₁ ++ k :: ks₂)
      (h : p.Resumed G now ks₁ D) (h' : (p.nextBenchmark G now ks₁ k).ReachesFrom D s) :
      Visits ks (p.nextBenchmark G now ks₁ k) s
  | cleanup {D : Dir} {s} (h : p.Resumed G now ks D) (h' : (p.lastCleanup G now ks).ReachesFrom D s) :
      Visits ks (p.lastCleanup G now ks) s

end

/-- A read of the object reports a verify error. -/
def VerifyError (q : Params) (y : Store q.threads) (rank d i : ℕ) : Prop :=
  q.verifyRead = true ∧ 0 < q.fileSize ∧ .obj rank d i ∈ y.entries ∧
    q.fileSize ≤ (y.content (.obj rank d i)).length ∧
    (y.content (.obj rank d i)).take q.fileSize ≠ q.pattern rank d i

/-- No rank is about to read an object with a verify error. -/
def Verifies (q : Params) (s : State q.threads (Store q.threads) Act) : Prop :=
  ∀ t rank d i r, s.blocked t = none → s.rest t = .op (.read rank d i) :: r →
    (s.shared.ranks t).skip = false → ¬ q.VerifyError s.shared rank d i

/-- The times at which invocations start, one after the other. -/
def Clock (now : ℕ → ℕ) : Prop := Monotone now ∧ ∀ j, now j < 2 ^ 64

/-- Data verifies across invocations, and they leave what one invocation leaves. -/
structure SelfConsistent (p : Params) (G : ℕ) (ks : List ℕ) : Prop where
  verifies : ∀ now, Clock now → ∀ q s, p.Visits G now ks q s → q.Verifies s
  whole : ∀ now t, Clock now → t < 2 ^ 64 → ∀ D, p.Cleaned G now ks D →
    ∃ D', (p.whole (seedOf G t) ks.sum).Ends Dir.empty D' ∧ D.Same D'
  cleaned : ∀ now t, Clock now → t < 2 ^ 64 → ∀ D', (p.whole (seedOf G t) ks.sum).Ends Dir.empty D' →
    ∃ D, p.Cleaned G now ks D ∧ D.Same D'

variable {p : Params} {G seed : ℕ} {now : ℕ → ℕ} {c : Prop}

/-! ## The same directories -/

theorem opened_dir {q : Params} (h : q.phasePrecreate = false) (D : Dir) : (q.opened D).dir = D := by
  simp only [opened, Store.dir, h, Bool.or_false]

/-- A run of the single invocation, with its seed, up to the end of some programs. -/
def RunsTo (p : Params) (seed : ℕ) (prog : Fin p.threads → List (Instr Act)) (y z : Store p.threads) : Prop :=
  ∃ s, Reachable (p.seeded seed).exec prog y s ∧ Finished s ∧ s.shared = z

section

variable {prog prog' : Fin p.threads → List (Instr Act)} {y z z' : Store p.threads} {W : ℕ}

theorem RunsTo.congr (h : p.RunsTo seed prog y z) (hprog : ∀ t, prog t = prog' t) :
    p.RunsTo seed prog' y z := by
  rwa [← funext hprog]

theorem RunsTo.append (h : p.RunsTo seed prog y z) (h' : p.RunsTo seed prog' z z') :
    p.RunsTo seed (fun t => prog t ++ prog' t) y z' := by
  obtain ⟨s, hs, hfin, rfl⟩ := h
  obtain ⟨s', hs', hfin', rfl⟩ := h'
  refine ⟨_, reachable_append p.threads_pos hs hfin hs', fun t => ⟨(hfin' t).1, ?_⟩, rfl⟩
  exact congrArg (Option.map _) (hfin' t).2

theorem RunsTo.split (h : p.RunsTo seed (fun t => prog t ++ prog' t) y z') (hwaits : ∀ t, waits (prog t) = W)
    (hclosed : ∀ t, Closed (prog t)) :
    ∃ z, p.RunsTo seed prog y z ∧ p.RunsTo seed prog' z z' := by
  obtain ⟨s, hs, hfin, rfl⟩ := h
  obtain ⟨s₁, s₂, h₁, hfin₁, h₂, hfin₂, hshared⟩ := exists_split p.threads_pos hwaits hclosed hs hfin
  exact ⟨s₁.shared, ⟨s₁, h₁, hfin₁, rfl⟩, s₂, h₂, hfin₂, hshared⟩

end

section

variable {a b e : Bool} {k i seed' : ℕ} {D D' : Dir} {y z : Store p.threads}

/-- An invocation does what the single one does from an agreeing directory. -/
theorem Ends.runsTo (hpattern : p.SamePattern c seed' seed) (h : (p.invocation seed' a b e k i).Ends D D')
    (hD : ((p.invocation seed' a b e k i).opened D).dir.Agrees c y.dir) :
    ∃ z, p.RunsTo seed (fun t => (p.invocation seed' a b e k i).rankProgram t) y z ∧ D'.Agrees c z.dir := by
  obtain ⟨s, hs, hfin, rfl⟩ := h
  obtain ⟨s', hs', hfin', hagrees⟩ :=
    exists_agreeing_run hpattern (fun t => fresh_rankProgram (t : ℕ)) hD hs hfin
  exact ⟨s'.shared, ⟨s', hs', hfin', rfl⟩, hagrees⟩

theorem RunsTo.ends (hpattern : p.SamePattern c seed' seed)
    (h : p.RunsTo seed (fun t => (p.invocation seed' a b e k i).rankProgram t) y z)
    (hD : ((p.invocation seed' a b e k i).opened D).dir.Agrees c y.dir) :
    ∃ D', (p.invocation seed' a b e k i).Ends D D' ∧ D'.Agrees c z.dir := by
  obtain ⟨s, hs, hfin, rfl⟩ := h
  have hpattern' : p.SamePattern c seed seed' := fun hc rank d i => (hpattern hc rank d i).symm
  obtain ⟨s', hs', hfin', hagrees⟩ :=
    exists_agreeing_run hpattern' (fun t => fresh_rankProgram (t : ℕ)) hD.symm hs hfin
  exact ⟨s'.shared.dir, ⟨s', hs', hfin', rfl⟩, hagrees.symm⟩

end

/-! ## One invocation or several -/

section

variable {ks : List ℕ} {D D' : Dir}

/-- The single invocation up to the end of `k` iterations. -/
abbrev RunsUpTo (p : Params) (seed k : ℕ) (y : Store p.threads) : Prop :=
  p.RunsTo seed (fun t => (p.upTo seed k).rankProgram t) p.emptyStore y

/-- **What several invocations leave, the single one can have after as many iterations.** -/
theorem Resumed.runsUpTo (hpattern : ∀ j, p.SamePattern c (seedOf G (now j)) seed)
    (h : p.Resumed G now ks D) : ∃ y, p.RunsUpTo seed ks.sum y ∧ D.Agrees c y.dir := by
  induction h with
  | precreation h =>
    obtain ⟨z, hz, hagrees⟩ := h.runsTo (hpattern 0) (y := p.emptyStore) (Dir.Agrees.refl _)
    exact ⟨z, hz.congr fun t => (rankProgram_upTo_zero p t seed).symm, hagrees⟩
  | @benchmark ks k D D' _ h' ih =>
    obtain ⟨y, hy, hD⟩ := ih
    obtain ⟨z, hz, hagrees⟩ := h'.runsTo (hpattern (ks.length + 1)) (y := y) (by rwa [opened_dir rfl])
    rw [List.sum_append, List.sum_singleton]
    exact ⟨z, (hy.append hz).congr fun t => (rankProgram_upTo_add p ks.sum k t).symm, hagrees⟩

/-- **What the single invocation has after some iterations, several ones can leave.** -/
theorem RunsTo.exists_resumed (hpattern : ∀ j, p.SamePattern c (seedOf G (now j)) seed) {y : Store p.threads}
    (h : p.RunsUpTo seed ks.sum y) : ∃ D, p.Resumed G now ks D ∧ D.Agrees c y.dir := by
  induction ks using List.reverseRecOn generalizing y with
  | nil =>
    have hrun : p.RunsTo seed (fun t => (p.precreation G now).rankProgram t) p.emptyStore y :=
      h.congr fun t => rankProgram_upTo_zero p t seed
    obtain ⟨D', hD', hagrees⟩ := hrun.ends (hpattern 0) (D := Dir.empty) (Dir.Agrees.refl _)
    exact ⟨D', .precreation hD', hagrees⟩
  | append_singleton ks k ih =>
    rw [RunsUpTo, List.sum_append, List.sum_singleton] at h
    have hrun : p.RunsTo seed (fun t => (p.upTo seed ks.sum).rankProgram t ++
        (p.nextBenchmark G now ks k).rankProgram t) p.emptyStore y :=
      h.congr fun t => rankProgram_upTo_add p ks.sum k t
    obtain ⟨z, hz, hlast⟩ := hrun.split (fun t => waits_upTo p _ t seed) fun t => closed_rankProgram rfl t
    obtain ⟨D, hD, hagrees⟩ := ih hz
    obtain ⟨D', hD', hagrees'⟩ := hlast.ends (hpattern (ks.length + 1)) (D := D) (by rwa [opened_dir rfl])
    exact ⟨D', hD.benchmark hD', hagrees'⟩

/-- **Several invocations leave nothing that one with all phases cannot leave.** -/
theorem exists_whole (hpattern : ∀ j, p.SamePattern c (seedOf G (now j)) seed) (h : p.Cleaned G now ks D) :
    ∃ D', (p.whole seed ks.sum).Ends Dir.empty D' ∧ D.Agrees c D' := by
  obtain ⟨D₁, hD₁, hD⟩ := h
  obtain ⟨y, hy, hagrees⟩ := hD₁.runsUpTo hpattern
  obtain ⟨z, hz, hagrees'⟩ := hD.runsTo (hpattern (ks.length + 1)) (y := y) (by rwa [opened_dir rfl])
  have hrun : p.RunsTo seed (fun t => (p.whole seed ks.sum).rankProgram t) p.emptyStore z :=
    (hy.append hz).congr fun t => (rankProgram_whole p ks.sum t seed).symm
  obtain ⟨s, hs, hfin, rfl⟩ := hrun
  exact ⟨s.shared.dir, ⟨s, hs, hfin, rfl⟩, hagrees'⟩

/-- **One invocation leaves nothing that several ones cannot leave.** -/
theorem exists_cleaned (hpattern : ∀ j, p.SamePattern c (seedOf G (now j)) seed)
    (h : (p.whole seed ks.sum).Ends Dir.empty D') : ∃ D, p.Cleaned G now ks D ∧ D.Agrees c D' := by
  obtain ⟨s, hs, hfin, rfl⟩ := h
  have hwhole : p.RunsTo seed (fun t => (p.whole seed ks.sum).rankProgram t) p.emptyStore s.shared :=
    ⟨s, hs, hfin, rfl⟩
  have hrun : p.RunsTo seed (fun t => (p.upTo seed ks.sum).rankProgram t ++
      (p.lastCleanup G now ks).rankProgram t) p.emptyStore s.shared :=
    hwhole.congr fun t => rankProgram_whole p ks.sum t seed
  obtain ⟨z, hz, hlast⟩ := hrun.split (fun t => waits_upTo p _ t seed) fun t => closed_rankProgram rfl t
  obtain ⟨D, hD, hagrees⟩ := RunsTo.exists_resumed hpattern hz
  obtain ⟨D', hD', hagrees'⟩ := hlast.ends (hpattern (ks.length + 1)) (D := D) (by rwa [opened_dir rfl])
  exact ⟨D', ⟨D, hD, hD'⟩, hagrees'⟩

end

/-! ## The contents of objects -/

theorem ReachesFrom.own {q : Params} {D : Dir} {s : State q.threads (Store q.threads) Act}
    (h : q.ReachesFrom D s) (hD : D.Own q) : s.shared.dir.Own q := by
  induction h with
  | refl => exact hD
  | tail _ hs ih =>
    cases hs with
    | op t a r hb hr => exact exec_own ih t a
    | arrive | release | wake => exact ih

theorem verifies_of_own {q : Params} {s : State q.threads (Store q.threads) Act} (h : s.shared.dir.Own q) :
    q.Verifies s := by
  rintro t rank d i r - - - ⟨-, -, hmem, -, hne⟩
  have hcontent : s.shared.content (.obj rank d i) = q.pattern rank d i := h rank d i hmem
  have hlen : (q.pattern rank d i).length = q.fileSize := Mdtest.length_contentPattern _ _ _ _
  rw [hcontent, List.take_of_length_le hlen.le] at hne
  exact hne rfl

section

variable {ks : List ℕ} {D : Dir}

theorem own_congr {a b : ℕ} (hpattern : p.SamePattern True a b) : D.Own (p.seeded a) ↔ D.Own (p.seeded b) := by
  refine forall_congr' fun rank => forall_congr' fun d => forall_congr' fun i => imp_congr_right fun _ => ?_
  rw [hpattern trivial]

/-- The objects that invocation `j` finds hold its own pattern if they hold that of the others, and so it
leaves them. -/
theorem own_of_reachesFrom {a b e : Bool} {k i seed' : ℕ} (hpattern : p.SamePattern True seed' seed)
    {s : State p.threads (Store p.threads) Act} (h : (p.invocation seed' a b e k i).ReachesFrom D s)
    (hD : D.Own (p.seeded seed)) :
    s.shared.dir.Own (p.invocation seed' a b e k i) ∧ s.shared.dir.Own (p.seeded seed) := by
  have hown : s.shared.dir.Own (p.invocation seed' a b e k i) := h.own ((own_congr hpattern).mpr hD)
  exact ⟨hown, (own_congr hpattern).mp hown⟩

theorem Resumed.own (hpattern : ∀ j, p.SamePattern True (seedOf G (now j)) seed) (h : p.Resumed G now ks D) :
    D.Own (p.seeded seed) := by
  induction h with
  | precreation h =>
    obtain ⟨s, hs, -, rfl⟩ := h
    exact (own_of_reachesFrom (hpattern 0) hs fun _ _ _ hmem => absurd hmem (Finset.notMem_empty _)).2
  | @benchmark ks k D D' _ h' ih =>
    obtain ⟨s, hs, -, rfl⟩ := h'
    exact (own_of_reachesFrom (hpattern (ks.length + 1)) hs ih).2

/-- **With one pattern, no read reports an error** in any invocation. -/
theorem Visits.verifies (hpattern : ∀ j, p.SamePattern True (seedOf G (now j)) seed) {q : Params}
    {s : State q.threads (Store q.threads) Act} (h : p.Visits G now ks q s) : q.Verifies s := by
  refine verifies_of_own ?_
  cases h with
  | precreation h =>
    exact (own_of_reachesFrom (hpattern 0) h fun _ _ _ hmem => absurd hmem (Finset.notMem_empty _)).1
  | @benchmark ks₁ ks₂ k D s _ h h' =>
    exact (own_of_reachesFrom (hpattern (ks₁.length + 1)) h' (h.own hpattern)).1
  | cleanup h h' => exact (own_of_reachesFrom (hpattern (ks.length + 1)) h' (h.own hpattern)).1

end

/-! ## Where nothing is read -/

/-- Only a benchmark with objects to go through reads. -/
theorem of_read_mem {q : Params} {t rank d i : ℕ} (h : .op (.read rank d i) ∈ q.rankProgram t) :
    q.phaseBenchmark = true ∧ 0 < q.iterations ∧ 0 < q.num ∧ 0 < q.dsetCount := by
  rcases mem_rankProgram.mp h with ⟨body, hbody, hread⟩ | hlast
  · rw [mem_phaseBody] at hread
    have hread : .read rank d i ∈ body := by
      rcases hread with h | h | h
      · cases h
      · exact h
      · cases h
    simp only [phases, List.mem_append] at hbody
    rcases hbody with (hbody | hbody) | hbody <;> split at hbody
    · rw [List.mem_singleton.mp hbody, precreateRank] at hread
      simp at hread
    · cases hbody
    · rename_i hbench
      obtain ⟨it, hit, rfl⟩ := List.mem_map.mp hbody
      obtain ⟨f, hf, hstep⟩ := List.mem_flatMap.mp hread
      obtain ⟨d', hd', -⟩ := List.mem_flatMap.mp hstep
      rw [List.mem_range] at hit hf hd'
      exact ⟨hbench, by omega, by omega, by omega⟩
    · cases hbody
    · rw [List.mem_singleton.mp hbody, cleanupRank] at hread
      simp at hread
    · cases hbody
  · rw [lastActs] at hlast
    split at hlast
    · cases List.mem_singleton.mp hlast
    · cases hlast

theorem verifies_of_unread {q : Params} {D : Dir} {s : State q.threads (Store q.threads) Act}
    (h : q.ReachesFrom D s)
    (hnone : q.phaseBenchmark = false ∨ q.iterations = 0 ∨ q.num = 0 ∨ q.dsetCount = 0) : q.Verifies s := by
  intro t rank d i r _ hr
  have hmem : .op (.read rank d i) ∈ q.rankProgram t := (h.suffix t).subset (hr ▸ List.mem_cons_self)
  obtain ⟨hbench, hiter, hnum, hdset⟩ := of_read_mem hmem
  rcases hnone with h | h | h | h
  · rw [hbench] at h
    cases h
  · omega
  · omega
  · omega

/-- The parameters with which nothing is read. -/
def Unread (p : Params) (k : ℕ) : Prop := p.num = 0 ∨ p.dsetCount = 0 ∨ k = 0

section

variable {ks : List ℕ} {D' : Dir}

theorem Unread.verifies (hunread : p.Unread ks.sum) {q : Params}
    {s : State q.threads (Store q.threads) Act} (h : p.Visits G now ks q s) : q.Verifies s := by
  cases h with
  | precreation h => exact verifies_of_unread h (.inl rfl)
  | @benchmark ks₁ ks₂ k D s hks h h' =>
    refine verifies_of_unread h' (.inr ?_)
    rcases hunread with hnum | hdset | hsum
    · exact .inr (.inl hnum)
    · exact .inr (.inr hdset)
    · rw [hks, List.sum_append, List.sum_cons] at hsum
      have hk : k = 0 := by omega
      exact .inl hk
  | cleanup h h' => exact verifies_of_unread h' (.inl rfl)

/-- The single invocation leaves no entries. -/
theorem Unread.entries_eq_empty (hunread : p.Unread ks.sum) (hle : p.num ≤ p.precreate)
    (h : (p.whole seed ks.sum).Ends Dir.empty D') : D'.entries = ∅ := by
  have hwhole : (p.whole seed ks.sum).Whole := ⟨rfl, rfl, rfl, rfl, hle⟩
  have hmoves : (p.whole seed ks.sum).Moves := by
    rcases hunread with h | h | h
    · exact .inr (.inl h)
    · exact .inr (.inr (.inr (.inl h)))
    · exact .inr (.inr (.inl h))
  obtain ⟨s, hs, hfin, rfl⟩ := h
  exact (workingSet_of_moves hwhole hmoves).empty s hs hfin

end

/-! ## Different patterns -/

/-- Every invocation can come to its end. -/
theorem exists_ends (q : Params) (D : Dir) : ∃ D', q.Ends D D' := by
  have hwaits : ∀ t u : Fin q.threads, waits (q.rankProgram t) = waits (q.rankProgram u) := by
    intro t u
    rw [waits_rankProgram_eq, waits_rankProgram_eq]
    simp only [phases]
    repeat' split
    all_goals simp
  obtain ⟨s, hs, hstop⟩ := exists_stopped q.exec (init (fun t => q.rankProgram t) (q.opened D))
  have hfin := ((deadlockFree_iff q.exec _ _).mpr hwaits s hs).resolve_right hstop
  exact ⟨s.shared.dir, s, hs, hfin, rfl⟩

section

variable {D : Dir} {ks : List ℕ}

theorem acts_precreation (t : Fin p.threads) (g : ℕ) : (p.precreation G now).acts g t =
    if g = 1 then phaseBody (p.precreateRank t 0) else [] := by
  have hphases : (p.precreation G now).phases t = [p.precreateRank t 0] := by
    simp only [phases, if_true, Bool.false_eq_true, if_false, List.append_nil]
    rfl
  obtain ⟨j, rfl | rfl⟩ := Nat.even_or_odd' g
  · rw [if_neg (by omega), acts, rankProgram_eq, phase_even_rounds]
    split
    · exact if_neg (by simp)
    · rfl
  · rw [acts_odd, hphases]
    cases j with
    | zero => rfl
    | succ j => rw [if_neg (by omega)]; rfl

/-- The entries at the start of a barrier generation of the precreation. -/
def precreated (p : Params) (g : ℕ) : Set Entry := if g ≤ 1 then ∅ else p.window 0

theorem precreation_fits (g : ℕ) :
    PhaseFits (p := p.precreation G now) ((p.precreation G now).acts g) (p.precreated g) (p.precreated (g + 1)) := by
  by_cases hg : g = 1
  · subst hg
    have hacts : (p.precreation G now).acts 1 = fun t : Fin p.threads => phaseBody (p.precreateRank t 0) := by
      funext t
      rw [acts_precreation, if_pos rfl]
    rw [hacts, precreated, precreated, if_pos (Nat.le_refl 1), if_neg (by omega)]
    exact precreate_fits (p := p.precreation G now)
  · have hsame : p.precreated (g + 1) = p.precreated g := by
      rw [precreated, precreated]
      split
      · rw [if_pos (by omega)]
      · rw [if_neg (by omega)]
    rw [hsame]
    exact phaseFits_idle fun t => by rw [acts_precreation, if_neg hg]

/-- **The precreation leaves the first window**, with the pattern of its seed. -/
theorem Ends.precreated (h : (p.precreation G now).Ends Dir.empty D) {rank d i : ℕ} (hrank : rank < p.threads)
    (hd : d < p.dsetCount) (hi : i < p.precreate) :
    .obj rank d i ∈ D.entries ∧ D.content (.obj rank d i) = (p.seeded (seedOf G (now 0))).pattern rank d i := by
  obtain ⟨s, hs, hfin, rfl⟩ := h
  have hinit : PhaseInv (p := p.precreation G now) ((p.precreation G now).acts 0) (p.precreated 0) (fun _ => [])
      ((p.precreation G now).opened Dir.empty) :=
    ⟨fun u => List.nil_subset _, contents_nil ▸ emptyStore_holds (p := p.precreation G now)⟩
  obtain ⟨done, -, hinv⟩ := phase_invariant (I := fun g done y =>
      PhaseInv (p := p.precreation G now) ((p.precreation G now).acts g) (p.precreated g) done y)
    p.threads_pos hinit (fun g done y t a r hi hL => step_inv (precreation_fits g) hi hL)
    (fun g y hi => next_inv (precreation_fits g) hi _) hs
  have hgen : s.generation = 2 := by
    rw [← (Reachable.synced p.threads_pos hs).waits_eq hfin ⟨0, p.threads_pos⟩, waits_rankProgram_eq]
    simp [phases]
  have hnil : done = fun _ => [] := by
    funext t
    have hsub := hinv.sub t
    rw [hgen, acts_precreation, if_neg (by omega)] at hsub
    exact List.subset_nil.mp hsub
  have hholds := hinv.holds
  rw [hnil, contents_nil, hgen, Params.precreated, if_neg (by omega)] at hholds
  have hmem : .obj rank d i ∈ p.window 0 := mem_window_obj.mpr ⟨hrank, hd, Nat.zero_le i, by omega⟩
  exact ⟨(hholds.entries _).mpr hmem, hholds.content rank d i hmem⟩

/-- A benchmark of no iterations leaves everything as it is. -/
theorem Resumed.idle (h : p.Resumed G now ks D) : p.Resumed G now (ks ++ [0]) D := by
  refine h.benchmark ⟨_, .refl, fun t => ⟨?_, rfl⟩, opened_dir rfl D⟩
  exact rankProgram_benchmarkFrom p ks.sum 0 t _

theorem Resumed.zeros (h : p.Resumed G now [] D) (hzero : ∀ j ∈ ks, j = 0) : p.Resumed G now ks D := by
  induction ks using List.reverseRecOn with
  | nil => exact h
  | append_singleton ks k ih =>
    obtain rfl : k = 0 := hzero k (by simp)
    exact (ih fun j hj => hzero j (List.mem_append_left _ hj)).idle

/-- What a rank does first in a benchmark from the first object on. -/
theorem exists_rankProgram_benchmark (seed : ℕ) {k : ℕ} (hk : 0 < k) (hnum : 0 < p.num)
    (hdset : 0 < p.dsetCount) (t : ℕ) : ∃ r, (p.benchmarkFrom seed 0 k).rankProgram t =
      .wait :: .op .start :: .op (.stat (p.readRank t 0) 0 0) :: .op (.read (p.readRank t 0) 0 0) :: r := by
  have hrange : ∀ {n : ℕ}, 0 < n → ∃ l, List.range n = 0 :: l := by
    intro n hn
    obtain ⟨m, rfl⟩ := Nat.exists_eq_succ_of_ne_zero hn.ne'
    exact ⟨_, List.range_succ_eq_map⟩
  obtain ⟨iterations, hiterations⟩ := hrange hk
  obtain ⟨objects, hobjects⟩ := hrange hnum
  obtain ⟨dsets, hdsets⟩ := hrange hdset
  have hfirst : p.firstObject (0 + 0) % 2 ^ 64 = 0 := by simp [firstObject]
  rw [rankProgram_benchmarkFrom, hiterations, List.flatMap_cons, hfirst, phaseProgram, benchmarkRank, hobjects,
    List.flatMap_cons, hdsets, List.flatMap_cons]
  exact ⟨_, rfl⟩

/-- **A benchmark from the first object on comes to its first read** with the directory as it was. -/
theorem exists_before_read (seed : ℕ) {k₀ k : ℕ} (hzero : k₀ = 0) (hk : 0 < k) (hnum : 0 < p.num)
    (hdset : 0 < p.dsetCount) (hmem : .obj (p.readRank 0 0) 0 0 ∈ D.entries) :
    ∃ s t r, (p.benchmarkFrom seed k₀ k).ReachesFrom D s ∧ s.blocked t = none ∧
      s.rest t = .op (.read (p.readRank 0 0) 0 0) :: r ∧ (s.shared.ranks t).skip = false ∧ s.shared.dir = D := by
  subst hzero
  choose rest hrest using fun t : Fin p.threads => exists_rankProgram_benchmark (p := p) seed hk hnum hdset t
  have hwoken := exists_after_wait (p.benchmarkFrom seed 0 k).exec p.threads_pos
    (Q := fun t => .op .start :: .op (.stat (p.readRank t 0) 0 0) :: .op (.read (p.readRank t 0) 0 0) :: rest t)
    ((p.benchmarkFrom seed 0 k).opened D)
  rw [← funext hrest] at hwoken
  obtain ⟨s, hs, hshared, hnext, hawake⟩ := hwoken
  obtain ⟨s₁, h₁, hshared₁, hawake₁, hnext₁⟩ := Reachable.exists_op hs (hawake ⟨0, p.threads_pos⟩) (by rw [hnext])
  obtain ⟨s₂, h₂, hshared₂, hawake₂, hnext₂⟩ := h₁.exists_op hawake₁ hnext₁
  have hmem₁ : .obj (p.readRank 0 0) 0 0 ∈ s₁.shared.entries := by
    rw [hshared₁, hshared]
    exact hmem
  rw [exec, if_pos hmem₁, hshared₁, hshared] at hshared₂
  refine ⟨s₂, _, _, h₂, hawake₂, hnext₂, ?_, ?_⟩
  · rw [hshared₂, Store.ranks_modifyRank]
  · rw [hshared₂]
    exact opened_dir rfl D

/-- **A read in the first benchmark that reads** finds the pattern of the precreation. -/
theorem exists_verifyError {ks₁ ks₂ : List ℕ} {k : ℕ} (hzero : ∀ j ∈ ks₁, j = 0) (hk : 0 < k)
    (hks : ks = ks₁ ++ k :: ks₂) (hverify : p.verifyRead = true) (hsize : 0 < p.fileSize) (hnum : 0 < p.num)
    (hle : p.num ≤ p.precreate) (hdset : 0 < p.dsetCount)
    (hne : (p.seeded (seedOf G (now 0))).pattern (p.readRank 0 0) 0 0 ≠
      (p.seeded (seedOf G (now (ks₁.length + 1)))).pattern (p.readRank 0 0) 0 0) :
    ∃ q s, p.Visits G now ks q s ∧ ¬ q.Verifies s := by
  obtain ⟨D, hD⟩ := exists_ends (p.precreation G now) Dir.empty
  have hrank : p.readRank 0 0 < p.threads := p.readRank_mapsTo 0 p.threads_pos
  obtain ⟨hmem, hcontent⟩ := hD.precreated hrank hdset (Nat.lt_of_lt_of_le hnum hle)
  have hsize' : ((p.seeded (seedOf G (now 0))).pattern (p.readRank 0 0) 0 0).length = p.fileSize :=
    Mdtest.length_contentPattern _ _ _ _
  have hresumed : p.Resumed G now ks₁ D := (Resumed.precreation hD).zeros hzero
  obtain ⟨s, t, r, hs, hawake, hnext, hskip, rfl⟩ := exists_before_read (seedOf G (now (ks₁.length + 1)))
    (List.sum_eq_zero hzero) hk hnum hdset hmem
  refine ⟨_, s, .benchmark hks hresumed hs, fun hverifies =>
    hverifies t _ _ _ r hawake hnext hskip ⟨hverify, hsize, hmem, ?_, ?_⟩⟩
  · exact (hsize'.symm.trans (congrArg List.length hcontent.symm)).le
  · have htake := (congrArg (List.take p.fileSize) hcontent).trans (List.take_of_length_le hsize'.le)
    exact fun heq => hne (htake.symm.trans heq)

end

/-- If anything is read, some benchmark is the first that reads. -/
theorem exists_first_iteration {ks : List ℕ} (h : ks.sum ≠ 0) :
    ∃ ks₁ k ks₂, ks = ks₁ ++ k :: ks₂ ∧ (∀ j ∈ ks₁, j = 0) ∧ 0 < k := by
  have hpos : ∃ j ∈ ks, 0 < j := List.sum_pos_iff_exists_pos_nat.mp (Nat.pos_of_ne_zero h)
  have hsome : (ks.find? (0 < ·)).isSome := by
    rw [List.find?_isSome]
    simpa using hpos
  obtain ⟨k, hfind⟩ := Option.isSome_iff_exists.mp hsome
  obtain ⟨hk, ks₁, ks₂, rfl, hzero⟩ := List.find?_eq_some_iff_append.mp hfind
  exact ⟨ks₁, k, ks₂, rfl, fun j hj => by simpa using hzero j hj, of_decide_eq_true hk⟩

/-! ## When it is consistent -/

theorem samePattern_refl (c : Prop) (seed : ℕ) : p.SamePattern c seed seed := fun _ _ _ _ => rfl

theorem samePattern_of_empty (c : Prop) (seed seed' : ℕ) (h : p.fileSize = 0) : p.SamePattern c seed seed' := by
  intro _ rank d i
  have hnil : ∀ s, (p.seeded s).pattern rank d i = [] := fun s =>
    List.eq_nil_of_length_eq_zero ((Mdtest.length_contentPattern _ _ _ _).trans h)
  rw [hnil, hnil]

/-- With one pattern, data verifies and the invocations leave what one leaves. -/
theorem selfConsistent_of_samePattern {ks : List ℕ} (h : ∀ t u, p.SamePattern True (seedOf G t) (seedOf G u)) :
    SelfConsistent p G ks := by
  have hpattern : ∀ (now : ℕ → ℕ) t j, p.SamePattern True (seedOf G (now j)) (seedOf G t) :=
    fun now t j => h (now j) t
  refine ⟨fun now _ q s hvisits => hvisits.verifies (hpattern now 0), fun now t _ _ D hD => ?_,
    fun now t _ _ D' hD' => ?_⟩
  · obtain ⟨D', hD', hagrees⟩ := exists_whole (hpattern now t) hD
    exact ⟨D', hD', hagrees.same (.inl trivial)⟩
  · obtain ⟨D, hD, hagrees⟩ := exists_cleaned (hpattern now t) hD'
    exact ⟨D, hD, hagrees.same (.inl trivial)⟩

/-- Where nothing is read, nothing is left of the objects either. -/
theorem selfConsistent_of_unread {ks : List ℕ} (hle : p.num ≤ p.precreate) (h : p.Unread ks.sum) :
    SelfConsistent p G ks := by
  have hpattern : ∀ (now : ℕ → ℕ) t j, p.SamePattern False (seedOf G (now j)) (seedOf G t) :=
    fun _ _ _ => False.elim
  refine ⟨fun now _ q s hvisits => h.verifies hvisits, fun now t _ _ D hD => ?_, fun now t _ _ D' hD' => ?_⟩
  · obtain ⟨D', hD', hagrees⟩ := exists_whole (hpattern now t) hD
    exact ⟨D', hD', hagrees.same (.inr (h.entries_eq_empty hle hD'))⟩
  · obtain ⟨D, hD, hagrees⟩ := exists_cleaned (hpattern now t) hD'
    exact ⟨D, hD, hagrees.same (.inr (h.entries_eq_empty hle hD'))⟩

/-- Without a seed, there are two times with different patterns. -/
theorem exists_clock (rank d i : ℕ) (hsize : 0 < p.fileSize) : ∃ now, Clock now ∧ ∀ j,
    (p.seeded (seedOf 0 (now 0))).pattern rank d i ≠ (p.seeded (seedOf 0 (now (j + 1)))).pattern rank d i := by
  obtain ⟨seed, hlt, hne⟩ := Mdtest.exists_contentPattern_ne ((p.seeded 0).pattern rank d i) rank
    ((i * p.dsetCount + d) % 2 ^ 64) hsize
  refine ⟨fun j => if j = 0 then 0 else seed, ⟨fun a b hab => ?_, fun j => ?_⟩, fun j => hne.symm⟩
  · change (if a = 0 then 0 else seed) ≤ if b = 0 then 0 else seed
    split
    · exact Nat.zero_le _
    · rw [if_neg (by omega)]
  · change (if j = 0 then 0 else seed) < 2 ^ 64
    split
    · exact Nat.two_pow_pos 64
    · exact hlt

/-- **Data verifies across invocations, and they leave what one invocation leaves, exactly with a seed**,
or where the objects are empty or none is read. -/
theorem selfConsistent_iff {ks : List ℕ} (hle : p.num ≤ p.precreate) (hverify : p.verifyRead = true) :
    SelfConsistent p G ks ↔ G ≠ 0 ∨ p.fileSize = 0 ∨ p.Unread ks.sum := by
  refine ⟨fun h => ?_, fun h => ?_⟩
  · by_contra hnot
    simp only [not_or, not_not, Unread] at hnot
    obtain ⟨rfl, hsize, hnum, hdset, hsum⟩ := hnot
    obtain ⟨now, hclock, hne⟩ := exists_clock (p := p) (p.readRank 0 0) 0 0 (Nat.pos_of_ne_zero hsize)
    obtain ⟨ks₁, k, ks₂, hks, hzero, hk⟩ := exists_first_iteration hsum
    obtain ⟨q, s, hvisits, hfails⟩ := exists_verifyError hzero hk hks hverify
      (Nat.pos_of_ne_zero hsize) (Nat.pos_of_ne_zero hnum) hle (Nat.pos_of_ne_zero hdset) (hne ks₁.length)
    exact hfails (h.verifies now hclock q s hvisits)
  · rcases h with hG | hempty | hunread
    · refine selfConsistent_of_samePattern fun t u => ?_
      rw [seedOf, seedOf, if_neg hG, if_neg hG]
      exact samePattern_refl True G
    · exact selfConsistent_of_samePattern fun t u => samePattern_of_empty True _ _ hempty
    · exact selfConsistent_of_unread hle hunread

/-- One rank with one object of a byte. -/
def oneByte : Params where
  threads := 1
  num := 1
  precreate := 1
  dsetCount := 1
  fileSize := 1
  iterations := 1
  offset := 1
  phasePrecreate := true
  phaseBenchmark := true
  phaseCleanup := true
  readOnly := false
  verifyRead := true
  seed := 0
  startItem := 0
  threads_pos := Nat.one_pos
  threads_lt := Nat.one_lt_two_pow (Nat.succ_ne_zero 31)
  num_lt := Nat.one_lt_two_pow (Nat.succ_ne_zero 63)
  precreate_lt := Nat.one_lt_two_pow (Nat.succ_ne_zero 63)
  dsetCount_lt := Nat.one_lt_two_pow (Nat.succ_ne_zero 63)
  startItem_lt := Nat.two_pow_pos 64

/-- Two benchmarks between the precreation and the cleanup, all with the same seed. -/
theorem selfConsistent_seeded : oneByte.num ≤ oneByte.precreate ∧ oneByte.verifyRead = true ∧
    SelfConsistent oneByte 42 [1, 2] :=
  ⟨Nat.le_refl 1, rfl, (selfConsistent_iff (Nat.le_refl 1) rfl).mpr (.inl (by decide))⟩

/-- The precreation, and a second later everything else. -/
def nextSecond (j : ℕ) : ℕ := 1700000000 + min j 1

/-- With the default seed, a benchmark a second after the precreation reports a verify error. -/
theorem inconsistent_nextSecond : Clock nextSecond ∧
    (∃ q s, oneByte.Visits 0 nextSecond [1] q s ∧ ¬ q.Verifies s) ∧ ¬ SelfConsistent oneByte 0 [1] := by
  have hclock : Clock nextSecond := by
    refine ⟨fun a b hab => ?_, fun j => ?_⟩
    · exact Nat.add_le_add_left (min_le_min_right 1 hab) _
    · have hmin : min j 1 ≤ 1 := min_le_right j 1
      exact Nat.lt_of_le_of_lt (Nat.add_le_add_left hmin _) (by decide)
  have hks : [1] = [] ++ 1 :: [] := rfl
  have hzero : ∀ j ∈ ([] : List ℕ), j = 0 := fun j hj => absurd hj List.not_mem_nil
  have herror : ∃ q s, oneByte.Visits 0 nextSecond [1] q s ∧ ¬ q.Verifies s :=
    exists_verifyError hzero Nat.one_pos hks rfl Nat.one_pos Nat.one_pos (Nat.le_refl 1) Nat.one_pos (by decide)
  refine ⟨hclock, herror, fun h => ?_⟩
  obtain ⟨q, s, hvisits, hfails⟩ := herror
  exact hfails (h.verifies nextSecond hclock q s hvisits)

end Params

end Fstest.Mdworkbench
