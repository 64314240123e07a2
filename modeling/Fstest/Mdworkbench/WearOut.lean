import Fstest.Mdworkbench.Stonewall
import Mathlib.Data.Fin.VecNotation
import Mathlib.Order.Lattice.Nat

/-!
# Wearing out

With wear-out the rank that is ahead when the timer expires sets the number of iterations for all.
`first t` is the number of iterations after which rank `t` first sees the timer expired; a rank for
which this is more than `num` never sees it. `goal` is the maximum of what the ranks contribute. Once
a rank gets through the wait loop everybody has contributed or left (`Worn.released`), so it reads
the final maximum. A rank that has left before has done all of its iterations, whatever the others
agree on, and a rank that contributes after its last iteration makes everybody do one more
(`equalised_iff`).
-/

namespace Fstest.Mdworkbench.Stonewall

open Labelled

variable {p : TimerParams} {n : ℕ}

/-- The timer goes by `first`, and no write fails. -/
def timely {n : ℕ} (first : Fin n → ℕ) (s : Iteration n) (a : Action n) : Bool :=
  !a.sight.writeFails && ((s.ranks a.rank).pc != .timer ||
    a.sight.expired == decide (first a.rank ≤ (s.ranks a.rank).f))

/-- The maximum of what the ranks contribute that see the timer. -/
def goal (num : ℕ) (first : Fin n → ℕ) : ℕ :=
  Finset.univ.sup fun t => if first t ≤ num then first t + 1 else 0

theorem lt_goal {num : ℕ} {first : Fin n → ℕ} {t : Fin n} (ht : first t ≤ num) :
    first t < goal num first := by
  have hle := Finset.le_sup (f := fun t => if first t ≤ num then first t + 1 else 0)
    (Finset.mem_univ t)
  rw [if_pos ht] at hle
  exact hle

/-- The rank has raised the maximum. -/
def Local.maxed (l : Local) : Bool :=
  l.contributed || match l.pc with
    | .fetchAdd | .loadContributors | .loadFinished _ => true
    | _ => false

/-- What is known of a rank that first sees the timer after `first` iterations. -/
def Local.Worn (num goal first : ℕ) (l : Local) : Prop :=
  (if l.contributed then first ≤ num ∧ l.f ≤ goal else l.f ≤ num ∧ l.totalNum = num) ∧
  match l.pc with
  | .head => if l.contributed then l.totalNum = goal else l.f < first
  | .object _ => l.f < l.totalNum ∧ if l.contributed then l.totalNum = goal else l.f < first
  | .timer => if l.contributed then l.totalNum = goal else l.f ≤ first
  | .store | .fetchMax | .fetchAdd | .loadContributors | .loadFinished _ =>
    l.contributed = false ∧ l.f = first
  | .loadTotal => l.contributed = true
  | .finish | .left => if l.contributed then l.f = goal else l.f = num ∧ num < first
  | .failed => False

/-- What is known of the ranks of an iteration. -/
structure Worn (num : ℕ) (first : Fin n → ℕ) (s : Iteration n) : Prop where
  local_ : ∀ t, (s.ranks t).Worn num (goal num first) (first t)
  total : s.wear.total = Finset.univ.sup fun t => if (s.ranks t).maxed then first t + 1 else 0
  /-- A rank in the wait loop has read no more contributors than there are. -/
  seen : ∀ t k, (s.ranks t).pc = .loadFinished k → k ≤ s.wear.contributors
  released : (∃ t, (s.ranks t).contributed = true) →
    ∀ t, (s.ranks t).maxed = true ∨ (s.ranks t).pc = .left

section

variable {num : ℕ} {first : Fin n → ℕ} {s s' : Iteration n} {t : Fin n} {w w' : WearOut}
  {l l' : Local} {c : Sight}

theorem Local.Worn.first_le (h : l.Worn num (goal num first) (first t)) (hm : l.maxed = true) :
    first t ≤ num := by
  obtain ⟨pc, f, totalNum, contributed⟩ := l
  cases contributed with
  | true => exact h.1.1
  | false =>
    cases pc <;> simp only [Local.maxed, Bool.or_false, Bool.false_or, Bool.false_eq_true] at hm
    all_goals
      have hf := h.1.1
      have heq := h.2.2
      simp only at hf heq
      omega

/-- Once a rank is through the wait loop the maximum is final. -/
theorem Worn.total_eq (h : Worn num first s) (hr : ∃ t, (s.ranks t).contributed = true) :
    s.wear.total = goal num first := by
  rw [h.total, goal]
  refine Finset.sup_congr rfl fun t _ => ?_
  by_cases hm : (s.ranks t).maxed = true
  · rw [if_pos hm, if_pos ((h.local_ t).first_le hm)]
  · -- A rank that has left without contributing has not seen the timer.
    have hleft := (h.released hr t).resolve_left hm
    obtain ⟨hcontributed, -⟩ : (s.ranks t).contributed = false ∧ True := by
      simp only [Local.maxed, Bool.or_eq_true, not_or, Bool.not_eq_true] at hm
      exact ⟨hm.1, trivial⟩
    have hlocal := (h.local_ t).2
    simp only [hleft, hcontributed, Bool.false_eq_true, if_false] at hlocal
    rw [if_neg hm, if_neg (by omega)]

/-- A step keeps what is known of its rank. -/
theorem Local.next_worn (hw : p.wearOut = true) (ha : p.armed = true)
    (h : l.next p w c = some (w', l')) (hl : l.Worn num (goal num first) (first t))
    (hfail : c.writeFails = false) (htimer : l.pc = .timer → c.expired = decide (first t ≤ l.f))
    (htotal : l.contributed = true → w.total = goal num first) :
    l'.Worn num (goal num first) (first t) := by
  have hgoal : first t ≤ num → first t < goal num first := lt_goal
  obtain ⟨pc, f, totalNum, contributed⟩ := l
  cases pc with
  | left | failed => cases h
  | head =>
    simp only [Local.next] at h
    split_ifs at h with hlt <;> cases h <;> cases contributed <;>
      simp only [Local.Worn, Bool.false_eq_true, if_false, if_true] at hl ⊢ <;> omega
  | object d =>
    simp only [Local.next, hfail, Bool.false_and, Bool.false_eq_true, if_false] at h
    split_ifs at h with hlt <;> cases h <;> cases contributed <;>
      simp only [Local.Worn, Bool.false_eq_true, if_false, if_true] at hl ⊢ <;> omega
  | timer =>
    have hexp := htimer rfl
    cases contributed <;>
      simp only [Local.next, ha, hw, hexp, Bool.true_and, Bool.not_true, Bool.not_false,
        Bool.false_eq_true, if_false, if_true, decide_eq_true_eq] at h <;>
      split_ifs at h <;> cases h <;>
      simp only [Local.Worn, Bool.false_eq_true, if_false, if_true, true_and, eq_self, and_true]
        at hl ⊢ <;> omega
  | store | fetchMax | fetchAdd | loadContributors =>
    cases h
    exact hl
  | loadFinished k =>
    simp only [Local.next] at h
    split_ifs at h <;> cases h
    · exact hl
    · obtain ⟨h1, rfl, hf⟩ := hl
      simp only [Bool.false_eq_true, if_false] at h1 hf
      have hlt := hgoal (by omega)
      exact ⟨⟨by omega, Nat.le_of_lt (hf ▸ hlt)⟩, rfl⟩
  | loadTotal =>
    cases h
    obtain ⟨h1, rfl⟩ := hl
    have htot := htotal rfl
    simp only [if_true] at h1
    have hpos : 0 < w.total := by omega
    refine ⟨h1, ?_⟩
    rw [if_pos hpos]
    exact htot
  | finish =>
    cases h
    exact hl

/-- Only `fetch_max` changes the maximum. -/
theorem Local.next_maxed (h : l.next p w c = some (w', l')) (hp : l.Proper) :
    (w'.total = w.total ∧ l'.maxed = l.maxed) ∨
      (l.pc = .fetchMax ∧ w'.total = max w.total (l.f + 1) ∧ l.maxed = false ∧ l'.maxed = true) := by
  obtain ⟨pc, f, totalNum, contributed⟩ := l
  cases pc with
  | left | failed => cases h
  | fetchMax =>
    cases h
    simp only [Local.Proper] at hp
    subst hp
    exact .inr ⟨rfl, rfl, rfl, rfl⟩
  | head =>
    simp only [Local.next] at h
    split_ifs at h <;> cases h <;> exact .inl ⟨rfl, rfl⟩
  | object d =>
    simp only [Local.next] at h
    split_ifs at h <;> cases h <;> exact .inl ⟨rfl, rfl⟩
  | timer =>
    simp only [Local.next] at h
    split_ifs at h <;> cases h <;> exact .inl ⟨rfl, rfl⟩
  | loadFinished k =>
    simp only [Local.Proper] at hp
    subst hp
    simp only [Local.next] at h
    split_ifs at h <;> cases h <;> exact .inl ⟨rfl, rfl⟩
  | store | fetchAdd | loadContributors | loadTotal | finish =>
    cases h
    exact .inl ⟨rfl, rfl⟩

/-- The step of a rank that gets through the wait loop. -/
theorem Local.next_contributed (h : l.next p w c = some (w', l')) (hl : l.contributed = false)
    (hl' : l'.contributed = true) :
    ∃ k, l.pc = .loadFinished k ∧ p.threads ≤ k + w.finished := by
  obtain ⟨pc, f, totalNum, contributed⟩ := l
  simp only at hl
  subst hl
  cases pc with
  | loadFinished k =>
    simp only [Local.next] at h
    split_ifs at h with hlt <;> cases h
    · cases hl'
    · exact ⟨k, rfl, by omega⟩
  | left | failed => cases h
  | head | object d | timer =>
    simp only [Local.next] at h
    split_ifs at h <;> cases h <;> cases hl'
  | store | fetchMax | fetchAdd | loadContributors | loadTotal | finish =>
    cases h
    cases hl'

/-- What a rank in the wait loop has read. -/
theorem Local.next_seen (h : l.next p w c = some (w', l')) :
    w.contributors ≤ w'.contributors ∧ ∀ k, l'.pc = .loadFinished k → k = w'.contributors := by
  obtain ⟨pc, f, totalNum, contributed⟩ := l
  cases pc with
  | left | failed => cases h
  | head | object d | timer | loadFinished k =>
    simp only [Local.next] at h
    split_ifs at h <;> cases h <;> exact ⟨Nat.le_refl _, fun k hk => by cases hk⟩
  | fetchAdd =>
    cases h
    exact ⟨Nat.le_succ _, fun k hk => by cases hk⟩
  | loadContributors =>
    cases h
    exact ⟨Nat.le_refl _, fun k hk => by cases hk; rfl⟩
  | store | fetchMax | loadTotal | finish =>
    cases h
    exact ⟨Nat.le_refl _, fun k hk => by cases hk⟩

theorem worn_new (hfirst : ∀ t, 0 < first t) : Worn num first (Iteration.new n num) where
  local_ t := ⟨⟨Nat.zero_le _, rfl⟩, hfirst t⟩
  total := by
    change 0 = _
    exact (Nat.le_zero.mp (Finset.sup_le fun _ _ => Nat.le_refl 0)).symm
  seen _ _ h := by cases h
  released := fun ⟨_, h⟩ => by cases h

/-- **A step keeps what is known of the ranks.** -/
theorem Worn.update (h : Worn num first s) (hc : Counted s) (hw : p.wearOut = true)
    (ha : p.armed = true) (hn : p.threads = n) (hs : (s.ranks t).next p s.wear c = some (w', l'))
    (hfail : c.writeFails = false)
    (htimer : (s.ranks t).pc = .timer → c.expired = decide (first t ≤ (s.ranks t).f)) :
    Worn num first (⟨w', Function.update s.ranks t l'⟩ : Iteration n) := by
  have hlocal := h.local_ t
  have hmaxed := Local.next_maxed hs (hc.proper t)
  have hseen := Local.next_seen hs
  constructor
  · intro u
    by_cases hu : u = t
    · subst hu
      simp only [Function.update_self]
      exact Local.next_worn hw ha hs hlocal hfail htimer (fun hr => h.total_eq ⟨u, hr⟩)
    · simp only [Function.update_of_ne hu]
      exact h.local_ u
  · change w'.total = Finset.univ.sup fun u =>
      if (Function.update s.ranks t l' u).maxed then first u + 1 else 0
    rcases hmaxed with ⟨htotal, hsame⟩ | ⟨hpc, htotal, hfalse, htrue⟩
    · rw [htotal, h.total]
      refine Finset.sup_congr rfl fun u _ => ?_
      by_cases hu : u = t
      · subst hu
        rw [Function.update_self, hsame]
      · rw [Function.update_of_ne hu]
    · -- The new maximum is over one rank more.
      have hf : (s.ranks t).f = first t := by
        have hat := hlocal.2
        rw [hpc] at hat
        exact hat.2
      have hall : (Finset.univ : Finset (Fin n)) = insert t (Finset.univ.erase t) :=
        (Finset.insert_erase (Finset.mem_univ t)).symm
      rw [htotal, h.total, hf, hall, Finset.sup_insert, Finset.sup_insert, Function.update_self, hfalse,
        htrue, if_pos rfl, if_neg (by decide), ← Nat.bot_eq_zero, bot_sup_eq, sup_comm]
      refine congrArg (max (first t + 1)) (Finset.sup_congr rfl fun u hu => ?_)
      rw [Function.update_of_ne (Finset.ne_of_mem_erase hu)]
  · intro u k hk
    change k ≤ w'.contributors
    by_cases hu : u = t
    · subst hu
      simp only [Function.update_self] at hk
      exact Nat.le_of_eq (hseen.2 k hk)
    · simp only [Function.update_of_ne hu] at hk
      exact (h.seen u k hk).trans hseen.1
  · intro hr
    -- Everybody had contributed or left already before the step.
    have hsettled : ∀ u, (s.ranks u).maxed = true ∨ (s.ranks u).pc = .left := by
      by_cases hold : ∃ u, (s.ranks u).contributed = true
      · exact h.released hold
      · have hnone : ∀ u, (s.ranks u).contributed = false := fun u => by
          simpa using fun hu => hold ⟨u, hu⟩
        obtain ⟨u, hu⟩ := hr
        obtain rfl : u = t := by
          by_contra hne
          simp only [Function.update_of_ne hne, hnone u, Bool.false_eq_true] at hu
        simp only [Function.update_self] at hu
        obtain ⟨k, hk, hle⟩ := Local.next_contributed hs (hnone u) hu
        have hsum := h.seen u k hk
        intro v
        refine (hc.settled hnone (by omega) v).imp_left fun hwait => ?_
        rw [Local.maxed, hnone v, Bool.false_or]
        cases hv : (s.ranks v).pc <;> first | rfl | (rw [hv] at hwait; cases hwait)
    intro u
    by_cases hu : u = t
    · subst hu
      simp only [Function.update_self]
      rcases hsettled u with hm | hleft
      · rcases hmaxed with ⟨-, hsame⟩ | ⟨-, -, -, htrue⟩
        · exact .inl (hsame.trans hm)
        · exact .inl htrue
      · rw [Local.next, hleft] at hs
        cases hs
    · simp only [Function.update_of_ne hu]
      exact hsettled u

end

/-! ## Runs of an iteration -/

section

variable {first : Fin p.threads → ℕ} {s : Iteration p.threads} {tr : List (Fin p.threads)}

/-- What holds in every state of an iteration. -/
theorem worn_of_run (hw : p.wearOut = true) (ha : p.armed = true) (hfirst : ∀ t, 0 < first t)
    (h : Run (Iteration.step p) (fun s a => timely first s a) (Iteration.new p.threads p.num) tr s) :
    Counted s ∧ Worn p.num first s := by
  refine h.invariant (I := fun _ s => Counted s ∧ Worn p.num first s)
    ⟨counted_new _ _, worn_new hfirst⟩ ?_
  intro tr s a s' e _ ih hp hs
  obtain ⟨⟨w', l'⟩, hnext, heq⟩ := Option.map_eq_some_iff.mp hs
  cases heq
  simp only [timely, Bool.and_eq_true, Bool.not_eq_true', Bool.or_eq_true, bne_iff_ne, ne_eq,
    beq_iff_eq] at hp
  refine ⟨ih.1.update hnext, ih.2.update ih.1 hw ha rfl hnext hp.1 fun htimer => ?_⟩
  exact hp.2.resolve_left (not_not_intro htimer)

/-- The number of iterations that rank `t` does. -/
theorem f_of_left (hw : Worn p.num first s) {t : Fin p.threads} (ht : (s.ranks t).pc = .left) :
    (s.ranks t).f = if p.num < first t then p.num else goal p.num first := by
  obtain ⟨h1, h2⟩ := hw.local_ t
  rw [ht] at h2
  simp only at h2
  cases hc : (s.ranks t).contributed <;>
    simp only [hc, Bool.false_eq_true, if_false, if_true] at h1 h2
  · rw [if_pos h2.2, h2.1]
  · rw [if_neg (by omega), h2]

/-- All ranks do equally many iterations, and no more than they are given, exactly if no rank sees the
timer, or if no rank first sees it after its last iteration, and all see it before, or one just
before. -/
def Equalises (num : ℕ) {n : ℕ} (first : Fin n → ℕ) : Prop :=
  (∀ t, num < first t) ∨
    ((∀ t, first t ≠ num) ∧ ((∀ t, first t < num) ∨ ∃ t, first t + 1 = num))

/-- **When wear-out equalises the ranks.** -/
theorem equalised_iff (hw : p.wearOut = true) (ha : p.armed = true) (hfirst : ∀ t, 0 < first t)
    (h : Run (Iteration.step p) (fun s a => timely first s a) (Iteration.new p.threads p.num) tr s)
    (hleft : ∀ t, (s.ranks t).pc = .left) :
    (∃ f ≤ p.num, ∀ t, (s.ranks t).f = f) ↔ Equalises p.num first := by
  have hworn := (worn_of_run hw ha hfirst h).2
  have hf : ∀ t, (s.ranks t).f = if p.num < first t then p.num else goal p.num first :=
    fun t => f_of_left hworn (hleft t)
  constructor
  · rintro ⟨f, hle, hall⟩
    by_cases hnone : ∀ t, p.num < first t
    · exact .inl hnone
    obtain ⟨t, ht⟩ := not_forall.mp hnone
    have hgoal : goal p.num first = f := by rw [← hall t, hf t, if_neg ht]
    have hne : ∀ u, first u ≠ p.num := by
      intro u hu
      have := lt_goal (Nat.le_of_eq hu)
      omega
    refine .inr ⟨hne, ?_⟩
    by_cases hsee : ∀ u, first u < p.num
    · exact .inl hsee
    -- Some rank does all iterations, so the others agree on as many.
    obtain ⟨u, hu⟩ := not_forall.mp hsee
    have hlt : p.num < first u := by
      have := hne u
      omega
    have hnum : f = p.num := by rw [← hall u, hf u, if_pos hlt]
    obtain ⟨v, -, hv⟩ := Finset.exists_mem_eq_sup Finset.univ ⟨t, Finset.mem_univ t⟩
      (fun t => if first t ≤ p.num then first t + 1 else 0)
    change goal p.num first = _ at hv
    have hpos := lt_goal (Nat.le_of_not_lt ht)
    refine .inr ⟨v, ?_⟩
    split_ifs at hv <;> omega
  · rintro (hnone | ⟨hne, hsome⟩)
    · exact ⟨p.num, Nat.le_refl _, fun t => by rw [hf t, if_pos (hnone t)]⟩
    · have hgoal : goal p.num first ≤ p.num := by
        refine Finset.sup_le fun t _ => ?_
        have := hne t
        split_ifs <;> omega
      refine ⟨goal p.num first, hgoal, fun t => ?_⟩
      rw [hf t]
      rcases hsome with hall | ⟨u, hu⟩
      · have := hall t
        rw [if_neg (by omega)]
      · have hlt : first u < goal p.num first := lt_goal (by omega)
        split_ifs <;> omega

/-- Two ranks that do three iterations on one data set. -/
def twoRanks : TimerParams where
  threads := 2
  num := 3
  precreate := 3
  dsetCount := 1
  fileSize := 1
  iterations := 1
  offset := 1
  phasePrecreate := true
  phaseBenchmark := true
  phaseCleanup := true
  readOnly := false
  verifyRead := false
  seed := 1
  startItem := 0
  threads_pos := by decide
  threads_lt := by decide
  num_lt := by decide
  precreate_lt := by decide
  dsetCount_lt := by decide
  startItem_lt := by decide
  armed := true
  wearOut := true

/-- Rank 0 does its three iterations without seeing the timer, rank 1 then sees it after `k`. -/
def fastFirst (k : ℕ) : List (Action 2) :=
  List.replicate 14 ⟨⟨0, Nat.two_pos⟩, {}⟩ ++ List.replicate (4 * (k - 1)) ⟨⟨1, Nat.one_lt_two⟩, {}⟩ ++
    List.replicate 17 ⟨⟨1, Nat.one_lt_two⟩, { expired := true }⟩

/-- Where rank 1 sees the timer after two iterations both do three. -/
theorem equalised_two : ∃ tr s,
    Run (Iteration.step twoRanks) (fun s a => timely ![4, 2] s a) (Iteration.new 2 3) tr s ∧
    (∀ t, (s.ranks t).pc = .left) ∧ ∃ f ≤ 3, ∀ t, (s.ranks t).f = f := by
  have hrun : (execute (Iteration.step twoRanks) (fun s a => timely ![4, 2] s a) (fastFirst 2)
      (Iteration.new 2 3)).map (fun r => decide (∀ t, (r.2.ranks t).pc = .left)) = some true := by
    decide +kernel
  obtain ⟨⟨tr, s⟩, hexec, heq⟩ := Option.map_eq_some_iff.mp hrun
  have hleft := of_decide_eq_true heq
  have h := Run.of_execute hexec
  have hfirst : ∀ t : Fin 2, 0 < (![4, 2] : Fin 2 → ℕ) t := by decide
  have hequal : Equalises 3 (![4, 2] : Fin 2 → ℕ) := .inr ⟨by decide, .inr ⟨1, rfl⟩⟩
  exact ⟨tr, s, h, hleft, (equalised_iff (p := twoRanks) rfl rfl hfirst h hleft).mpr hequal⟩

/-- Where rank 1 sees it after one iteration already, it does two and rank 0 three. -/
theorem fast_rank_ahead : ∃ tr s,
    Run (Iteration.step twoRanks) (fun s a => timely ![4, 1] s a) (Iteration.new 2 3) tr s ∧
    (∀ t, (s.ranks t).pc = .left) ∧ (s.ranks 0).f = 3 ∧ (s.ranks 1).f = 2 := by
  have hrun : (execute (Iteration.step twoRanks) (fun s a => timely ![4, 1] s a) (fastFirst 1)
      (Iteration.new 2 3)).map (fun r => decide ((∀ t, (r.2.ranks t).pc = .left) ∧
        (r.2.ranks 0).f = 3 ∧ (r.2.ranks 1).f = 2)) = some true := by
    decide +kernel
  obtain ⟨⟨tr, s⟩, hexec, heq⟩ := Option.map_eq_some_iff.mp hrun
  exact ⟨tr, s, .of_execute hexec, of_decide_eq_true heq⟩

end

end Fstest.Mdworkbench.Stonewall
