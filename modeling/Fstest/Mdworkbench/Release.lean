import Fstest.Mdworkbench.WearOut
import Mathlib.Data.Finset.Max

/-!
# The phases of a run and their barriers

Every rank goes through the phases in the same order, and waits at the barrier before and after each
one. A rank gets past a wait once all ranks have called it as often. In a benchmark phase the ranks
that have seen the timer wait for each other as well. A rank whose write fails before it has
contributed leaves without being counted, and the others wait for it forever (`lost_rank`). As long
as no rank waits for such a rank, every state has a rank that can make progress, and the run can be
continued to its end (`released`).
-/

namespace Fstest.Mdworkbench.Stonewall

open Labelled

inductive Phase where
  | precreate
  | benchmark (it : ℕ)
  | cleanup
  deriving DecidableEq, Repr

/-- The phases of a run in their order. -/
def TimerParams.phases (p : TimerParams) : List Phase :=
  (if p.phasePrecreate then [.precreate] else []) ++
    (if p.phaseBenchmark then (List.range p.iterations).map .benchmark else []) ++
    if p.phaseCleanup then [.cleanup] else []

/-- Where a rank is, with the number of the phase. -/
inductive Place where
  | before (j : ℕ)
  /-- In the wait before the phase. -/
  | entry (j : ℕ)
  | body (j : ℕ)
  /-- The function of the phase has returned. -/
  | tail (j : ℕ)
  /-- In the wait after the phase. -/
  | exit (j : ℕ)
  deriving DecidableEq, Repr

/-- How often the rank has called `wait`. -/
def Place.arrivals : Place → ℕ
  | .before j => 2 * j
  | .entry j | .body j | .tail j => 2 * j + 1
  | .exit j => 2 * j + 2

/-- How often `wait` has returned. -/
def Place.passed : Place → ℕ
  | .before j | .entry j => 2 * j
  | .body j | .tail j | .exit j => 2 * j + 1

/-- The ranks, and what each benchmark iteration has of its own. -/
structure State (n : ℕ) where
  places : Fin n → Place
  iters : ℕ → Iteration n

def State.start (n num : ℕ) : State n := ⟨fun _ => .before 0, fun _ => .new n num⟩

section

variable {n : ℕ}

def State.goto (s : State n) (t : Fin n) (q : Place) : State n :=
  { s with places := Function.update s.places t q }

def State.setIter (s : State n) (it : ℕ) (i : Iteration n) : State n :=
  { s with iters := Function.update s.iters it i }

/-- All ranks have called `wait` that often. -/
def State.Met (s : State n) (k : ℕ) : Prop := ∀ t, k ≤ (s.places t).arrivals

instance (s : State n) (k : ℕ) : Decidable (s.Met k) := inferInstanceAs (Decidable (∀ _, _))

/-- What the function of a phase does next. A benchmark iteration is over where `next` has no step, and
the other phases are one step. -/
def State.work (p : TimerParams) (s : State n) (t : Fin n) (c : Sight) (j : ℕ) : State n :=
  match p.phases[j]? with
  | some (.benchmark it) =>
    match ((s.iters it).ranks t).next p (s.iters it).wear c with
    | some (w, l) => s.setIter it ⟨w, Function.update (s.iters it).ranks t l⟩
    | none => s.goto t (.tail j)
  | _ => s.goto t (.tail j)

def State.step (p : TimerParams) (s : State n) (a : Action n) : Option (State n × Fin n) :=
  match s.places a.rank with
  | .before j => if j < p.phases.length then some (s.goto a.rank (.entry j), a.rank) else none
  | .entry j => if s.Met (2 * j + 1) then some (s.goto a.rank (.body j), a.rank) else none
  | .body j => some (s.work p a.rank a.sight j, a.rank)
  | .tail j => some (s.goto a.rank (.exit j), a.rank)
  | .exit j => if s.Met (2 * j + 2) then some (s.goto a.rank (.before (j + 1)), a.rank) else none

/-- The benchmark iteration in whose function the rank is. -/
def State.iteration (p : TimerParams) (s : State n) (t : Fin n) : Option ℕ :=
  match s.places t with
  | .body j =>
    match p.phases[j]? with
    | some (.benchmark it) => some it
    | _ => none
  | _ => none

theorem State.iteration_eq_some {p : TimerParams} {s : State n} {t : Fin n} {it : ℕ} :
    s.iteration p t = some it ↔
      ∃ j, s.places t = .body j ∧ p.phases[j]? = some (.benchmark it) := by
  rw [State.iteration]
  cases s.places t with
  | body j =>
    simp only [Place.body.injEq, exists_eq_left']
    split
    · rename_i h
      simp [h]
    · rename_i h
      exact ⟨nofun, fun hit => absurd hit (h it)⟩
  | before j | entry j | tail j | exit j => simp

/-! ## What can go wrong -/

/-- The rank is on its way to the wait loop or in it. -/
def Local.engaged (l : Local) : Bool :=
  match l.pc with
  | .store | .fetchMax | .fetchAdd | .loadContributors | .loadFinished _ => true
  | _ => false

/-- A failed write has ended the function before the rank has contributed. -/
def Local.lost (l : Local) : Bool := l.pc == .failed && !l.contributed

/-- The step is a failed write of a rank that has not contributed. -/
def Local.loses (p : TimerParams) (l : Local) (c : Sight) : Bool :=
  match l.pc with
  | .object d => d < p.dsetCount && c.writeFails && !p.readOnly && !l.contributed
  | _ => false

/-- The step is the one to the wait loop. -/
def Local.engages (p : TimerParams) (l : Local) (c : Sight) : Bool :=
  match l.pc with
  | .timer => p.armed && c.expired && p.wearOut && !l.contributed
  | _ => false

/-- With the step no rank comes to wait for a lost one. -/
def Iteration.Clear (p : TimerParams) (i : Iteration n) (t : Fin n) (c : Sight) : Prop :=
  ((i.ranks t).loses p c = true → ∀ u, (i.ranks u).engaged = false) ∧
    ((i.ranks t).engages p c = true → ∀ u, (i.ranks u).lost = false)

/-- No write fails before its rank has contributed while another one waits, and no rank comes to wait
after such a failure. -/
def State.Clear (p : TimerParams) (s : State n) (a : Action n) : Prop :=
  ∀ it ∈ s.iteration p a.rank, (s.iters it).Clear p a.rank a.sight

instance (p : TimerParams) (i : Iteration n) (t : Fin n) (c : Sight) : Decidable (i.Clear p t c) :=
  inferInstanceAs (Decidable (_ ∧ _))

instance (p : TimerParams) (s : State n) (a : Action n) : Decidable (s.Clear p a) :=
  inferInstanceAs (Decidable (∀ it ∈ s.iteration p a.rank, _))

/-- The rank is in the wait loop. -/
def State.Waits (p : TimerParams) (s : State n) (t : Fin n) (it : ℕ) : Prop :=
  s.iteration p t = some it ∧ ((s.iters it).ranks t).pc.waits = true

/-- The rank can take a step, and where it is in the wait loop that has its end. -/
def State.Progress (p : TimerParams) (s : State n) (t : Fin n) : Prop :=
  (∀ c, (s.step p ⟨t, c⟩).isSome) ∧
    ∀ it, s.Waits p t it → p.threads ≤ (s.iters it).wear.contributors + (s.iters it).wear.finished

def State.Finished (p : TimerParams) (s : State n) : Prop :=
  ∀ t, s.places t = .before p.phases.length

end

/-! ## The work that is left -/

/-- What bounds the counters of a call. -/
structure Local.Bounded (num : ℕ) (l : Local) : Prop where
  totalNum : l.totalNum ≤ num + 1
  f : l.f ≤ num + 1
  own : l.contributed = false → l.totalNum = num ∧ l.f ≤ num
  object : ∀ d, l.pc = .object d → l.f < l.totalNum

/-- What a call has left to do, where the wait loop has its end. -/
def Local.rest (p : TimerParams) (w : WearOut) (l : Local) : ℕ :=
  (p.num + 1 - l.f) * (p.dsetCount + 13) +
    match l.pc with
    | .timer => p.dsetCount + 12
    | .store => p.dsetCount + 11
    | .fetchMax => p.dsetCount + 10
    | .fetchAdd => p.dsetCount + 9
    | .loadFinished k => p.dsetCount + if k + w.finished < p.threads then 8 else 6
    | .loadContributors => p.dsetCount + 7
    | .loadTotal => p.dsetCount + 5
    | .head => p.dsetCount + 4
    | .object d => p.dsetCount - d + 3
    | .finish => 2
    | .left | .failed => 1

section

variable {p : TimerParams} {w w' : WearOut} {l l' : Local} {c : Sight}

theorem Local.rest_le (p : TimerParams) (w : WearOut) (l : Local) :
    l.rest p w ≤ (p.num + 1) * (p.dsetCount + 13) + (p.dsetCount + 12) := by
  have hmul := Nat.mul_le_mul_right (p.dsetCount + 13) (Nat.sub_le (p.num + 1) l.f)
  refine Nat.add_le_add hmul ?_
  cases l.pc <;> simp only <;> try split
  all_goals omega

/-- What other ranks do only brings the end of the wait loop closer. -/
theorem Local.rest_anti (h : w.finished ≤ w'.finished) : l.rest p w' ≤ l.rest p w := by
  refine Nat.add_le_add_left ?_ _
  cases l.pc <;> simp only [Nat.le_refl]
  split <;> split <;> omega

theorem Local.next_bounded (h : l.next p w c = some (w', l')) (hl : l.Bounded p.num)
    (hw : w.total ≤ p.num + 1) (hp : l.Proper) : l'.Bounded p.num ∧ w'.total ≤ p.num + 1 := by
  obtain ⟨pc, f, totalNum, contributed⟩ := l
  obtain ⟨htotal, hf, hown, hobject⟩ := hl
  simp only at htotal hf hown hobject
  cases pc with
  | left | failed => cases h
  | head =>
    simp only [Local.next] at h
    split_ifs at h with hlt <;> cases h
    · exact ⟨⟨htotal, hf, hown, fun _ _ => hlt⟩, hw⟩
    · exact ⟨⟨htotal, hf, hown, fun _ hd => (by cases hd)⟩, hw⟩
  | object d =>
    have hlt := hobject d rfl
    simp only [Local.next] at h
    split_ifs at h <;> cases h
    · exact ⟨⟨htotal, hf, hown, fun _ hd => (by cases hd)⟩, hw⟩
    · exact ⟨⟨htotal, hf, hown, fun _ _ => hlt⟩, hw⟩
    · refine ⟨⟨htotal, by simp only; omega, fun hc => ?_, fun _ hd => (by cases hd)⟩, hw⟩
      have := hown hc
      simp only
      omega
  | timer =>
    simp only [Local.next] at h
    split_ifs at h <;> cases h <;> exact ⟨⟨htotal, hf, hown, fun _ hd => (by cases hd)⟩, hw⟩
  | fetchMax =>
    cases h
    have := hown hp
    refine ⟨⟨htotal, hf, hown, fun _ hd => (by cases hd)⟩, ?_⟩
    simp only
    omega
  | store | fetchAdd | loadContributors | finish =>
    cases h
    exact ⟨⟨htotal, hf, hown, fun _ hd => (by cases hd)⟩, hw⟩
  | loadFinished k =>
    simp only [Local.next] at h
    split_ifs at h <;> cases h
    · exact ⟨⟨htotal, hf, hown, fun _ hd => (by cases hd)⟩, hw⟩
    · exact ⟨⟨htotal, hf, fun hc => (by cases hc), fun _ hd => (by cases hd)⟩, hw⟩
  | loadTotal =>
    cases h
    simp only [Local.Proper] at hp
    subst hp
    refine ⟨⟨?_, hf, fun hc => (by cases hc), fun _ hd => (by cases hd)⟩, hw⟩
    simp only
    split <;> omega

/-- **A step leaves less to do**, unless the rank waits and has to. -/
theorem Local.next_rest (h : l.next p w c = some (w', l')) (hl : l.Bounded p.num)
    (hwait : l.pc.waits = true → p.threads ≤ w.contributors + w.finished) :
    l'.rest p w' < l.rest p w := by
  obtain ⟨pc, f, totalNum, contributed⟩ := l
  obtain ⟨htotal, hf, hown, hobject⟩ := hl
  simp only at htotal hf hown hobject
  cases pc with
  | left | failed => cases h
  | head =>
    simp only [Local.next] at h
    split_ifs at h with hlt <;> cases h <;> refine Nat.add_lt_add_left ?_ _ <;> simp only <;> omega
  | object d =>
    have hlt := hobject d rfl
    simp only [Local.next] at h
    split_ifs at h <;> cases h
    · exact Nat.add_lt_add_left (by simp only; omega) _
    · exact Nat.add_lt_add_left (by simp only; omega) _
    · simp only [Local.rest]
      obtain ⟨k, hk⟩ : ∃ k, p.num + 1 - f = k + 1 := ⟨p.num - f, by omega⟩
      rw [hk, show p.num + 1 - (f + 1) = k by omega, Nat.succ_mul]
      omega
  | timer =>
    simp only [Local.next] at h
    split_ifs at h <;> cases h <;> refine Nat.add_lt_add_left ?_ _ <;> simp only <;> omega
  | loadContributors =>
    cases h
    have := hwait rfl
    refine Nat.add_lt_add_left ?_ _
    simp only
    rw [if_neg (by omega)]
    omega
  | loadFinished k =>
    simp only [Local.next] at h
    split_ifs at h with hlt <;> cases h <;> refine Nat.add_lt_add_left ?_ _ <;> simp only
    · rw [if_pos hlt]
      omega
    · rw [if_neg hlt]
      omega
  | fetchAdd =>
    cases h
    exact Nat.add_lt_add_left (by simp only; omega) _
  | store | fetchMax | loadTotal | finish =>
    cases h
    exact Nat.add_lt_add_left (by simp only; omega) _

theorem Local.next_finished (h : l.next p w c = some (w', l')) : w.finished ≤ w'.finished := by
  obtain ⟨pc, f, totalNum, contributed⟩ := l
  cases pc with
  | left | failed => cases h
  | head | object d | timer | loadFinished k =>
    simp only [Local.next] at h
    split_ifs at h <;> cases h <;> exact Nat.le_refl _
  | finish =>
    cases h
    exact Nat.le_succ _
  | store | fetchMax | fetchAdd | loadContributors | loadTotal =>
    cases h
    exact Nat.le_refl _

/-- A rank that is neither lost nor waits. -/
theorem Local.no_claim {l : Local} {a b : Prop} (hlost : l.lost = false) (hengaged : l.engaged = false) :
    (l.lost = true → a) ∧ (l.engaged = true → b) := by
  rw [hlost, hengaged]
  exact ⟨fun h => absurd h Bool.false_ne_true, fun h => absurd h Bool.false_ne_true⟩

/-- How a rank comes to be lost, and how it comes to wait. -/
theorem Local.next_clear (h : l.next p w c = some (w', l')) :
    (l'.lost = true → l.loses p c = true) ∧
      (l'.engaged = true → l.engaged = true ∨ l.engages p c = true) := by
  obtain ⟨pc, f, totalNum, contributed⟩ := l
  cases pc with
  | left | failed => cases h
  | head =>
    simp only [Local.next] at h
    split_ifs at h <;> cases h <;> exact no_claim rfl rfl
  | object d =>
    simp only [Local.next] at h
    split_ifs at h with hd hc <;> cases h
    · refine ⟨fun hl => ?_, fun he => by cases he⟩
      simp only [Local.lost, beq_self_eq_true, Bool.true_and] at hl
      simp only [Local.loses, hd, decide_true, Bool.true_and, hl, Bool.and_true]
      exact hc
    · exact no_claim rfl rfl
    · exact no_claim rfl rfl
  | timer =>
    simp only [Local.next] at h
    split_ifs at h with he hw hc <;> cases h
    · exact no_claim rfl rfl
    · refine ⟨fun hl => (by cases hl), fun _ => .inr ?_⟩
      simp only [Local.engages, hc, he, Bool.true_and, Bool.and_true]
      simpa using hw
    · exact no_claim rfl rfl
    · exact no_claim rfl rfl
  | store | fetchMax | fetchAdd | loadContributors =>
    cases h
    exact ⟨fun hl => (by cases hl), fun _ => .inl rfl⟩
  | loadFinished k =>
    simp only [Local.next] at h
    split_ifs at h <;> cases h
    · exact ⟨fun hl => (by cases hl), fun _ => .inl rfl⟩
    · exact no_claim rfl rfl
  | loadTotal | finish =>
    cases h
    exact no_claim rfl rfl

end

/-! ## What holds in every state -/

/-- What is known of a benchmark iteration. -/
structure Iteration.Sound (p : TimerParams) {n : ℕ} (i : Iteration n) : Prop where
  counted : Counted i
  total : i.wear.total ≤ p.num + 1
  bounded : ∀ t, (i.ranks t).Bounded p.num
  clear : ∀ t u, (i.ranks t).engaged = true → (i.ranks u).lost = false

/-- What is known of the ranks and of the iterations. -/
structure State.Sound (p : TimerParams) (s : State p.threads) : Prop where
  iters : ∀ it, (s.iters it).Sound p
  /-- Nobody has got past a wait that somebody has not called as often. -/
  met : ∀ t, s.Met (s.places t).passed
  le : ∀ t, (s.places t).arrivals ≤ 2 * p.phases.length
  /-- The function of a benchmark phase has returned. -/
  returned : ∀ t j it, s.places t = .tail j ∨ s.places t = .exit j →
    p.phases[j]? = some (.benchmark it) →
    ((s.iters it).ranks t).pc = .left ∨ ((s.iters it).ranks t).pc = .failed

section

variable {p : TimerParams} {n : ℕ} {i : Iteration n} {t : Fin n} {c : Sight} {w' : WearOut}
  {l' : Local}

theorem Iteration.sound_new (p : TimerParams) (n : ℕ) : (Iteration.new n p.num).Sound p where
  counted := counted_new n p.num
  total := Nat.zero_le _
  bounded _ := ⟨Nat.le_succ _, Nat.zero_le _, fun _ => ⟨rfl, Nat.zero_le _⟩, nofun⟩
  clear _ _ h := by cases h

/-- **A step of a rank keeps an iteration sound.** -/
theorem Iteration.Sound.update (h : i.Sound p) (hs : (i.ranks t).next p i.wear c = some (w', l'))
    (hclear : i.Clear p t c) :
    (⟨w', Function.update i.ranks t l'⟩ : Iteration n).Sound p := by
  obtain ⟨hbounded, htotal⟩ := Local.next_bounded hs (h.bounded t) h.total (h.counted.proper t)
  obtain ⟨hlost, hengaged⟩ := Local.next_clear hs
  refine ⟨h.counted.update hs, htotal, fun u => ?_, fun u v hu => ?_⟩
  · by_cases hu : u = t
    · subst hu
      simpa using hbounded
    · simpa [Function.update_of_ne hu] using h.bounded u
  · -- Neither the rank that waits nor the one that is lost has become so by the step.
    by_cases hnew : (Function.update i.ranks t l' v).lost = true
    · exfalso
      by_cases hv : v = t
      · subst hv
        simp only [Function.update_self] at hnew
        have hnone := hclear.1 (hlost hnew)
        by_cases huv : u = v
        · subst huv
          simp only [Function.update_self] at hu
          cases hpc : l'.pc <;> simp [Local.lost, Local.engaged, hpc] at hnew hu
        · simp only [Function.update_of_ne huv, hnone u, Bool.false_eq_true] at hu
      · simp only [Function.update_of_ne hv] at hnew
        by_cases hut : u = t
        · subst hut
          simp only [Function.update_self] at hu
          rcases hengaged hu with hold | hengages
          · rw [h.clear u v hold] at hnew
            cases hnew
          · rw [hclear.2 hengages v] at hnew
            cases hnew
        · simp only [Function.update_of_ne hut] at hu
          rw [h.clear u v hu] at hnew
          cases hnew
    · simpa using hnew

end

section

variable {p : TimerParams} {s s' : State p.threads} {t : Fin p.threads} {a : Action p.threads}
  {e : Fin p.threads} {q : Place} {c : Sight} {j it k : ℕ}

theorem State.sound_start (p : TimerParams) : (State.start p.threads p.num).Sound p where
  iters _ := Iteration.sound_new p p.threads
  met _ _ := Nat.zero_le _
  le _ := Nat.zero_le _
  returned t j it h := by rcases h with h | h <;> cases h

theorem State.Met.goto (h : s.Met k) (hq : (s.places t).arrivals ≤ q.arrivals) :
    (s.goto t q).Met k := by
  intro u
  by_cases hu : u = t
  · subst hu
    simpa [State.goto] using (h u).trans hq
  · simpa [State.goto, hu] using h u

/-- A rank moves on. -/
theorem State.Sound.goto (h : s.Sound p) (hmet : s.Met q.passed)
    (hq : (s.places t).arrivals ≤ q.arrivals) (hle : q.arrivals ≤ 2 * p.phases.length)
    (hreturned : ∀ j it, q = .tail j ∨ q = .exit j → p.phases[j]? = some (.benchmark it) →
      ((s.iters it).ranks t).pc = .left ∨ ((s.iters it).ranks t).pc = .failed) :
    (s.goto t q).Sound p := by
  refine ⟨h.iters, fun u => ?_, fun u => ?_, fun u j it hu hj => ?_⟩
  · by_cases hut : u = t
    · subst hut
      simpa [State.goto] using hmet.goto hq
    · simpa [State.goto, hut] using (h.met u).goto hq
  · by_cases hut : u = t
    · subst hut
      simpa [State.goto] using hle
    · simpa [State.goto, hut] using h.le u
  · by_cases hut : u = t
    · subst hut
      simp only [State.goto, Function.update_self] at hu
      exact hreturned j it hu hj
    · simp only [State.goto, Function.update_of_ne hut] at hu
      exact h.returned u j it hu hj

/-- A rank takes a step in its benchmark phase. -/
theorem State.Sound.setIter (h : s.Sound p) (ht : s.places t = .body j) {w' : WearOut} {l' : Local}
    (hs : ((s.iters it).ranks t).next p (s.iters it).wear c = some (w', l'))
    (hclear : (s.iters it).Clear p t c) :
    (s.setIter it ⟨w', Function.update (s.iters it).ranks t l'⟩).Sound p := by
  refine ⟨fun it' => ?_, h.met, h.le, fun u k it' hu hk => ?_⟩
  · by_cases hit : it' = it
    · subst hit
      simpa [State.setIter] using (h.iters it').update hs hclear
    · simpa [State.setIter, hit] using h.iters it'
  · -- Somebody else has returned.
    have hold := h.returned u k it' hu hk
    have hut : u ≠ t := by
      rintro rfl
      change s.places u = _ ∨ s.places u = _ at hu
      rw [ht] at hu
      rcases hu with hu | hu <;> cases hu
    by_cases hit : it' = it
    · subst hit
      simpa [State.setIter, hut] using hold
    · simpa [State.setIter, hit] using hold

theorem Local.next_eq_none {w : WearOut} {l : Local} (h : l.next p w c = none) :
    l.pc = .left ∨ l.pc = .failed := by
  obtain ⟨pc, f, totalNum, contributed⟩ := l
  cases pc with
  | left => exact .inl rfl
  | failed => exact .inr rfl
  | head | object d | timer | loadFinished k =>
    simp only [Local.next] at h
    split_ifs at h
  | store | fetchMax | fetchAdd | loadContributors | loadTotal | finish => cases h

/-- **Every step keeps what is known.** -/
theorem State.Sound.step (h : s.Sound p) (hclear : s.Clear p a) (hs : s.step p a = some (s', e)) :
    s'.Sound p := by
  obtain ⟨t, c⟩ := a
  have hmet := h.met t
  have hle := h.le t
  rw [State.step] at hs
  cases ht : s.places t with
  | before j =>
    simp only [ht, Place.passed, Place.arrivals] at hs hmet hle
    split_ifs at hs with hj
    obtain ⟨rfl, -⟩ := Prod.mk.inj (Option.some.inj hs)
    refine h.goto hmet (by simp [ht, Place.arrivals]) (by simp only [Place.arrivals]; omega) ?_
    rintro k it (hk | hk) <;> cases hk
  | entry j =>
    simp only [ht, Place.arrivals] at hs hle
    split_ifs at hs with hj
    obtain ⟨rfl, -⟩ := Prod.mk.inj (Option.some.inj hs)
    refine h.goto hj (by simp [ht, Place.arrivals]) hle ?_
    rintro k it (hk | hk) <;> cases hk
  | body j =>
    have hreturn : (∀ it, p.phases[j]? = some (.benchmark it) →
        ((s.iters it).ranks t).pc = .left ∨ ((s.iters it).ranks t).pc = .failed) →
        (s.goto t (.tail j)).Sound p := by
      intro hleft
      simp only [ht, Place.passed, Place.arrivals] at hmet hle
      refine h.goto hmet (by simp [ht, Place.arrivals]) hle ?_
      rintro k it (hk | hk) hphase <;> cases hk
      exact hleft it hphase
    simp only [ht] at hs
    obtain ⟨rfl, -⟩ := Prod.mk.inj (Option.some.inj hs)
    rw [State.work]
    cases hphase : p.phases[j]? with
    | none => exact hreturn (by simp [hphase])
    | some phase =>
      cases phase with
      | precreate | cleanup => exact hreturn (by simp [hphase])
      | benchmark it =>
        have hclear := hclear it (iteration_eq_some.mpr ⟨j, ht, hphase⟩)
        cases hnext : ((s.iters it).ranks t).next p (s.iters it).wear c with
        | some r =>
          simp only [hnext]
          exact h.setIter ht hnext hclear
        | none =>
          simp only [hnext]
          refine hreturn fun it' hit' => ?_
          obtain rfl : it = it' := by simpa [hphase] using hit'
          exact Local.next_eq_none hnext
  | tail j =>
    simp only [ht, Place.passed, Place.arrivals] at hs hmet hle
    obtain ⟨rfl, -⟩ := Prod.mk.inj (Option.some.inj hs)
    refine h.goto hmet (by simp [ht, Place.arrivals]) (by simp only [Place.arrivals]; omega) ?_
    rintro k it (hk | hk) hphase <;> cases hk
    exact h.returned t j it (.inl ht) hphase
  | exit j =>
    simp only [ht, Place.arrivals] at hs hle
    split_ifs at hs with hj
    obtain ⟨rfl, -⟩ := Prod.mk.inj (Option.some.inj hs)
    refine h.goto hj (by simp [ht, Place.arrivals]; omega) (by simp only [Place.arrivals]; omega) ?_
    rintro k it (hk | hk) <;> cases hk

/-! ## Progress -/

/-- Outside of the functions of the phases every step is progress. -/
theorem State.progress_of_step (hbody : ∀ j, s.places t ≠ .body j)
    (hstep : ∀ c, (s.step p ⟨t, c⟩).isSome) : s.Progress p t :=
  ⟨hstep, fun _ hw => let ⟨j, hj, _⟩ := iteration_eq_some.mp hw.1; absurd hj (hbody j)⟩

theorem State.progress_before (ht : s.places t = .before j) (hj : j < p.phases.length) :
    s.Progress p t :=
  progress_of_step (by simp [ht]) fun c => by simp [State.step, ht, hj]

theorem State.progress_entry (ht : s.places t = .entry j) (hmet : s.Met (2 * j + 1)) :
    s.Progress p t :=
  progress_of_step (by simp [ht]) fun c => by simp [State.step, ht, hmet]

theorem State.progress_tail (ht : s.places t = .tail j) : s.Progress p t :=
  progress_of_step (by simp [ht]) fun c => by simp [State.step, ht]

theorem State.progress_exit (ht : s.places t = .exit j) (hmet : s.Met (2 * j + 2)) :
    s.Progress p t :=
  progress_of_step (by simp [ht]) fun c => by simp [State.step, ht, hmet]

theorem State.progress_body (ht : s.places t = .body j)
    (hwait : ∀ it, s.Waits p t it →
      p.threads ≤ (s.iters it).wear.contributors + (s.iters it).wear.finished) :
    s.Progress p t :=
  ⟨fun c => by simp [State.step, ht], hwait⟩

theorem Pc.engaged_of_waits {l : Local} (h : l.pc.waits = true) : l.engaged = true := by
  rw [Local.engaged]
  cases hpc : l.pc <;> rw [hpc] at h <;> first | rfl | cases h

/-- Where no rank is further behind, the wait loop of a rank ends, or somebody else makes progress. -/
theorem State.Sound.wait_ends (h : s.Sound p) (hmin : ∀ u, (s.places t).arrivals ≤ (s.places u).arrivals)
    (hw : s.Waits p t it) (hnone : ∀ u, ¬ s.Progress p u) :
    p.threads ≤ (s.iters it).wear.contributors + (s.iters it).wear.finished := by
  obtain ⟨hit, hwaits⟩ := hw
  obtain ⟨j, ht, hj⟩ := iteration_eq_some.mp hit
  apply (h.iters it).counted.enough
  intro u
  -- Nobody is ahead of the wait after this phase.
  have hge := hmin u
  have hpassed := h.met u t
  rw [ht] at hge hpassed
  simp only [Place.arrivals] at hge hpassed
  have hmet : s.Met (2 * j + 1) := fun v => by
    have := hmin v
    rw [ht] at this
    exact this
  cases hu : s.places u <;> simp only [hu, Place.passed] at hge hpassed
  case before k => omega
  case entry k =>
    obtain rfl : k = j := by omega
    exact absurd (progress_entry hu hmet) (hnone u)
  case body k =>
    obtain rfl : k = j := by omega
    by_cases hwait : ((s.iters it).ranks u).pc.waits = true
    · exact .inl (by simp [Local.added, hwait])
    · refine absurd (progress_body hu ?_) (hnone u)
      rintro it' ⟨hit', hwait'⟩
      rw [iteration_eq_some.mpr ⟨k, hu, hj⟩] at hit'
      cases hit'
      exact absurd hwait' hwait
  case tail k => exact absurd (progress_tail hu) (hnone u)
  case exit k =>
    obtain rfl : k = j := by omega
    rcases h.returned u k it (.inr hu) hj with hleft | hfailed
    · exact .inr hleft
    · -- The write has failed after the rank had contributed.
      have hlost := (h.iters it).clear t u (Pc.engaged_of_waits hwaits)
      left
      simp only [Local.lost, hfailed, beq_self_eq_true, Bool.true_and, Bool.not_eq_false'] at hlost
      simp [Local.added, hlost]

/-- **Some rank makes progress until all have finished.** -/
theorem State.Sound.progress (h : s.Sound p) : s.Finished p ∨ ∃ t, s.Progress p t := by
  by_contra hstuck
  obtain ⟨hfinished, hnone⟩ := not_or.mp hstuck
  have hnone : ∀ u, ¬ s.Progress p u := fun u hu => hnone ⟨u, hu⟩
  obtain ⟨t, -, hmin⟩ := Finset.exists_min_image Finset.univ (fun t => (s.places t).arrivals)
    ⟨⟨0, p.threads_pos⟩, Finset.mem_univ _⟩
  have hmin : ∀ u, (s.places t).arrivals ≤ (s.places u).arrivals :=
    fun u => hmin u (Finset.mem_univ u)
  cases ht : s.places t with
  | before j =>
    have hle := h.le t
    have hall : s.Met (2 * j) := fun u => by simpa [ht, Place.arrivals] using hmin u
    simp only [ht, Place.arrivals] at hle
    by_cases hj : j < p.phases.length
    · exact hnone t (progress_before ht hj)
    · -- All ranks have called their last wait.
      obtain rfl : j = p.phases.length := by omega
      refine hfinished fun u => ?_
      have hu := hall u
      have hleu := h.le u
      cases hpu : s.places u <;> simp only [hpu, Place.arrivals] at hu hleu
      case before k => exact congrArg Place.before (by omega)
      case exit k =>
        have hmet : s.Met (2 * k + 2) := fun v => Nat.le_trans (by omega) (hall v)
        exact absurd (progress_exit hpu hmet) (hnone u)
      all_goals omega
  | entry j => exact hnone t (progress_entry ht fun u => (by simpa [ht, Place.arrivals] using hmin u))
  | tail j => exact hnone t (progress_tail ht)
  | exit j => exact hnone t (progress_exit ht fun u => (by simpa [ht, Place.arrivals] using hmin u))
  | body j => exact hnone t (progress_body ht fun it hw => h.wait_ends hmin hw hnone)

/-! ## Runs to the end -/

/-- More than what a call has left to do. -/
def TimerParams.most (p : TimerParams) : ℕ :=
  (p.num + 1) * (p.dsetCount + 13) + (p.dsetCount + 12)

/-- What a rank has left to do, where the wait loops have their ends. -/
def State.rest (p : TimerParams) (s : State p.threads) (t : Fin p.threads) : ℕ :=
  match s.places t with
  | .before j => (p.phases.length - j) * (p.most + 5)
  | .entry j => (p.phases.length - 1 - j) * (p.most + 5) + (p.most + 4)
  | .body j => (p.phases.length - 1 - j) * (p.most + 5) + 3 +
    match p.phases[j]? with
    | some (.benchmark it) => ((s.iters it).ranks t).rest p (s.iters it).wear
    | _ => 0
  | .tail j => (p.phases.length - 1 - j) * (p.most + 5) + 2
  | .exit j => (p.phases.length - 1 - j) * (p.most + 5) + 1

theorem State.rest_goto_of_ne {u : Fin p.threads} (hu : u ≠ t) :
    (s.goto t q).rest p u = s.rest p u := by
  simp [State.rest, State.goto, hu]

/-- A step inside an iteration. For the other ranks the counters may have grown. -/
theorem State.setIter_rest {j it : ℕ} {w' : WearOut} {l' : Local} (ht : s.places t = .body j)
    (hphase : p.phases[j]? = some (.benchmark it)) (hw : (s.iters it).wear.finished ≤ w'.finished)
    (hlt : l'.rest p w' < ((s.iters it).ranks t).rest p (s.iters it).wear) :
    (s.setIter it ⟨w', Function.update (s.iters it).ranks t l'⟩).rest p t < s.rest p t ∧
      ∀ u ≠ t, (s.setIter it ⟨w', Function.update (s.iters it).ranks t l'⟩).rest p u ≤ s.rest p u := by
  constructor
  · simpa [State.rest, State.setIter, ht, hphase] using hlt
  · intro u hu
    simp only [State.rest, State.setIter]
    cases s.places u with
    | before k | entry k | tail k | exit k => exact Nat.le_refl _
    | body k =>
      refine Nat.add_le_add_left ?_ _
      split
      · rename_i it' _
        by_cases hit : it' = it
        · subst hit
          simp only [Function.update_self, Function.update_of_ne hu]
          exact Local.rest_anti hw
        · simp only [Function.update_of_ne hit, Nat.le_refl]
      · exact Nat.le_refl _

/-- **A step that is progress leaves less to do.** -/
theorem State.Sound.step_rest (h : s.Sound p) (hs : s.step p a = some (s', e))
    (hp : s.Progress p a.rank) :
    s'.rest p a.rank < s.rest p a.rank ∧ ∀ u ≠ a.rank, s'.rest p u ≤ s.rest p u := by
  obtain ⟨t, c⟩ := a
  have hle := h.le t
  rw [State.step] at hs
  -- What a step to another place leaves.
  have hgoto : ∀ {q}, (s.goto t q).rest p t < s.rest p t →
      (s.goto t q).rest p t < s.rest p t ∧ ∀ u ≠ t, (s.goto t q).rest p u ≤ s.rest p u :=
    fun hlt => ⟨hlt, fun u hu => (rest_goto_of_ne hu).le⟩
  have hself : ∀ {q}, (s.goto t q).places t = q := by simp [State.goto]
  cases ht : s.places t with
  | before j =>
    simp only [ht] at hs
    split_ifs at hs with hj
    obtain ⟨rfl, -⟩ := Prod.mk.inj (Option.some.inj hs)
    refine hgoto ?_
    obtain ⟨k, hk⟩ : ∃ k, p.phases.length - j = k + 1 := ⟨p.phases.length - j - 1, by omega⟩
    simp only [State.rest, ht, hself]
    rw [hk, show p.phases.length - 1 - j = k by omega, Nat.succ_mul]
    omega
  | entry j =>
    simp only [ht] at hs
    split_ifs at hs with hj
    obtain ⟨rfl, -⟩ := Prod.mk.inj (Option.some.inj hs)
    refine hgoto ?_
    simp only [State.rest, ht, hself]
    cases hphase : p.phases[j]? with
    | none => simp only; omega
    | some phase =>
      cases phase with
      | precreate | cleanup => simp only; omega
      | benchmark it =>
        have hrest := Local.rest_le p (s.iters it).wear ((s.iters it).ranks t)
        change _ ≤ p.most at hrest
        simp only [State.goto]
        omega
  | tail j =>
    simp only [ht] at hs
    obtain ⟨rfl, -⟩ := Prod.mk.inj (Option.some.inj hs)
    refine hgoto ?_
    simp only [State.rest, ht, hself]
    omega
  | exit j =>
    simp only [ht, Place.arrivals] at hs hle
    split_ifs at hs with hj
    obtain ⟨rfl, -⟩ := Prod.mk.inj (Option.some.inj hs)
    refine hgoto ?_
    simp only [State.rest, ht, hself]
    rw [show p.phases.length - (j + 1) = p.phases.length - 1 - j by omega]
    omega
  | body j =>
    simp only [ht] at hs
    obtain ⟨rfl, -⟩ := Prod.mk.inj (Option.some.inj hs)
    have hreturn : (s.goto t (.tail j)).rest p t < s.rest p t := by
      simp only [State.rest, ht, hself]
      omega
    rw [State.work]
    cases hphase : p.phases[j]? with
    | none => exact hgoto hreturn
    | some phase =>
      cases phase with
      | precreate | cleanup => exact hgoto hreturn
      | benchmark it =>
        cases hnext : ((s.iters it).ranks t).next p (s.iters it).wear c with
        | none =>
          simp only [hnext]
          exact hgoto hreturn
        | some r =>
          obtain ⟨w', l'⟩ := r
          simp only [hnext]
          have hlt := Local.next_rest hnext ((h.iters it).bounded t)
            fun hwait => hp.2 it ⟨iteration_eq_some.mpr ⟨j, ht, hphase⟩, hwait⟩
          exact setIter_rest ht hphase (Local.next_finished hnext) hlt

theorem State.Sound.sum_rest_lt (h : s.Sound p) (hs : s.step p a = some (s', e))
    (hp : s.Progress p a.rank) : ∑ u, s'.rest p u < ∑ u, s.rest p u := by
  obtain ⟨hlt, hle⟩ := h.step_rest hs hp
  refine Finset.sum_lt_sum (fun u _ => ?_) ⟨a.rank, Finset.mem_univ _, hlt⟩
  by_cases hu : u = a.rank
  · rw [hu]
    exact hlt.le
  · exact hle u hu

/-- Where no write fails and no timer is seen to expire nothing can go wrong. -/
theorem State.clear_quiet (s : State p.threads) (t : Fin p.threads) : s.Clear p ⟨t, {}⟩ := by
  intro it _
  refine ⟨fun h => ?_, fun h => ?_⟩
  · rw [Local.loses] at h
    split at h <;> simp at h
  · rw [Local.engages] at h
    split at h <;> simp at h

/-- The ranks can be brought to the end of the run. -/
theorem State.Sound.finishes (h : s.Sound p) :
    ∃ tr s', Run (State.step p) (State.Clear p) s tr s' ∧ s'.Finished p := by
  induction hm : ∑ u, s.rest p u using Nat.strongRecOn generalizing s with
  | ind m ih =>
    rcases h.progress with hfinished | ⟨t, hp⟩
    · exact ⟨[], s, .nil, hfinished⟩
    · obtain ⟨⟨s₁, e⟩, hs⟩ := Option.isSome_iff_exists.mp (hp.1 {})
      have hclear := s.clear_quiet t
      have hlt := h.sum_rest_lt hs hp
      obtain ⟨tr, s', hrun, hfinished⟩ := ih _ (hm ▸ hlt) (h.step hclear hs) rfl
      exact ⟨e :: tr, s', .cons hclear hs hrun, hfinished⟩

/-- Progress comes to an end. -/
theorem State.Sound.length_le (h : s.Sound p) {tr : List (Fin p.threads)}
    (hrun : Run (State.step p) (fun s a => s.Clear p a ∧ s.Progress p a.rank) s tr s') :
    tr.length ≤ ∑ u, s.rest p u := by
  have hkept : s'.Sound p ∧ tr.length + ∑ u, s'.rest p u ≤ ∑ u, s.rest p u := by
    refine hrun.invariant (I := fun tr s' => s'.Sound p ∧ tr.length + ∑ u, s'.rest p u ≤ ∑ u, s.rest p u)
      ⟨h, by simp⟩ ?_
    intro tr s₁ a s₂ e _ ih hp hs
    have hlt := ih.1.sum_rest_lt hs hp.2
    refine ⟨ih.1.step hp.1 hs, ?_⟩
    rw [List.length_append, List.length_singleton]
    omega
  omega

theorem sound_of_run {tr : List (Fin p.threads)}
    (h : Run (State.step p) (State.Clear p) (.start p.threads p.num) tr s) : s.Sound p :=
  h.invariant (I := fun _ s => s.Sound p) (State.sound_start p)
    fun _ _ _ _ _ _ ih hclear hs => ih.step hclear hs

/-- **No rank waits forever**, as long as none waits for a rank that a failed write has taken away
before it contributed. Until all have finished some rank makes progress, all can be brought to the
end, and whatever the order, that takes a bounded number of steps that are progress. -/
theorem released {tr : List (Fin p.threads)}
    (h : Run (State.step p) (State.Clear p) (.start p.threads p.num) tr s) :
    (s.Finished p ∨ ∃ t, s.Progress p t) ∧
      (∃ tr' s', Run (State.step p) (State.Clear p) s tr' s' ∧ s'.Finished p) ∧
      ∃ b, ∀ tr' s', Run (State.step p) (fun s a => s.Clear p a ∧ s.Progress p a.rank) s tr' s' →
        tr'.length ≤ b := by
  have hsound := sound_of_run h
  exact ⟨hsound.progress, hsound.finishes, _, fun _ _ hrun => hsound.length_le hrun⟩

end

/-! ## A rank that is never counted -/

/-- Both ranks take a step. -/
def both : List (Action 2) := [⟨⟨0, Nat.two_pos⟩, {}⟩, ⟨⟨1, Nat.one_lt_two⟩, {}⟩]

/-- The ranks do the first phase and start the second, in which rank 1 sees the timer expired. -/
def toTheWait (first : List (Action 2)) : List (Action 2) :=
  (List.replicate 7 both).flatten ++ first ++ List.replicate 8 ⟨⟨1, Nat.one_lt_two⟩, { expired := true }⟩

/-- Rank 1 waits for rank 0, which makes progress. -/
theorem released_two : ∃ tr s, Run (State.step twoRanks) (State.Clear twoRanks) (.start 2 3) tr s ∧
    s.Waits twoRanks 1 0 ∧ ∃ t, s.Progress twoRanks t := by
  have hrun : (execute (State.step twoRanks) (State.Clear twoRanks) (toTheWait [])
      (.start 2 3)).map (fun r => decide (r.2.iteration twoRanks 1 = some 0 ∧
        ((r.2.iters 0).ranks 1).pc.waits = true ∧ r.2.places 1 ≠ .before 3)) = some true := by
    decide +kernel
  obtain ⟨⟨tr, s⟩, hexec, heq⟩ := Option.map_eq_some_iff.mp hrun
  obtain ⟨hit, hwaits, hplace⟩ := of_decide_eq_true heq
  have h := Run.of_execute hexec
  have hunfinished : ¬ s.Finished twoRanks := fun hf => hplace (hf (1 : Fin 2))
  exact ⟨tr, s, h, ⟨hit, hwaits⟩, (released (p := twoRanks) h).1.resolve_left hunfinished⟩

/-- A write of rank 0 fails before it has contributed, and neither rank can make progress any more. -/
theorem lost_rank : ∃ tr s, Run (State.step twoRanks) (fun _ _ => True) (.start 2 3) tr s ∧
    ¬ s.Finished twoRanks ∧ ∀ t, ¬ s.Progress twoRanks t := by
  have hrun : (execute (State.step twoRanks) (fun _ _ => True)
      (toTheWait [⟨0, {}⟩, ⟨0, { writeFails := true }⟩, ⟨0, {}⟩, ⟨0, {}⟩]) (.start 2 3)).map
        (fun r => decide (r.2.iteration twoRanks 1 = some 0 ∧ r.2.places 0 = .exit 1 ∧
          ((r.2.iters 0).ranks 1).pc.waits = true ∧ (r.2.places 1).arrivals = 3 ∧
          (r.2.iters 0).wear.contributors + (r.2.iters 0).wear.finished = 1)) = some true := by
    decide +kernel
  obtain ⟨⟨tr, s⟩, hexec, heq⟩ := Option.map_eq_some_iff.mp hrun
  obtain ⟨hit, hplace, hwaits, harrivals, hcounters⟩ := of_decide_eq_true heq
  dsimp only at hit hplace hwaits harrivals hcounters
  refine ⟨tr, s, .of_execute hexec, fun hf => ?_, fun t => ?_⟩
  · rw [hf 0] at hplace
    cases hplace
  · rintro ⟨hstep, hwait⟩
    match t with
    | 0 =>
      -- It waits for the other rank at the barrier.
      have hmet : ¬ s.Met 4 := fun hm => by
        have := hm 1
        omega
      have := hstep {}
      simp [State.step, hplace, hmet] at this
    | 1 =>
      have hle : 2 ≤ (s.iters 0).wear.contributors + (s.iters 0).wear.finished :=
        hwait 0 ⟨hit, hwaits⟩
      omega

end Fstest.Mdworkbench.Stonewall
