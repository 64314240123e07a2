import Mathlib.Algebra.Order.BigOperators.Group.Finset
import Mathlib.Data.Fintype.BigOperators

/-!
# Threads that do not get in each other's way

Threads make calls on a common memory, go on with the results, and wait at a barrier for each other
(`Prog`, `step`). `Independent` says that the calls that a thread may make find the same, and do the
same, wherever the memory looks the same to that thread, and that the calls of other threads change
nothing that it sees. If each thread alone comes to an end (`Solo`), with as many waits as the others,
then under every interleaving all threads end as they would alone (`inevitable_of_solo`).

`Inevitable` is the total form of a statement on all runs: whatever steps are taken, the run does not
get stuck and does not go on for ever before it comes to a state of the kind in question.

`Gives` is `Solo` for a part of a program that has no wait and ends without an error. Programs are
proved with its rules, which follow the way that they are put together.
-/

namespace Fstest

/-! ## What every run comes to -/

/-- Whatever steps are taken from here, there is a next one until a state with `Q` is reached, and
one is reached. -/
inductive Inevitable {S A : Type} (step : S → A → Option S) (Q : S → Prop) : S → Prop
  | now {s : S} (h : Q s) : Inevitable step Q s
  | later {s : S} (hlive : ∃ a s', step s a = some s')
      (h : ∀ a s', step s a = some s' → Inevitable step Q s') : Inevitable step Q s

namespace Inevitable

variable {S A T B : Type} {step : S → A → Option S} {step' : T → B → Option T} {Q R : S → Prop}
  {s s' : S}

theorem trans (h : Inevitable step Q s) (hQ : ∀ s, Q s → Inevitable step R s) :
    Inevitable step R s := by
  induction h with
  | now h => exact hQ _ h
  | later hlive _ ih => exact .later hlive ih

/-- The only step there is. -/
theorem of_step {a : A} (hs : step s a = some s') (honly : ∀ b s'', step s b = some s'' → s'' = s')
    (h : Inevitable step Q s') : Inevitable step Q s :=
  .later ⟨a, s', hs⟩ fun b s'' hb => by
    rw [honly b s'' hb]
    exact h

theorem next {a : A} (h : Inevitable step Q s) (hQ : ¬ Q s) (hs : step s a = some s') :
    Inevitable step Q s' := by
  cases h with
  | now h => exact absurd h hQ
  | later _ h => exact h a s' hs

theorem of_stuck (h : Inevitable step Q s) (hstuck : ∀ a, step s a = none) : Q s := by
  cases h with
  | now h => exact h
  | later hlive _ =>
    obtain ⟨a, s', hs⟩ := hlive
    rw [hstuck a] at hs
    cases hs

/-- **Where an invariant holds, there is a next step, and each one makes `m` less.** -/
theorem of_invariant {I : S → Prop} {m : S → ℕ} (h : I s)
    (hlive : ∀ s, I s → ¬ Q s → ∃ a s', step s a = some s')
    (hstep : ∀ s a s', I s → step s a = some s' → I s' ∧ m s' < m s) : Inevitable step Q s := by
  induction hm : m s using Nat.strong_induction_on generalizing s with
  | _ k ih =>
    by_cases hQ : Q s
    · exact .now hQ
    · refine .later (hlive s h hQ) fun a s' hs => ?_
      obtain ⟨hI, hlt⟩ := hstep s a s' h hs
      exact ih (m s') (hm ▸ hlt) hI rfl

/-- A system that runs inside another one. As long as it can go on, the other one takes its steps. -/
theorem lift {R : T → Prop} {f : S → T} (h : Inevitable step Q s)
    (hQ : ∀ s, Q s → Inevitable step' R (f s))
    (hlive : ∀ s a s', step s a = some s' → ∃ b, step' (f s) b = some (f s'))
    (hback : ∀ s a s' b t, step s a = some s' → step' (f s) b = some t →
      ∃ a s', step s a = some s' ∧ t = f s') : Inevitable step' R (f s) := by
  induction h with
  | now h => exact hQ _ h
  | @later s hstep _ ih =>
    obtain ⟨a, s', hs⟩ := hstep
    obtain ⟨b, hb⟩ := hlive s a s' hs
    refine .later ⟨b, _, hb⟩ fun b t hb => ?_
    obtain ⟨a', s'', hs', rfl⟩ := hback s a s' b t hs hb
    exact ih a' s'' hs'

end Inevitable

/-! ## Programs -/

/-- A program that makes calls, waits at a barrier, and returns a `β`. -/
inductive Prog (C ρ β : Type) where
  | done (b : β)
  | call (c : C) (k : ρ → Prog C ρ β)
  | wait (k : Prog C ρ β)

namespace Prog

variable {C ρ β γ σ : Type}

def bind : Prog C ρ β → (β → Prog C ρ γ) → Prog C ρ γ
  | done b, f => f b
  | call c k, f => call c fun r => (k r).bind f
  | wait k, f => wait (k.bind f)

instance : Monad (Prog C ρ) where
  pure := done
  bind := bind

/-- One call, with its reply. -/
def ask (c : C) : Prog C ρ ρ := call c done

/-- A wait at the barrier. -/
def pause : Prog C ρ Unit := wait (done ())

def result? : Prog C ρ β → Option β
  | done b => some b
  | _ => none

def isWait : Prog C ρ β → Bool
  | wait _ => true
  | _ => false

/-- What comes after the wait. -/
def past : Prog C ρ β → Prog C ρ β
  | wait k => k
  | p => p

/-- The program with no other thread; a wait of one thread is none. -/
def exec (eff : C → σ → ρ × σ) : Prog C ρ β → σ → β × σ
  | done b, m => (b, m)
  | call c k, m => exec eff (k (eff c m).1) (eff c m).2
  | wait k, m => exec eff k m

theorem exec_bind (eff : C → σ → ρ × σ) (p : Prog C ρ β) (f : β → Prog C ρ γ) (m : σ) :
    (p >>= f).exec eff m = (f (p.exec eff m).1).exec eff (p.exec eff m).2 := by
  induction p generalizing m with
  | done b => rfl
  | call c k ih => exact ih _ _
  | wait k ih => exact ih _

theorem exec_lift {ε : Type} (eff : C → σ → ρ × σ) (p : Prog C ρ β) (m : σ) :
    (ExceptT.lift p : ExceptT ε (Prog C ρ) β).run.exec eff m = (.ok (p.exec eff m).1, (p.exec eff m).2) :=
  exec_bind eff p (fun b => .done (Except.ok b)) m

/-- A part that ends without an error, and what comes after it. -/
theorem exec_run_bind {eff : C → σ → ρ × σ} {ε α : Type} {x : ExceptT ε (Prog C ρ) α} {m m' : σ} {a : α}
    (h : x.run.exec eff m = (.ok a, m')) (f : α → ExceptT ε (Prog C ρ) γ) :
    (x >>= f).run.exec eff m = (f a).run.exec eff m' := by
  have hbind := exec_bind eff x.run (ExceptT.bindCont f) m
  rw [h] at hbind
  exact hbind

/-- Where a sequence ends without an error, so do both of its parts. -/
theorem exec_bind_ok {eff : C → σ → ρ × σ} {ε α : Type} {x : ExceptT ε (Prog C ρ) α}
    {f : α → ExceptT ε (Prog C ρ) γ} {m m'' : σ} {b : γ}
    (h : (x >>= f).run.exec eff m = (.ok b, m'')) :
    ∃ a m', x.run.exec eff m = (.ok a, m') ∧ (f a).run.exec eff m' = (.ok b, m'') := by
  have hbind := exec_bind eff x.run (ExceptT.bindCont f) m
  rw [show (x.run >>= ExceptT.bindCont f).exec eff m = (.ok b, m'') from h] at hbind
  cases hx : x.run.exec eff m with
  | mk r m' =>
    rw [hx] at hbind
    cases r with
    | error e => cases hbind
    | ok a => exact ⟨a, m', rfl, hbind.symm⟩

/-- A loop that ends without an error, of rounds that change nothing. -/
theorem exec_forM_ok {eff : C → σ → ρ × σ} {ε α : Type} {f : α → ExceptT ε (Prog C ρ) Unit}
    (hkeep : ∀ a m m', (f a).run.exec eff m = (.ok (), m') → m' = m) {l : List α} {m m' : σ}
    (h : (l.forM f).run.exec eff m = (.ok (), m')) : ∀ a ∈ l, (f a).run.exec eff m = (.ok (), m) := by
  induction l generalizing m with
  | nil => exact fun a ha => absurd ha List.not_mem_nil
  | cons a l ih =>
    obtain ⟨⟨⟩, m₁, hfirst, hrest⟩ := exec_bind_ok h
    obtain rfl := hkeep a m m₁ hfirst
    exact List.forall_mem_cons.mpr ⟨hfirst, ih hrest⟩

/-- The calls with a record of them and their replies. -/
def logged (eff : C → σ → ρ × σ) (c : C) (m : σ × List (C × ρ)) : ρ × (σ × List (C × ρ)) :=
  ((eff c m.1).1, ((eff c m.1).2, m.2 ++ [(c, (eff c m.1).1)]))

end Prog

namespace Threads

variable {ι C ρ β γ ε σ : Type}

structure State (ι C ρ β σ : Type) where
  progs : ι → Prog C ρ β
  mem : σ

section

variable (eff : C → σ → ρ × σ)

/-- A call of one thread (`some t`), or the release of all threads once all wait. -/
def step [Fintype ι] [DecidableEq ι] (s : State ι C ρ β σ) : Option ι → Option (State ι C ρ β σ)
  | some t =>
    match s.progs t with
    | .call c k => some ⟨Function.update s.progs t (k (eff c s.mem).1), (eff c s.mem).2⟩
    | _ => none
  | none =>
    if ∀ t, (s.progs t).isWait then some ⟨fun t => (s.progs t).past, s.mem⟩ else none

/-- Alone, with calls that are its own ones, the program returns `b` after `n` steps, `w` of which
are waits. -/
inductive Solo (own : C → Prop) : Prog C ρ β → σ → (n w : ℕ) → β → σ → Prop
  | done {b : β} {m : σ} : Solo own (.done b) m 0 0 b m
  | call {c : C} {k : ρ → Prog C ρ β} {m m' : σ} {n w : ℕ} {b : β} (hc : own c)
    (h : Solo own (k (eff c m).1) (eff c m).2 n w b m') : Solo own (.call c k) m (n + 1) w b m'
  | wait {k : Prog C ρ β} {m m' : σ} {n w : ℕ} {b : β} (h : Solo own k m n w b m') :
    Solo own (.wait k) m (n + 1) (w + 1) b m'

/-- `E t` is that two memories look the same to thread `t`. -/
structure Independent (E : ι → σ → σ → Prop) (own : ι → C → Prop) : Prop where
  equivalence : ∀ t, Equivalence (E t)
  same : ∀ t c m m', own t c → E t m m' → (eff c m).1 = (eff c m').1 ∧ E t (eff c m).2 (eff c m').2
  other : ∀ t u c m, own u c → u ≠ t → E t (eff c m).2 m

end

/-! ## Lone runs -/

section

variable {eff : C → σ → ρ × σ} {own : C → Prop} {p q : Prog C ρ β} {m m' m'' : σ} {n n' w w' : ℕ}
  {b : β}

theorem Solo.bind {f : β → Prog C ρ γ} {b' : γ} (h : Solo eff own p m n w b m')
    (h' : Solo eff own (f b) m' n' w' b' m'') :
    Solo eff own (p >>= f) m (n + n') (w + w') b' m'' := by
  induction h with
  | done => rwa [Nat.zero_add, Nat.zero_add]
  | call hc _ ih =>
    rw [Nat.succ_add]
    exact .call hc (ih h')
  | wait _ ih =>
    rw [Nat.succ_add, Nat.succ_add]
    exact .wait (ih h')

theorem Solo.exec (h : Solo eff own p m n w b m') : p.exec eff m = (b, m') := by
  induction h with
  | done => rfl
  | call _ _ ih => exact ih
  | wait _ ih => exact ih

theorem Solo.of_done {x : β} (h : Solo eff own (.done x) m n w b m') : n = 0 ∧ w = 0 ∧ x = b ∧ m = m' := by
  cases h
  exact ⟨rfl, rfl, rfl, rfl⟩

theorem Solo.of_call {c : C} {k : ρ → Prog C ρ β} (h : Solo eff own (.call c k) m n w b m') :
    ∃ n', n = n' + 1 ∧ own c ∧ Solo eff own (k (eff c m).1) (eff c m).2 n' w b m' := by
  cases h with
  | call hc h => exact ⟨_, rfl, hc, h⟩

theorem Solo.of_wait (h : Solo eff own p m n w b m') (hp : p.isWait = true) :
    ∃ n' w', n = n' + 1 ∧ w = w' + 1 ∧ Solo eff own p.past m n' w' b m' := by
  cases h with
  | done => cases hp
  | call => cases hp
  | wait h => exact ⟨_, _, rfl, rfl, h⟩

end

/-! ## Parts of programs -/

section

variable {α : Type} {eff : C → σ → ρ × σ} {own : C → Prop} {x : ExceptT ε (Prog C ρ) α} {m m' m'' : σ}
  {a : α}

/-- Alone, the part comes to an end with `a`, without an error and without a wait. -/
def Gives (eff : C → σ → ρ × σ) (own : C → Prop) (x : ExceptT ε (Prog C ρ) α) (m : σ) (a : α) (m' : σ) :
    Prop :=
  ∃ n, Solo eff own x.run m n 0 (.ok a) m'

theorem Gives.pure : Gives eff own (Pure.pure a : ExceptT ε (Prog C ρ) α) m a m := ⟨0, .done⟩

theorem Gives.ask {c : C} (hc : own c) :
    Gives eff own (ExceptT.lift (Prog.ask c) : ExceptT ε (Prog C ρ) ρ) m (eff c m).1 (eff c m).2 :=
  ⟨1, .call hc .done⟩

theorem Gives.bind {f : α → ExceptT ε (Prog C ρ) γ} {b : γ} (h : Gives eff own x m a m')
    (h' : Gives eff own (f a) m' b m'') : Gives eff own (x >>= f) m b m'' := by
  obtain ⟨n, hn⟩ := h
  obtain ⟨n', hn'⟩ := h'
  have hboth := hn.bind (f := ExceptT.bindCont f) hn'
  exact ⟨n + n', hboth⟩

/-- A loop over a list, each round of which takes `I` from the list to its rest. -/
theorem Gives.forM {I : List γ → σ → Prop} {f : γ → ExceptT ε (Prog C ρ) Unit} {l : List γ}
    (hstep : ∀ c rest m, I (c :: rest) m → ∃ m', Gives eff own (f c) m () m' ∧ I rest m') (h : I l m) :
    ∃ m', Gives eff own (l.forM f) m () m' ∧ I [] m' := by
  induction l generalizing m with
  | nil => exact ⟨m, Gives.pure, h⟩
  | cons c rest ih =>
    obtain ⟨m₁, h₁, hI⟩ := hstep c rest m h
    obtain ⟨m₂, h₂, hnil⟩ := ih hI
    exact ⟨m₂, h₁.bind h₂, hnil⟩

theorem Gives.exec (h : Gives eff own x m a m') : x.run.exec eff m = (.ok a, m') := by
  obtain ⟨n, hn⟩ := h
  exact hn.exec

/-- A first part, a wait, and a second part. -/
theorem Gives.around_wait {y : ExceptT ε (Prog C ρ) γ} {b : γ} (h : Gives eff own x m a m')
    (h' : Gives eff own y m' b m'') :
    ∃ n, Solo eff own (do let _ ← x; ExceptT.lift Prog.pause; y).run m n 1 (.ok b) m'' := by
  obtain ⟨n, hn⟩ := h
  obtain ⟨n', hn'⟩ := h'
  have hall := hn.bind (f := ExceptT.bindCont fun _ => do ExceptT.lift Prog.pause; y) (.wait hn')
  exact ⟨n + (n' + 1), hall⟩

end

/-! ## Interleavings -/

section

variable [Fintype ι] [DecidableEq ι] {eff : C → σ → ρ × σ} {E : ι → σ → σ → Prop}
  {own : ι → C → Prop} {b : ι → β} {m : ι → σ} {s s' : State ι C ρ β σ} {steps : ℕ}

/-- Each thread has gone a part of its lone run, and sees the memory as it would there. All have the
same number of waits before them, and together no more than `steps` steps. -/
def Coupled (eff : C → σ → ρ × σ) (E : ι → σ → σ → Prop) (own : ι → C → Prop) (b : ι → β) (m : ι → σ)
    (steps : ℕ) (s : State ι C ρ β σ) : Prop :=
  ∃ (n : ι → ℕ) (w : ℕ) (m' : ι → σ),
    (∀ t, Solo eff (own t) (s.progs t) (m' t) (n t) w (b t) (m t) ∧ E t (m' t) s.mem) ∧
      ∑ t, n t ≤ steps

/-- **Every step keeps the threads on their lone runs**, and what the calls of all threads keep. -/
theorem Coupled.step [Nonempty ι] (hI : Independent eff E own) {J : σ → Prop}
    (hJ : ∀ t c m, own t c → J m → J (eff c m).2) {a : Option ι} (h : Coupled eff E own b m steps s)
    (hj : J s.mem) (hs : Threads.step eff s a = some s') :
    0 < steps ∧ Coupled eff E own b m (steps - 1) s' ∧ J s'.mem := by
  obtain ⟨n, w, m', hall, hsum⟩ := h
  cases a with
  | some t =>
    rw [Threads.step] at hs
    split at hs
    · rename_i c k hp
      cases hs
      obtain ⟨hsolo, hE⟩ := hall t
      rw [hp] at hsolo
      obtain ⟨n', hn, hc, hrest⟩ := hsolo.of_call
      obtain ⟨hreply, hmem⟩ := hI.same t c _ _ hc hE
      have hlen : ∑ u, Function.update n t n' u + 1 = ∑ u, n u := by
        have hold := Finset.sum_update_of_mem (Finset.mem_univ t) n (n' + 1)
        rw [← hn, Function.update_eq_self] at hold
        have hnew := Finset.sum_update_of_mem (Finset.mem_univ t) n n'
        omega
      refine ⟨by omega, ⟨Function.update n t n', w, Function.update m' t (eff c (m' t)).2, fun u => ?_,
        by omega⟩, hJ t c _ hc hj⟩
      by_cases hu : u = t
      · subst hu
        simp only [Function.update_self]
        exact ⟨hreply ▸ hrest, hmem⟩
      · simp only [Function.update_of_ne hu]
        have hkeep := (hI.equivalence u).symm (hI.other u t c s.mem hc fun heq => hu heq.symm)
        exact ⟨(hall u).1, (hI.equivalence u).trans (hall u).2 hkeep⟩
    · cases hs
  | none =>
    rw [Threads.step] at hs
    split at hs
    · rename_i hwait
      cases hs
      have hone : ∀ t, ∃ n' w', n t = n' + 1 ∧ w = w' + 1 ∧
          Solo eff (own t) (s.progs t).past (m' t) n' w' (b t) (m t) := fun t =>
        (hall t).1.of_wait (hwait t)
      choose n' w' hn hw hsolo using hone
      have hlen : ∑ t, n t = ∑ t, n' t + Fintype.card ι := by
        simp only [hn, Finset.sum_add_distrib, ← Finset.card_eq_sum_ones, Finset.card_univ]
      have hcard : 0 < Fintype.card ι := Fintype.card_pos
      refine ⟨by omega, ⟨n', w - 1, m', fun t => ⟨?_, (hall t).2⟩, by omega⟩, hj⟩
      have hw' : w' t = w - 1 := by
        have := hw t
        omega
      exact hw' ▸ hsolo t
    · cases hs

/-- **Not all threads wait for ever.** -/
theorem Coupled.progress (h : Coupled eff E own b m steps s)
    (hlive : ∃ t, (s.progs t).result? = none) : ∃ a s', Threads.step eff s a = some s' := by
  obtain ⟨n, w, m', hall, -⟩ := h
  by_cases hcall : ∃ t c k, s.progs t = .call c k
  · obtain ⟨t, c, k, hp⟩ := hcall
    exact ⟨some t, _, by rw [Threads.step, hp]⟩
  · -- A thread that waits has a wait before it, so all have, and none is done.
    have hw : 0 < w := by
      obtain ⟨t, ht⟩ := hlive
      cases hp : s.progs t with
      | done => rw [hp] at ht; cases ht
      | call c k => exact absurd ⟨t, c, k, hp⟩ hcall
      | wait k =>
        obtain ⟨_, w', -, hw, -⟩ := (hall t).1.of_wait (by rw [hp]; rfl)
        omega
    refine ⟨none, _, if_pos fun t => ?_⟩
    cases hp : s.progs t with
    | wait k => rfl
    | call c k => exact absurd ⟨t, c, k, hp⟩ hcall
    | done x =>
      have hsolo := (hall t).1
      rw [hp] at hsolo
      have := hsolo.of_done
      omega

omit [DecidableEq ι] in
/-- **A thread that is done has ended as it would alone.** -/
theorem Coupled.finished (h : Coupled eff E own b m steps s) {t : ι} {x : β}
    (hp : (s.progs t).result? = some x) : x = b t ∧ E t (m t) s.mem := by
  obtain ⟨n, w, m', hall, -⟩ := h
  obtain ⟨hsolo, hE⟩ := hall t
  cases hq : s.progs t with
  | done y =>
    rw [hq] at hsolo hp
    obtain ⟨-, -, rfl, hm⟩ := hsolo.of_done
    exact ⟨(Option.some.inj hp).symm, hm ▸ hE⟩
  | call c k => rw [hq] at hp; cases hp
  | wait k => rw [hq] at hp; cases hp

/-- All threads have ended as they would alone. -/
def Ended (E : ι → σ → σ → Prop) (b : ι → β) (m : ι → σ) (J : σ → Prop) (s : State ι C ρ β σ) : Prop :=
  (∀ t, (s.progs t).result? = some (b t) ∧ E t (m t) s.mem) ∧ J s.mem

omit [DecidableEq ι] in
theorem Coupled.ended {J : σ → Prop} (h : Coupled eff E own b m steps s) (hj : J s.mem)
    (hall : ¬ ∃ t, (s.progs t).result? = none) : Ended E b m J s := by
  refine ⟨fun t => ?_, hj⟩
  obtain ⟨x, hx⟩ := Option.ne_none_iff_exists'.mp (not_exists.mp hall t)
  obtain ⟨rfl, hE⟩ := h.finished hx
  exact ⟨hx, hE⟩

theorem Coupled.inevitable [Nonempty ι] (hI : Independent eff E own) {J : σ → Prop}
    (hJ : ∀ t c m, own t c → J m → J (eff c m).2) (h : Coupled eff E own b m steps s) (hj : J s.mem) :
    Inevitable (Threads.step eff) (Ended E b m J) s := by
  induction steps generalizing s with
  | zero =>
    by_cases hlive : ∃ t, (s.progs t).result? = none
    · obtain ⟨a, s', hs⟩ := h.progress hlive
      exact absurd (h.step hI hJ hj hs).1 (Nat.lt_irrefl 0)
    · exact .now (h.ended hj hlive)
  | succ steps ih =>
    by_cases hlive : ∃ t, (s.progs t).result? = none
    · refine .later (h.progress hlive) fun a s' hs => ?_
      obtain ⟨-, hnext, hj'⟩ := h.step hI hJ hj hs
      exact ih hnext hj'
    · exact .now (h.ended hj hlive)

/-- **Under every interleaving all threads end as they would alone.** -/
theorem inevitable_of_solo [Nonempty ι] (hI : Independent eff E own) {J : σ → Prop}
    (hJ : ∀ t c m, own t c → J m → J (eff c m).2) {progs : ι → Prog C ρ β} {m₀ : σ} {w : ℕ}
    (hsolo : ∀ t, ∃ n, Solo eff (own t) (progs t) m₀ n w (b t) (m t)) (hj : J m₀) :
    Inevitable (Threads.step eff) (Ended E b m J) ⟨progs, m₀⟩ := by
  choose n hn using hsolo
  have h : Coupled eff E own b m (∑ t, n t) ⟨progs, m₀⟩ :=
    ⟨n, w, fun _ => m₀, fun t => ⟨hn t, (hI.equivalence t).refl _⟩, Nat.le_refl _⟩
  exact h.inevitable hI hJ hj

end

end Threads

end Fstest
