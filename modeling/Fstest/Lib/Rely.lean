import Fstest.Lib.Threads
import Mathlib.Logic.Relation

/-!
# Threads that rely on each other

Threads that work in one place are not independent, but each may rely on the calls of the others: all
of them are safe ones, and safe calls keep an invariant `J`. What a thread knows is `Stable` if safe
calls keep it as well. `Ensures Q K p` says that the program `p` makes safe calls only, and that a
thread that knows `K` when it starts has `Q` when it ends, whatever the others do meanwhile; all that
it learns on the way is stable.

`Knowing` is the invariant of the runs of such threads (`Knowing.run`). `Knows` is `Ensures` for a part
of a program that may fail, with nothing to show if it does, and programs are proved with its rules.
-/

namespace Fstest.Threads

variable {ι C ρ β γ ε σ α : Type}

section

variable (eff : C → σ → ρ × σ) (safe : C → Prop) (J : σ → Prop)

/-- What holds stays, whatever safe calls are made. -/
def Stable (K : σ → Prop) : Prop := ∀ c m, safe c → J m → K m → K (eff c m).2

inductive Ensures (Q : β → σ → Prop) : (σ → Prop) → Prog C ρ β → Prop
  | done {K : σ → Prop} {b : β} (h : ∀ m, J m → K m → Q b m) : Ensures Q K (.done b)
  | call {K : σ → Prop} {c : C} {k : ρ → Prog C ρ β} (K' : ρ → σ → Prop) (hc : safe c)
    (hstable : ∀ r, Stable eff safe J (K' r)) (hnext : ∀ m, J m → K m → K' (eff c m).1 (eff c m).2)
    (h : ∀ r, Ensures Q (K' r) (k r)) : Ensures Q K (.call c k)
  | wait {K : σ → Prop} {k : Prog C ρ β} (h : Ensures Q K k) : Ensures Q K (.wait k)

/-- What a part of a program has when it ends without an error. -/
def Knows (K : σ → Prop) (x : ExceptT ε (Prog C ρ) α) (Q : α → σ → Prop) : Prop :=
  Ensures eff safe J (fun r m => ∀ a, r = .ok a → Q a m) K x.run

/-- The invariant holds, and each thread has what it knows, and ensures `Q` from there on. -/
structure Knowing (Q : ι → β → σ → Prop) (s : State ι C ρ β σ) : Prop where
  inv : J s.mem
  thread : ∀ t, ∃ K, Stable eff safe J K ∧ K s.mem ∧ Ensures eff safe J (Q t) K (s.progs t)

/-- The threads come from one state to the other. -/
def Reaches [Fintype ι] [DecidableEq ι] : State ι C ρ β σ → State ι C ρ β σ → Prop :=
  Relation.ReflTransGen fun s s' => ∃ a, step eff s a = some s'

end

variable {eff : C → σ → ρ × σ} {safe : C → Prop} {J : σ → Prop}

/-! ## Rules -/

section

variable {K K' : σ → Prop} {Q : β → σ → Prop} {p : Prog C ρ β}

theorem Ensures.weaken (h : Ensures eff safe J Q K p) (hK : ∀ m, J m → K' m → K m) :
    Ensures eff safe J Q K' p := by
  induction h generalizing K' with
  | done h => exact .done fun m hj hk => h m hj (hK m hj hk)
  | call K₁ hc hstable hnext h => exact .call K₁ hc hstable (fun m hj hk => hnext m hj (hK m hj hk)) h
  | wait _ ih => exact .wait (ih hK)

theorem Ensures.bind {f : β → Prog C ρ γ} {R : γ → σ → Prop} (h : Ensures eff safe J Q K p)
    (hf : ∀ b, Ensures eff safe J R (Q b) (f b)) : Ensures eff safe J R K (p >>= f) := by
  induction h with
  | done h => exact (hf _).weaken h
  | call K' hc hstable hnext _ ih => exact .call K' hc hstable hnext ih
  | wait _ ih => exact .wait ih

theorem Ensures.past (h : Ensures eff safe J Q K p) : Ensures eff safe J Q K p.past := by
  cases h with
  | done h => exact .done h
  | call K' hc hstable hnext h => exact .call K' hc hstable hnext h
  | wait h => exact h

/-- A program without other threads. -/
theorem Ensures.exec (hJ : Stable eff safe J J) (h : Ensures eff safe J Q K p) {m : σ} (hj : J m)
    (hk : K m) : J (p.exec eff m).2 ∧ Q (p.exec eff m).1 (p.exec eff m).2 := by
  induction h generalizing m with
  | done h => exact ⟨hj, h m hj hk⟩
  | call K' hc hstable hnext _ ih => exact ih _ (hJ _ m hc hj hj) (hnext m hj hk)
  | wait _ ih => exact ih hj hk

end

section

variable {K : σ → Prop} {x : ExceptT ε (Prog C ρ) α} {Q : α → σ → Prop}

theorem Knows.pure {a : α} (h : ∀ m, J m → K m → Q a m) :
    Knows eff safe J K (Pure.pure a : ExceptT ε (Prog C ρ) α) Q := by
  refine Ensures.done fun m hj hk b hb => ?_
  cases hb
  exact h m hj hk

theorem Knows.throw {e : ε} : Knows eff safe J K (throw e : ExceptT ε (Prog C ρ) α) Q :=
  Ensures.done fun _ _ _ _ hb => nomatch hb

theorem Knows.bind {f : α → ExceptT ε (Prog C ρ) γ} {R : γ → σ → Prop} (h : Knows eff safe J K x Q)
    (hf : ∀ a, Knows eff safe J (Q a) (f a) R) : Knows eff safe J K (x >>= f) R := by
  refine Ensures.bind (f := ExceptT.bindCont f) h fun r => ?_
  cases r with
  | ok a => exact (hf a).weaken fun m _ hk => hk a rfl
  | error e => exact .done fun _ _ _ _ hb => nomatch hb

theorem Knows.ask {c : C} {Q : ρ → σ → Prop} (hc : safe c) (hstable : ∀ r, Stable eff safe J (Q r))
    (hnext : ∀ m, J m → K m → Q (eff c m).1 (eff c m).2) :
    Knows eff safe J K (ExceptT.lift (Prog.ask c) : ExceptT ε (Prog C ρ) ρ) Q := by
  refine Ensures.call Q hc hstable hnext fun r => .done fun m _ hk b hb => ?_
  cases hb
  exact hk

theorem Knows.pause : Knows eff safe J K (ExceptT.lift Prog.pause : ExceptT ε (Prog C ρ) Unit) fun _ => K :=
  Ensures.wait (.done fun _ _ hk _ _ => hk)

/-- What is stable is known after any call. -/
theorem Knows.ask_keep {c : C} (hc : safe c) (hstable : Stable eff safe J K) :
    Knows eff safe J K (ExceptT.lift (Prog.ask c) : ExceptT ε (Prog C ρ) ρ) fun _ => K :=
  .ask hc (fun _ => hstable) fun m hj hk => hstable c m hc hj hk

/-- A loop over a list, each round of which keeps what is known. -/
theorem Knows.forM {f : α → ExceptT ε (Prog C ρ) Unit} {l : List α}
    (hstep : ∀ a ∈ l, Knows eff safe J K (f a) fun _ => K) : Knows eff safe J K (l.forM f) fun _ => K := by
  induction l with
  | nil => exact .pure fun _ _ hk => hk
  | cons a rest ih =>
    exact (hstep a List.mem_cons_self).bind fun _ => ih fun b hb => hstep b (List.mem_cons_of_mem a hb)

/-- A loop over a range of numbers, each round of which goes from `I k` to `I (k + 1)`. -/
theorem Knows.range {I : ℕ → σ → Prop} {f : ℕ → ExceptT ε (Prog C ρ) Unit} {n : ℕ}
    (hstep : ∀ k, k < n → Knows eff safe J (I k) (f (k + 1)) fun _ => I (k + 1)) {k left : ℕ}
    (hn : k + left = n) : Knows eff safe J (I k) ((List.range' (k + 1) left).forM f) fun _ => I n := by
  induction left generalizing k with
  | zero => exact .pure fun _ _ hk => hn ▸ hk
  | succ left ih => exact (hstep k (by omega)).bind fun _ => ih (by omega)

end

/-! ## Runs -/

section

variable [Fintype ι] [DecidableEq ι] {Q : ι → β → σ → Prop} {s s' : State ι C ρ β σ}

/-- **A step of one thread keeps what all threads know.** -/
theorem Knowing.step (hJ : Stable eff safe J J) (h : Knowing eff safe J Q s) {a : Option ι}
    (hs : Threads.step eff s a = some s') : Knowing eff safe J Q s' := by
  cases a with
  | some t =>
    rw [Threads.step] at hs
    split at hs
    · rename_i c k hp
      cases hs
      obtain ⟨K, hK, hk, hens⟩ := h.thread t
      rw [hp] at hens
      cases hens with
      | call K' hc hstable hnext hrest =>
        refine ⟨hJ c _ hc h.inv h.inv, fun u => ?_⟩
        by_cases hu : u = t
        · subst hu
          refine ⟨K' (eff c s.mem).1, hstable _, hnext _ h.inv hk, ?_⟩
          simp only [Function.update_self]
          exact hrest _
        · obtain ⟨K₁, hK₁, hk₁, hens₁⟩ := h.thread u
          refine ⟨K₁, hK₁, hK₁ c _ hc h.inv hk₁, ?_⟩
          simp only [Function.update_of_ne hu]
          exact hens₁
    · cases hs
  | none =>
    rw [Threads.step] at hs
    split at hs
    · cases hs
      refine ⟨h.inv, fun u => ?_⟩
      obtain ⟨K, hK, hk, hens⟩ := h.thread u
      exact ⟨K, hK, hk, hens.past⟩
    · cases hs

/-- **What all threads know holds in every run.** -/
theorem Knowing.run (hJ : Stable eff safe J J) (h : Knowing eff safe J Q s) (hr : Reaches eff s s') :
    Knowing eff safe J Q s' := by
  induction hr with
  | refl => exact h
  | tail _ hs ih =>
    obtain ⟨a, ha⟩ := hs
    exact ih.step hJ ha

omit [Fintype ι] [DecidableEq ι] in
theorem Knowing.finished (h : Knowing eff safe J Q s) {t : ι} {b : β}
    (hp : (s.progs t).result? = some b) : Q t b s.mem := by
  obtain ⟨K, -, hk, hens⟩ := h.thread t
  cases hq : s.progs t with
  | done x =>
    rw [hq] at hens hp
    cases hens with
    | done hres => exact Option.some.inj hp ▸ hres _ h.inv hk
  | call c k => rw [hq] at hp; cases hp
  | wait k => rw [hq] at hp; cases hp

/-- What every run comes to, some run does. -/
theorem reaches_of_inevitable {R : State ι C ρ β σ → Prop} (h : Inevitable (Threads.step eff) R s) :
    ∃ s', Reaches eff s s' ∧ R s' := by
  induction h with
  | now h => exact ⟨_, .refl, h⟩
  | later hlive _ ih =>
    obtain ⟨a, s₁, hs⟩ := hlive
    obtain ⟨s', hr, h'⟩ := ih a s₁ hs
    exact ⟨s', .head ⟨a, hs⟩ hr, h'⟩

end

end Fstest.Threads
