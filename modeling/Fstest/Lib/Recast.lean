import Fstest.Lib.Debts

/-!
# Calls of a larger kind

A program can be taken as one whose calls are of a larger kind (`recast`). On a memory that treats these
calls as the other one treats the calls of the program, the threads do the same (`reaches_recast`).
-/

namespace Fstest.Threads

variable {ι C C' ρ β γ ε σ σ' α : Type} {f : C → C'}

def recast (f : C → C') : Prog C ρ β → Prog C' ρ β
  | .done b => .done b
  | .call c k => .call (f c) fun r => recast f (k r)
  | .wait k => .wait (recast f k)

/-- The part of a program that may fail, with the calls of the larger kind. -/
def recastX (f : C → C') (x : ExceptT ε (Prog C ρ) α) : ExceptT ε (Prog C' ρ) α := recast f x.run

theorem Only.recast {P : C' → Prop} {p : Prog C ρ β} (h : Only (fun c => P (f c)) p) :
    Only P (recast f p) := by
  induction p with
  | done b => trivial
  | call c k ih => exact ⟨h.1, fun r => ih r (h.2 r)⟩
  | wait k ih => exact ih h

theorem OnlyX.recast {P : C' → Prop} {x : ExceptT ε (Prog C ρ) α} (h : OnlyX (fun c => P (f c)) x) :
    OnlyX P (recastX f x) :=
  Only.recast h

theorem recast_bind (p : Prog C ρ β) (g : β → Prog C ρ γ) :
    recast f (p >>= g) = recast f p >>= fun b => recast f (g b) := by
  induction p with
  | done b => rfl
  | call c k ih => exact congrArg (Prog.call (f c)) (funext ih)
  | wait k ih => exact congrArg Prog.wait ih

theorem recastX_bind (x : ExceptT ε (Prog C ρ) α) (g : α → ExceptT ε (Prog C ρ) γ) :
    recastX f (x >>= g) = recastX f x >>= fun a => recastX f (g a) := by
  refine (recast_bind x.run (ExceptT.bindCont g)).trans (congrArg _ (funext fun r => ?_))
  cases r with
  | ok a => rfl
  | error e => rfl

/-! ## Runs -/

section

variable {eff : C → σ → ρ × σ} {eff' : C' → σ' → ρ × σ'} {u : σ → σ'}

theorem exec_recast (h : ∀ c m, eff' (f c) (u m) = ((eff c m).1, u (eff c m).2)) (p : Prog C ρ β) (m : σ) :
    (recast f p).exec eff' (u m) = ((p.exec eff m).1, u (p.exec eff m).2) := by
  induction p generalizing m with
  | done b => rfl
  | call c k ih =>
    rw [recast, Prog.exec, h]
    exact ih _ _
  | wait k ih => exact ih m

variable [Fintype ι] [DecidableEq ι] {s s' : State ι C ρ β σ}

variable (f u) in
def recastState (s : State ι C ρ β σ) : State ι C' ρ β σ' := ⟨fun i => recast f (s.progs i), u s.mem⟩

theorem isWait_recast (p : Prog C ρ β) : (recast f p).isWait = p.isWait := by cases p <;> rfl

theorem past_recast (p : Prog C ρ β) : (recast f p).past = recast f p.past := by cases p <;> rfl

theorem step_recast (h : ∀ c m, eff' (f c) (u m) = ((eff c m).1, u (eff c m).2)) {a : Option ι}
    (hs : Threads.step eff s a = some s') :
    Threads.step eff' (recastState f u s) a = some (recastState f u s') := by
  cases a with
  | some t =>
    rw [Threads.step] at hs
    split at hs
    · rename_i c k hp
      cases hs
      rw [Threads.step]
      simp only [recastState, hp, recast, h]
      refine congrArg some (congrArg (State.mk · _) (funext fun u => ?_))
      by_cases hu : u = t
      · subst hu
        simp only [Function.update_self]
      · simp only [Function.update_of_ne hu]
    · cases hs
  | none =>
    rw [Threads.step] at hs
    split at hs
    · rename_i hwait
      cases hs
      have hwait' : ∀ t, ((recastState f u s).progs t).isWait := fun t =>
        (isWait_recast (s.progs t)).trans (hwait t)
      rw [Threads.step, if_pos hwait']
      exact congrArg some (congrArg (State.mk · _) (funext fun t => past_recast (s.progs t)))
    · cases hs

/-- **The threads do the same** with the calls of the larger kind. -/
theorem reaches_recast (h : ∀ c m, eff' (f c) (u m) = ((eff c m).1, u (eff c m).2))
    (hr : Reaches eff s s') : Reaches eff' (recastState f u s) (recastState f u s') := by
  induction hr with
  | refl => exact .refl
  | tail _ hs ih =>
    obtain ⟨a, ha⟩ := hs
    exact ih.tail ⟨a, step_recast h ha⟩

end

end Fstest.Threads
