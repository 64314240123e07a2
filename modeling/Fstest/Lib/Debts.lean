import Fstest.Lib.Rely

/-!
# Debts of threads

Threads that share a memory may spoil something for a while. A call that `spoils` it leaves a debt with its
thread, which has to make a call that `settles` it later on, unless the thread ends with a result for which
it is excused. Whatever the threads do meanwhile, either all is well or some thread still owes
(`Solvent.run`), so all is well when the threads have ended without an excuse (`Solvent.settled`).

`Careful` is what is asked of each program: it makes safe calls only, and owes after each call that spoils.
`OnlyX`, `PaysX` and `CarefulX` are about a part of a program that may fail, with an error as an excuse, and
programs are proved with their rules.
-/

namespace Fstest.Threads

variable {ι C ρ β γ ε σ α : Type}

section

/-- All calls of the program are `P`. -/
def Only (P : C → Prop) : Prog C ρ β → Prop
  | .done _ => True
  | .call c k => P c ∧ ∀ r, Only P (k r)
  | .wait k => Only P k

def OnlyX (P : C → Prop) (x : ExceptT ε (Prog C ρ) α) : Prop := Only P x.run

variable (settles : C → ρ → Prop)

/-- Each way through the program makes a call that settles, or ends with an excuse. -/
def Pays (excused : β → Prop) : Prog C ρ β → Prop
  | .done b => excused b
  | .call c k => ∀ r, ¬ settles c r → Pays excused (k r)
  | .wait k => Pays excused k

variable (safe spoils : C → Prop)

def Careful (excused : β → Prop) : Prog C ρ β → Prop
  | .done _ => True
  | .call c k => safe c ∧ ∀ r, (spoils c → Pays settles excused (k r)) ∧ Careful excused (k r)
  | .wait k => Careful excused k

/-- The part settles, or what comes after it with its result does. -/
def PaysX (R : α → Prop) (x : ExceptT ε (Prog C ρ) α) : Prop :=
  Pays settles (fun r => ∀ a, r = .ok a → R a) x.run

def CarefulX (R : α → Prop) (x : ExceptT ε (Prog C ρ) α) : Prop :=
  Careful settles safe spoils (fun r => ∀ a, r = .ok a → R a) x.run

/-- What the calls do to `G`, which the threads spoil, and to `J`, which they keep. -/
structure Settling (eff : C → σ → ρ × σ) (J G : σ → Prop) : Prop where
  inv : ∀ c m, safe c → J m → J (eff c m).2
  keeps : ∀ c m, safe c → ¬ spoils c → J m → G m → G (eff c m).2
  settled : ∀ c m, safe c → J m → settles c (eff c m).1 → G (eff c m).2

/-- All is well, or some thread owes. -/
structure Solvent (excused : ι → β → Prop) (J G : σ → Prop) (s : State ι C ρ β σ) : Prop where
  inv : J s.mem
  careful : ∀ t, Careful settles safe spoils (excused t) (s.progs t)
  owed : G s.mem ∨ ∃ t, Pays settles (excused t) (s.progs t)

end

variable {settles : C → ρ → Prop} {safe spoils : C → Prop}

/-! ## Rules -/

section

variable {P P' : C → Prop} {E E' : β → Prop} {F : γ → Prop} {p : Prog C ρ β} {f : β → Prog C ρ γ}

theorem Only.imp (h : Only P p) (hP : ∀ c, P c → P' c) : Only P' p := by
  induction p with
  | done b => trivial
  | call c k ih => exact ⟨hP c h.1, fun r => ih r (h.2 r)⟩
  | wait k ih => exact ih h

theorem Only.bind (h : Only P p) (hf : ∀ b, Only P (f b)) : Only P (p >>= f) := by
  induction p with
  | done b => exact hf b
  | call c k ih => exact ⟨h.1, fun r => ih r (h.2 r)⟩
  | wait k ih => exact ih h

/-- Whatever the result is, it is an excuse. -/
theorem Pays.of_all (hE : ∀ b, E b) : Pays settles E p := by
  induction p with
  | done b => exact hE b
  | call c k ih => exact fun r _ => ih r
  | wait k ih => exact ih

theorem Pays.imp (h : Pays settles E p) (hE : ∀ b, E b → E' b) : Pays settles E' p := by
  induction p with
  | done b => exact hE b h
  | call c k ih => exact fun r hr => ih r (h r hr)
  | wait k ih => exact ih h

theorem Pays.bind (h : Pays settles E p) (hE : ∀ b, E b → Pays settles F (f b)) :
    Pays settles F (p >>= f) := by
  induction p with
  | done b => exact hE b h
  | call c k ih => exact fun r hr => ih r (h r hr)
  | wait k ih => exact ih h

theorem Careful.bind (h : Careful settles safe spoils E p) (hE : ∀ b, E b → Pays settles F (f b))
    (hf : ∀ b, Careful settles safe spoils F (f b)) : Careful settles safe spoils F (p >>= f) := by
  induction p with
  | done b => exact hf b
  | call c k ih => exact ⟨h.1, fun r => ⟨fun hc => ((h.2 r).1 hc).bind hE, ih r (h.2 r).2⟩⟩
  | wait k ih => exact ih h

/-- Nothing is spoiled. -/
theorem Careful.of_quiet (h : Only (fun c => safe c ∧ ¬ spoils c) p) : Careful settles safe spoils E p := by
  induction p with
  | done b => trivial
  | call c k ih => exact ⟨h.1.1, fun r => ⟨fun hc => absurd hc h.1.2, ih r (h.2 r)⟩⟩
  | wait k ih => exact ih h

/-- What comes after the program always settles. -/
theorem Careful.of_all (h : Only safe p) (hE : ∀ b, E b) : Careful settles safe spoils E p := by
  induction p with
  | done b => trivial
  | call c k ih => exact ⟨h.1, fun r => ⟨fun _ => .of_all hE, ih r (h.2 r)⟩⟩
  | wait k ih => exact ih h

theorem Careful.imp (h : Careful settles safe spoils E p) (hE : ∀ b, E b → E' b) :
    Careful settles safe spoils E' p := by
  induction p with
  | done b => trivial
  | call c k ih => exact ⟨h.1, fun r => ⟨fun hc => ((h.2 r).1 hc).imp hE, ih r (h.2 r).2⟩⟩
  | wait k ih => exact ih h

/-- A program without calls that settle owes for ever. -/
theorem not_pays_of_only [Nonempty ρ] (h : Only (fun c => ∀ r, ¬ settles c r) p) :
    ¬ Pays settles (fun _ => False) p := by
  induction p with
  | done b => exact fun hb => hb
  | call c k ih =>
    obtain ⟨r⟩ := ‹Nonempty ρ›
    exact fun hp => ih r (h.2 r) (hp r (h.1 r))
  | wait k ih => exact ih h

theorem Pays.past (h : Pays settles E p) : Pays settles E p.past := by
  cases p with
  | done b => exact h
  | call c k => exact h
  | wait k => exact h

theorem Careful.past (h : Careful settles safe spoils E p) : Careful settles safe spoils E p.past := by
  cases p with
  | done b => exact h
  | call c k => exact h
  | wait k => exact h

end

section

variable {P P' : C → Prop} {R R' : α → Prop} {Q : γ → Prop} {x : ExceptT ε (Prog C ρ) α}
  {f : α → ExceptT ε (Prog C ρ) γ} {c : C}

theorem OnlyX.pure {a : α} : OnlyX P (Pure.pure a : ExceptT ε (Prog C ρ) α) := trivial

theorem OnlyX.throw {e : ε} : OnlyX P (throw e : ExceptT ε (Prog C ρ) α) := trivial

theorem OnlyX.ask (h : P c) : OnlyX P (ExceptT.lift (Prog.ask c) : ExceptT ε (Prog C ρ) ρ) :=
  ⟨h, fun _ => trivial⟩

theorem OnlyX.bind (h : OnlyX P x) (hf : ∀ a, OnlyX P (f a)) : OnlyX P (x >>= f) := by
  refine Only.bind (f := ExceptT.bindCont f) h fun r => ?_
  cases r with
  | ok a => exact hf a
  | error e => trivial

theorem OnlyX.imp (h : OnlyX P x) (hP : ∀ c, P c → P' c) : OnlyX P' x := Only.imp h hP

theorem OnlyX.forM {f : α → ExceptT ε (Prog C ρ) Unit} {l : List α} (h : ∀ a ∈ l, OnlyX P (f a)) :
    OnlyX P (l.forM f) := by
  induction l with
  | nil => exact .pure
  | cons a l ih =>
    exact (h a List.mem_cons_self).bind fun _ => ih fun a ha => h a (List.mem_cons_of_mem _ ha)

theorem OnlyX.pause : OnlyX P (ExceptT.lift Prog.pause : ExceptT ε (Prog C ρ) Unit) := trivial

theorem PaysX.pure {a : α} (h : R a) : PaysX settles R (Pure.pure a : ExceptT ε (Prog C ρ) α) := by
  intro b hb
  cases hb
  exact h

theorem PaysX.throw {e : ε} : PaysX settles R (throw e : ExceptT ε (Prog C ρ) α) := fun _ hb => nomatch hb

theorem PaysX.imp (h : PaysX settles R x) (hR : ∀ a, R a → R' a) : PaysX settles R' x :=
  Pays.imp h fun _ hb a ha => hR a (hb a ha)

theorem PaysX.of_all (h : ∀ a, R a) : PaysX settles R x := Pays.of_all fun _ a _ => h a

/-- The debt may be settled on either side. -/
theorem PaysX.bind (h : PaysX settles (fun a => PaysX settles Q (f a)) x) : PaysX settles Q (x >>= f) := by
  refine Pays.bind (f := ExceptT.bindCont f) h fun r hr => ?_
  cases r with
  | ok a => exact hr a rfl
  | error e => exact fun _ hb => nomatch hb

theorem PaysX.ask {R : ρ → Prop} (h : ∀ r, ¬ settles c r → R r) :
    PaysX settles R (ExceptT.lift (Prog.ask c) : ExceptT ε (Prog C ρ) ρ) := by
  intro r hr b hb
  cases hb
  exact h r hr

theorem CarefulX.pure {a : α} : CarefulX settles safe spoils R (Pure.pure a : ExceptT ε (Prog C ρ) α) :=
  trivial

/-- The debts of the first part are settled in it or in the second. -/
theorem CarefulX.bind (h : CarefulX settles safe spoils (fun a => PaysX settles Q (f a)) x)
    (hf : ∀ a, CarefulX settles safe spoils Q (f a)) : CarefulX settles safe spoils Q (x >>= f) := by
  refine Careful.bind (f := ExceptT.bindCont f) h (fun r hr => ?_) fun r => ?_
  · cases r with
    | ok a => exact hr a rfl
    | error e => exact fun _ hb => nomatch hb
  · cases r with
    | ok a => exact hf a
    | error e => trivial

theorem CarefulX.of_quiet (h : OnlyX (fun c => safe c ∧ ¬ spoils c) x) : CarefulX settles safe spoils R x :=
  Careful.of_quiet h

theorem CarefulX.of_all (h : OnlyX safe x) (hR : ∀ a, R a) : CarefulX settles safe spoils R x :=
  Careful.of_all h fun _ a _ => hR a

theorem CarefulX.imp (h : CarefulX settles safe spoils R x) (hR : ∀ a, R a → R' a) :
    CarefulX settles safe spoils R' x :=
  Careful.imp h fun _ hb a ha => hR a (hb a ha)

end

/-! ## Runs -/

section

variable [Fintype ι] [DecidableEq ι] {eff : C → σ → ρ × σ} {J G : σ → Prop} {excused : ι → β → Prop}
  {s s' : State ι C ρ β σ}

/-- **A step of some thread** settles a debt, leaves one, or changes none. -/
theorem Solvent.step (hG : Settling settles safe spoils eff J G)
    (h : Solvent settles safe spoils excused J G s)
    {a : Option ι} (hs : Threads.step eff s a = some s') : Solvent settles safe spoils excused J G s' := by
  cases a with
  | some t =>
    rw [Threads.step] at hs
    split at hs
    · rename_i c k hp
      cases hs
      have hcareful := h.careful t
      rw [hp] at hcareful
      obtain ⟨hsafe, hrest⟩ := hcareful
      refine ⟨hG.inv c _ hsafe h.inv, fun u => ?_, ?_⟩
      · by_cases hu : u = t
        · subst hu
          simp only [Function.update_self]
          exact (hrest _).2
        · simp only [Function.update_of_ne hu]
          exact h.careful u
      · by_cases hsettled : settles c (eff c s.mem).1
        · exact .inl (hG.settled c _ hsafe h.inv hsettled)
        · by_cases hspoils : spoils c
          · refine .inr ⟨t, ?_⟩
            simp only [Function.update_self]
            exact (hrest _).1 hspoils
          · rcases h.owed with hwell | ⟨u, hu⟩
            · exact .inl (hG.keeps c _ hsafe hspoils h.inv hwell)
            · refine .inr ⟨u, ?_⟩
              by_cases hut : u = t
              · subst hut
                rw [hp] at hu
                simp only [Function.update_self]
                exact hu _ hsettled
              · simp only [Function.update_of_ne hut]
                exact hu
    · cases hs
  | none =>
    rw [Threads.step] at hs
    split at hs
    · cases hs
      exact ⟨h.inv, fun u => (h.careful u).past, h.owed.imp_right fun howed => howed.imp fun _ => Pays.past⟩
    · cases hs

/-- What the calls of a program pass on to its rest holds of the rest. -/
theorem progs_invariant {I : Prog C ρ β → Prop} (hcall : ∀ c k r, I (.call c k) → I (k r))
    (hwait : ∀ k, I (.wait k) → I k) {t : ι} (h : I (s.progs t)) (hr : Reaches eff s s') :
    I (s'.progs t) := by
  induction hr with
  | refl => exact h
  | @tail s₁ s₂ _ hs ih =>
    obtain ⟨a, ha⟩ := hs
    cases a with
    | some u =>
      rw [Threads.step] at ha
      split at ha
      · rename_i c k hp
        cases ha
        by_cases ht : t = u
        · subst ht
          simp only [Function.update_self]
          exact hcall c k _ (hp ▸ ih)
        · simp only [Function.update_of_ne ht]
          exact ih
      · cases ha
    | none =>
      rw [Threads.step] at ha
      split at ha
      · cases ha
        change I (s₁.progs t).past
        generalize s₁.progs t = p at ih
        cases p with
        | done b => exact ih
        | call c k => exact ih
        | wait k => exact hwait k ih
      · cases ha

/-- **What the calls of all programs keep** holds in every state. -/
theorem Only.keeps {P : C → Prop} (hP : ∀ c m, P c → J m → J (eff c m).2) (honly : ∀ t, Only P (s.progs t))
    (h : J s.mem) (hr : Reaches eff s s') : J s'.mem := by
  induction hr with
  | refl => exact h
  | @tail s₁ s₂ hr hs ih =>
    obtain ⟨a, ha⟩ := hs
    cases a with
    | some t =>
      have hprog : Only P (s₁.progs t) := progs_invariant (I := Only P) (fun _ _ r hI => hI.2 r)
        (fun _ hI => hI) (honly t) hr
      rw [Threads.step] at ha
      split at ha
      · rename_i c k hp
        cases ha
        rw [hp] at hprog
        exact hP c _ hprog.1 ih
      · cases ha
    | none =>
      rw [Threads.step] at ha
      split at ha
      · cases ha
        exact ih
      · cases ha

omit [Fintype ι] [DecidableEq ι] in
theorem Only.exec {P : C → Prop} {p : Prog C ρ β} {m : σ} (hP : ∀ c m, P c → J m → J (eff c m).2)
    (honly : Only P p) (h : J m) : J (p.exec eff m).2 := by
  induction p generalizing m with
  | done b => exact h
  | call c k ih => exact ih _ (honly.2 _) (hP c m honly.1 h)
  | wait k ih => exact ih honly h

theorem Solvent.run (hG : Settling settles safe spoils eff J G)
    (h : Solvent settles safe spoils excused J G s)
    (hr : Reaches eff s s') : Solvent settles safe spoils excused J G s' := by
  induction hr with
  | refl => exact h
  | tail _ hs ih =>
    obtain ⟨a, ha⟩ := hs
    exact ih.step hG ha

omit [Fintype ι] [DecidableEq ι] in
/-- **All is well** when all threads have ended, and none of them is excused. -/
theorem Solvent.settled (h : Solvent settles safe spoils excused J G s)
    (hend : ∀ t, Pays settles (excused t) (s.progs t) → ∃ b, (s.progs t).result? = some b ∧ ¬ excused t b) :
    G s.mem := by
  rcases h.owed with hwell | ⟨t, ht⟩
  · exact hwell
  · obtain ⟨b, hb, hnot⟩ := hend t ht
    cases hp : s.progs t with
    | done x =>
      rw [hp] at hb ht
      cases hb
      exact absurd ht hnot
    | call c k => rw [hp] at hb; cases hb
    | wait k => rw [hp] at hb; cases hb

/-- A run with the steps that are given. -/
theorem exists_reaches_of_schedule {acts : List (Option ι)} {check : State ι C ρ β σ → Bool}
    (h : (acts.foldlM (Threads.step eff) s).any check = true) :
    ∃ s', Reaches eff s s' ∧ check s' = true := by
  induction acts generalizing s with
  | nil => exact ⟨s, .refl, h⟩
  | cons a acts ih =>
    rw [List.foldlM_cons] at h
    cases hs : Threads.step eff s a with
    | none =>
      rw [hs] at h
      cases h
    | some s₁ =>
      rw [hs] at h
      obtain ⟨s', hr, hcheck⟩ := ih h
      exact ⟨s', .head ⟨a, hs⟩ hr, hcheck⟩

end

end Fstest.Threads
