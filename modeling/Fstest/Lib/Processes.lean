import Mathlib.Data.List.Basic

/-!
# Processes that share an inherited file

A table of processes, in which the number of a process is its place. A process is in a process group
(`none` for a group from outside the table), and has an inherited file open or not. Processes fork,
close the file, start a session of their own and exit, in any order; a signal kills one process or all
of a group. Nothing but a fork of a process that has the file open makes another one have it
(`holders_act_eq_nil`).
-/

namespace Fstest.Processes

structure Proc where
  group : Option ℕ
  alive : Bool := true
  holds : Bool := true
  deriving DecidableEq, Repr

/-- The process lives and has the file open. -/
def Proc.keepsOpen (p : Proc) : Bool := p.alive && p.holds

inductive Act where
  | fork
  | close
  | setsid
  | exit
  deriving DecidableEq, Repr

/-- An action of a living process. The leader of a group cannot start a session. -/
def act (t : List Proc) (i : ℕ) (a : Act) : Option (List Proc) :=
  match t[i]? with
  | none => none
  | some p =>
    if p.alive then
      match a with
      | .fork => some (t ++ [p])
      | .close => some (t.set i { p with holds := false })
      | .setsid => if p.group = some i then none else some (t.set i { p with group := some i })
      | .exit => some (t.set i { p with alive := false })
    else none

/-- The processes that live and have the file open. -/
def holders (t : List Proc) : List ℕ := (List.range t.length).filter fun i => t[i]?.any Proc.keepsOpen

/-- SIGKILL to the processes that `f` says. -/
def kill (f : ℕ → Proc → Bool) (t : List Proc) : List Proc :=
  t.mapIdx fun i p => if f i p then { p with alive := false } else p

def killGroup (g : ℕ) : List Proc → List Proc := kill fun _ p => p.group == some g

def killOne (i : ℕ) : List Proc → List Proc := kill fun j _ => j == i

def alive (t : List Proc) (i : ℕ) : Bool := t[i]?.any Proc.alive

def group (t : List Proc) (i : ℕ) : Option ℕ := t[i]?.bind Proc.group

variable {t t' : List Proc} {i j : ℕ} {a : Act} {p q : Proc} {f : ℕ → Proc → Bool}

theorem mem_holders : j ∈ holders t ↔ ∃ p, t[j]? = some p ∧ p.alive = true ∧ p.holds = true := by
  rw [holders, List.mem_filter, List.mem_range]
  simp only [Option.any_eq_true, Proc.keepsOpen, Bool.and_eq_true]
  refine and_iff_right_of_imp ?_
  rintro ⟨p, hp, -⟩
  exact (List.getElem?_eq_some_iff.mp hp).1

/-- **What an action does**: the process is copied, or it changes: it gives something up, or starts a
session. -/
theorem act_cases (h : act t i a = some t') :
    ∃ p, t[i]? = some p ∧ (t' = t ++ [p] ∨ ∃ q, t' = t.set i q ∧ (q.alive = true → p.alive = true) ∧
      (q.holds = true → p.holds = true) ∧ (q.group = p.group ∨ a = .setsid ∧ q.group = some i)) := by
  rw [act] at h
  split at h
  · cases h
  · rename_i p hp
    refine ⟨p, hp, ?_⟩
    split at h
    · cases a with
      | fork => exact .inl (Option.some.inj h).symm
      | close => exact .inr ⟨_, (Option.some.inj h).symm, id, fun h => (by cases h), .inl rfl⟩
      | exit => exact .inr ⟨_, (Option.some.inj h).symm, fun h => (by cases h), id, .inl rfl⟩
      | setsid =>
        simp only [] at h
        split at h
        · cases h
        · exact .inr ⟨_, (Option.some.inj h).symm, id, id, .inr ⟨rfl, rfl⟩⟩
    · cases h

/-- Each process is what has become of one that was there, or a copy of it. -/
theorem act_origin (h : act t i a = some t') (hq : t'[j]? = some q) :
    ∃ (k : ℕ) (p : Proc), t[k]? = some p ∧ (q.alive = true → p.alive = true) ∧
      (q.holds = true → p.holds = true) ∧ (q.group = p.group ∨ a = .setsid) := by
  obtain ⟨p, hp, rfl | ⟨p', rfl, halive, hholds, hgroup⟩⟩ := act_cases h
  · rw [List.getElem?_append] at hq
    split at hq
    · exact ⟨j, q, hq, id, id, .inl rfl⟩
    · obtain rfl : q = p := (List.mem_singleton.mp (List.mem_of_getElem? hq))
      exact ⟨i, q, hp, id, id, .inl rfl⟩
  · rw [List.getElem?_set] at hq
    split at hq
    · split at hq
      · cases hq
        exact ⟨i, p, hp, halive, hholds, hgroup.imp_right And.left⟩
      · cases hq
    · exact ⟨j, q, hq, id, id, .inl rfl⟩

/-- **Once nobody has the file open, nobody will.** -/
theorem holders_act_eq_nil (h : act t i a = some t') (hn : holders t = []) : holders t' = [] := by
  rw [List.eq_nil_iff_forall_not_mem] at hn ⊢
  intro j hj
  obtain ⟨q, hq, halive, hholds⟩ := mem_holders.mp hj
  obtain ⟨k, p, hp, hpalive, hpholds, -⟩ := act_origin h hq
  exact hn k (mem_holders.mpr ⟨p, hp, hpalive halive, hpholds hholds⟩)

/-- The leader of a group stays in it. -/
theorem leader_act (h : act t i a = some t') (hj : group t j = some j) : group t' j = some j := by
  obtain ⟨q, hq, hqj⟩ := Option.bind_eq_some_iff.mp hj
  obtain ⟨p, hp, rfl | ⟨p', rfl, -, -, hgroup⟩⟩ := act_cases h
  · rw [group, List.getElem?_append_left (List.getElem?_eq_some_iff.mp hq).1, hq]
    exact hqj
  · rw [group, List.getElem?_set]
    split
    · rename_i hij
      subst hij
      rw [if_pos (List.getElem?_eq_some_iff.mp hp).1]
      rw [hp] at hq
      cases hq
      exact hgroup.elim (fun he => he.trans hqj) And.right
    · rw [hq]
      exact hqj

/-- All processes are in the group. -/
def InGroup (g : Option ℕ) (t : List Proc) : Prop := ∀ (j : ℕ) (p : Proc), t[j]? = some p → p.group = g

theorem InGroup.act {g : Option ℕ} (hg : InGroup g t) (ha : a ≠ .setsid) (h : act t i a = some t') :
    InGroup g t' := by
  intro j q hq
  obtain ⟨k, p, hp, -, -, hgroup⟩ := act_origin h hq
  exact (hgroup.resolve_right ha).trans (hg k p hp)

/-! ## Signals -/

theorem getElem?_kill : (kill f t)[j]? = t[j]?.map fun p => if f j p then { p with alive := false } else p := by
  rw [kill, List.getElem?_mapIdx]

@[simp] theorem group_kill : group (kill f t) j = group t j := by
  rw [group, group, getElem?_kill]
  cases t[j]? with
  | none => rfl
  | some p =>
    change (if f j p then { p with alive := false } else p : Proc).group = p.group
    split <;> rfl

theorem InGroup.kill {g : Option ℕ} (hg : InGroup g t) : InGroup g (kill f t) := by
  intro j q hq
  rw [getElem?_kill] at hq
  obtain ⟨p, hp, rfl⟩ := Option.map_eq_some_iff.mp hq
  have hgroup := hg j p hp
  split <;> exact hgroup

/-- Who still has the file open is not reached by the signal. -/
theorem mem_holders_kill :
    j ∈ holders (kill f t) ↔ j ∈ holders t ∧ ∀ p, t[j]? = some p → f j p = false := by
  rw [mem_holders, mem_holders, getElem?_kill]
  cases t[j]? with
  | none => simp
  | some p =>
    cases hf : f j p <;> simp [hf]

theorem mem_holders_killGroup {g : ℕ} :
    j ∈ holders (killGroup g t) ↔ j ∈ holders t ∧ group t j ≠ some g := by
  rw [killGroup, mem_holders_kill]
  refine and_congr_right fun hj => ?_
  obtain ⟨p, hp, -⟩ := mem_holders.mp hj
  simp [group, hp]

theorem mem_holders_killOne : j ∈ holders (killOne i t) ↔ j ∈ holders t ∧ j ≠ i := by
  rw [killOne, mem_holders_kill]
  refine and_congr_right fun hj => ?_
  obtain ⟨p, hp, -⟩ := mem_holders.mp hj
  simp [hp]

theorem alive_killOne : alive (killOne i t) i = false := by
  rw [alive, killOne, getElem?_kill]
  cases t[i]? with
  | none => rfl
  | some p => simp

end Fstest.Processes
