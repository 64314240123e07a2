import Fstest.Lib.Run
import Fstest.Lib.Total
import Fstest.Mdworkbench.Ranks

/-!
# The benchmark loop under a stonewall timer

`run_benchmark_rank` as its control flow: the loop over the iterations, the look at the timer after
each one, and with wear-out the atomic operations on the counters that the ranks share. Each atomic
operation is a step of its own. What the operations on files do is left out, except that a failed
write ends the function.
-/

namespace Fstest.Mdworkbench.Stonewall

/-- The parameters of a run, whether there is a timer, and whether the ranks wear out. -/
structure TimerParams extends Params where
  armed : Bool
  wearOut : Bool

structure WearOut where
  armed : ℕ
  total : ℕ
  contributors : ℕ
  finished : ℕ
  deriving DecidableEq, Repr

def WearOut.new : WearOut := ⟨0, 0, 0, 0⟩

/-- Where a rank is in the function. -/
inductive Pc where
  | head
  /-- In the loop over the data sets. -/
  | object (d : ℕ)
  | timer
  | store
  | fetchMax
  | fetchAdd
  /-- In the wait loop, which has read the contributors before it reads who has finished. -/
  | loadContributors
  | loadFinished (contributors : ℕ)
  | loadTotal
  | finish
  | left
  /-- A failed write has ended the function. -/
  | failed
  deriving DecidableEq, Repr

/-- The variables of a call of the function. -/
structure Local where
  pc : Pc
  f : ℕ
  totalNum : ℕ
  contributed : Bool
  deriving DecidableEq, Repr

/-- What a step depends on besides: what the timer says, and whether a write fails. -/
structure Sight where
  expired : Bool := false
  writeFails : Bool := false
  deriving DecidableEq, Repr

def Local.new (num : ℕ) : Local := ⟨.head, 0, num, false⟩

/-- The next step of a rank. -/
def Local.next (p : TimerParams) (w : WearOut) (l : Local) (c : Sight) : Option (WearOut × Local) :=
  match l.pc with
  | .head =>
    if l.f < l.totalNum then some (w, { l with pc := .object 0 }) else some (w, { l with pc := .finish })
  | .object d =>
    if d < p.dsetCount then
      if c.writeFails && !p.readOnly then some (w, { l with pc := .failed })
      else some (w, { l with pc := .object (d + 1) })
    else some (w, { l with pc := .timer, f := l.f + 1 })
  | .timer =>
    if p.armed && c.expired then
      if !p.wearOut then some (w, { l with pc := .finish })
      else if !l.contributed then some (w, { l with pc := .store })
      else some (w, { l with pc := .loadTotal })
    else some (w, { l with pc := .head })
  | .store => some ({ w with armed := 1 }, { l with pc := .fetchMax })
  | .fetchMax => some ({ w with total := max w.total (l.f + 1) }, { l with pc := .fetchAdd })
  | .fetchAdd =>
    some ({ w with contributors := w.contributors + 1 }, { l with pc := .loadContributors })
  | .loadContributors => some (w, { l with pc := .loadFinished w.contributors })
  | .loadFinished contributors =>
    if contributors + w.finished < p.threads then some (w, { l with pc := .loadContributors })
    else some (w, { l with pc := .loadTotal, contributed := true })
  | .loadTotal =>
    some (w, { l with pc := .head, totalNum := if 0 < w.total then w.total else l.totalNum })
  | .finish => some ({ w with finished := w.finished + 1 }, { l with pc := .left })
  | .left | .failed => none

/-- One benchmark iteration: the counters that its ranks share, and the calls of the function. -/
structure Iteration (n : ℕ) where
  wear : WearOut
  ranks : Fin n → Local

def Iteration.new (n num : ℕ) : Iteration n := ⟨.new, fun _ => .new num⟩

/-- A rank takes its next step. -/
structure Action (n : ℕ) where
  rank : Fin n
  sight : Sight

def Iteration.step {n : ℕ} (p : TimerParams) (s : Iteration n) (a : Action n) :
    Option (Iteration n × Fin n) :=
  ((s.ranks a.rank).next p s.wear a.sight).map fun r =>
    (⟨r.1, Function.update s.ranks a.rank r.2⟩, a.rank)

/-! ## The counters -/

/-- The rank is in the wait loop. -/
def Pc.waits : Pc → Bool
  | .loadContributors | .loadFinished _ => true
  | _ => false

def Pc.isLeft : Pc → Bool
  | .left => true
  | _ => false

/-- The rank has added itself to the contributors. -/
def Local.added (l : Local) : Bool := l.contributed || l.pc.waits

/-- What `contributed` says of the place in the function. -/
def Local.Proper (l : Local) : Prop :=
  match l.pc with
  | .store | .fetchMax | .fetchAdd | .loadContributors | .loadFinished _ => l.contributed = false
  | .loadTotal => l.contributed = true
  | _ => True

/-- The counters of an iteration are those of its ranks. -/
structure Counted {n : ℕ} (s : Iteration n) : Prop where
  proper : ∀ t, (s.ranks t).Proper
  contributors : s.wear.contributors = ∑ t, (s.ranks t).added.toNat
  finished : s.wear.finished = ∑ t, (s.ranks t).pc.isLeft.toNat

section

variable {p : TimerParams} {w w' : WearOut} {l l' : Local} {c : Sight} {n : ℕ} {s s' : Iteration n}
  {t : Fin n}

theorem Local.next_counted (h : l.next p w c = some (w', l')) (hp : l.Proper) :
    l'.Proper ∧ w'.contributors + l.added.toNat = w.contributors + l'.added.toNat ∧
      w'.finished + l.pc.isLeft.toNat = w.finished + l'.pc.isLeft.toNat := by
  obtain ⟨pc, f, totalNum, contributed⟩ := l
  cases pc with
  | left | failed => cases h
  | head =>
    simp only [Local.next] at h
    split_ifs at h <;> cases h <;> exact ⟨trivial, rfl, rfl⟩
  | object d =>
    simp only [Local.next] at h
    split_ifs at h <;> cases h <;> exact ⟨trivial, rfl, rfl⟩
  | timer =>
    simp only [Local.next] at h
    split_ifs at h with _ _ hc <;> cases h
    · exact ⟨trivial, rfl, rfl⟩
    · exact ⟨by simpa [Local.Proper] using hc, rfl, rfl⟩
    · exact ⟨by simpa [Local.Proper] using hc, rfl, rfl⟩
    · exact ⟨trivial, rfl, rfl⟩
  | store | fetchMax =>
    cases h
    exact ⟨hp, rfl, rfl⟩
  | fetchAdd =>
    cases h
    simp only [Local.Proper] at hp
    subst hp
    exact ⟨rfl, rfl, rfl⟩
  | loadContributors =>
    cases h
    exact ⟨hp, rfl, rfl⟩
  | loadFinished k =>
    simp only [Local.Proper] at hp
    subst hp
    simp only [Local.next] at h
    split_ifs at h <;> cases h <;> exact ⟨rfl, rfl, rfl⟩
  | loadTotal | finish =>
    cases h
    exact ⟨trivial, rfl, rfl⟩

theorem counted_new (n num : ℕ) : Counted (Iteration.new n num) where
  proper _ := trivial
  contributors := (Finset.sum_eq_zero fun _ _ => rfl).symm
  finished := (Finset.sum_eq_zero fun _ _ => rfl).symm

/-- **A step of a rank keeps the counters.** -/
theorem Counted.update (h : Counted s) (hs : (s.ranks t).next p s.wear c = some (w', l')) :
    Counted (⟨w', Function.update s.ranks t l'⟩ : Iteration n) := by
  obtain ⟨hproper, hcontributors, hfinished⟩ := Local.next_counted hs (h.proper t)
  constructor
  · intro u
    by_cases hu : u = t
    · subst hu
      simpa using hproper
    · simpa [Function.update_of_ne hu] using h.proper u
  · have hsum := sum_update (fun l => l.added.toNat) s.ranks t l'
    have hold := h.contributors
    change w'.contributors = ∑ u, (Function.update s.ranks t l' u).added.toNat
    omega
  · have hsum := sum_update (fun l => l.pc.isLeft.toNat) s.ranks t l'
    have hold := h.finished
    change w'.finished = ∑ u, (Function.update s.ranks t l' u).pc.isLeft.toNat
    omega

/-- Where every rank has contributed or left, no rank waits any longer. -/
theorem Counted.enough (h : Counted s) (hall : ∀ t, (s.ranks t).added ∨ (s.ranks t).pc = .left) :
    n ≤ s.wear.contributors + s.wear.finished := by
  rw [h.contributors, h.finished, ← Finset.sum_add_distrib]
  have hone : ∀ t : Fin n, 1 ≤ (s.ranks t).added.toNat + (s.ranks t).pc.isLeft.toNat := by
    intro t
    rcases hall t with ht | ht
    · rw [ht]
      exact Nat.le_add_right _ _
    · rw [ht]
      exact Nat.le_add_left _ _
  calc n = ∑ _t : Fin n, 1 := by rw [← Finset.card_eq_sum_ones, Finset.card_univ, Fintype.card_fin]
    _ ≤ _ := Finset.sum_le_sum fun t _ => hone t

/-- As long as nobody has got through the wait loop, a rank that counts has contributed or left. -/
theorem Counted.settled (h : Counted s) (hnone : ∀ t, (s.ranks t).contributed = false)
    (hn : n ≤ s.wear.contributors + s.wear.finished) (t : Fin n) :
    (s.ranks t).pc.waits = true ∨ (s.ranks t).pc = .left := by
  rw [h.contributors, h.finished, ← Finset.sum_add_distrib] at hn
  have hle : ∀ u, (s.ranks u).added.toNat + (s.ranks u).pc.isLeft.toNat ≤ 1 := by
    intro u
    rw [Local.added, hnone u, Bool.false_or]
    cases (s.ranks u).pc <;> simp [Pc.waits, Pc.isLeft]
  have hone := eq_one_of_le_sum hle hn t
  rw [Local.added, hnone t, Bool.false_or] at hone
  cases hpc : (s.ranks t).pc <;> first | exact .inl rfl | exact .inr rfl | (rw [hpc] at hone; cases hone)

end

end Fstest.Mdworkbench.Stonewall
