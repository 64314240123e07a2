import Mathlib.Algebra.GroupWithZero.Nat
import Mathlib.Data.List.TakeWhile

/-!
# Operations up to the first error

A sequence of fallible operations that the caller leaves at the first error (`?` in a loop). An
outcome function says which operations succeed; a loop that carries a state goes through the states
`st`, as long as its rounds do.
-/

namespace Fstest

variable {β : Type}

/-- The operations that are tried: all of them, or those up to the first that fails. -/
def tried (ok : β → Bool) (bs : List β) : List β :=
  bs.takeWhile ok ++ (bs.dropWhile ok).take 1

theorem tried_cons (ok : β → Bool) (b : β) (bs : List β) :
    tried ok (b :: bs) = b :: if ok b then tried ok bs else [] := by
  cases hb : ok b with
  | true =>
    rw [tried, List.takeWhile_cons_of_pos hb, List.dropWhile_cons_of_pos hb]
    rfl
  | false =>
    rw [tried, List.takeWhile_cons_of_neg (by simp [hb]), List.dropWhile_cons_of_neg (by simp [hb])]
    rfl

section

variable {σ ε : Type} {f : σ → ℕ → Except ε σ} {st : ℕ → σ} {k n : ℕ}

theorem foldlM_range_ok (h : ∀ n < k, f (st n) (n + 1) = .ok (st (n + 1))) :
    (List.range' 1 k).foldlM f (st 0) = .ok (st k) := by
  induction k with
  | zero => rfl
  | succ k ih =>
    rw [List.range'_concat, List.foldlM_append, ih fun n hn => h n (Nat.lt_succ_of_lt hn), Nat.one_mul,
      Nat.add_comm 1 k]
    change (List.foldlM f (st k) [k + 1] : Except ε σ) = _
    rw [List.foldlM_cons, h k (Nat.lt_succ_self k)]
    rfl

theorem foldlM_range_error {e : ε} (h : ∀ m < n, f (st m) (m + 1) = .ok (st (m + 1))) (hn : n < k)
    (herr : f (st n) (n + 1) = .error e) : (List.range' 1 k).foldlM f (st 0) = .error e := by
  obtain ⟨left, rfl⟩ : ∃ left, k = n + (left + 1) := ⟨k - n - 1, by omega⟩
  rw [← List.range'_append, List.foldlM_append, foldlM_range_ok h, Nat.one_mul, Nat.add_comm 1 n,
    List.range'_succ]
  change (List.foldlM f (st n) ((n + 1) :: _) : Except ε σ) = _
  rw [List.foldlM_cons, herr]
  rfl

theorem foldlM_range_invariant {f : σ → ℕ → Option σ} {I : ℕ → σ → Prop} {s : σ} (h : I 0 s)
    (hstep : ∀ i < n, ∀ s, I i s → ∃ s', f s i = some s' ∧ I (i + 1) s') :
    ∃ s', (List.range n).foldlM f s = some s' ∧ I n s' := by
  induction n with
  | zero => exact ⟨s, rfl, h⟩
  | succ n ih =>
    obtain ⟨s₁, hrun, hs₁⟩ := ih fun i hi => hstep i (Nat.lt_succ_of_lt hi)
    obtain ⟨s₂, hround, hs₂⟩ := hstep n (Nat.lt_succ_self n) s₁ hs₁
    refine ⟨s₂, ?_, hs₂⟩
    rw [List.range_succ, List.foldlM_append, hrun]
    change List.foldlM f s₁ [n] = _
    rw [List.foldlM_cons, hround]
    rfl

end

/-! ## A state that an error carries out -/

section

variable {σ : Type}

/-- The state at the end, early or not. -/
def either : Except σ σ → σ
  | .ok s | .error s => s

/-- Loops in which what is known of a state that goes on speaks of a count. -/
theorem foldlM_counted {f : σ → β → Except σ σ} {K : ℕ → Except σ σ → Prop} (cost : β → ℕ) (l : List β)
    (hstep : ∀ b ∈ l, ∀ k s, K k (.ok s) → K (k + cost b) (f s b))
    (herror : ∀ k k' s, K k (.error s) → K k' (.error s)) {k : ℕ} {s : σ} (h : K k (.ok s)) :
    K (k + (l.map cost).sum) (l.foldlM f s) := by
  induction l generalizing k s with
  | nil => exact h
  | cons b l ih =>
    have hb := hstep b List.mem_cons_self k s h
    rw [List.foldlM_cons, List.map_cons, List.sum_cons, ← Nat.add_assoc]
    cases hf : f s b with
    | error s' =>
      rw [hf] at hb
      exact herror _ _ s' hb
    | ok s' =>
      rw [hf] at hb
      exact ih (fun b' hb' => hstep b' (List.mem_cons_of_mem b hb')) hb

/-- A loop whose rounds leave a trace, which is that of the rounds up to the first that fails. -/
theorem foldlM_tried {ε : Type} {f : σ → β → Except σ σ} {trace : σ → List ε} {events : β → List ε}
    {ok : β → Bool} (htrace : ∀ s b, trace (either (f s b)) = trace s ++ events b)
    (hok : ∀ s b, (f s b).isOk = ok b) (l : List β) (s : σ) :
    trace (either (l.foldlM f s)) = trace s ++ (tried ok l).flatMap events ∧
      (l.foldlM f s).isOk = l.all ok := by
  induction l generalizing s with
  | nil => exact ⟨(List.append_nil _).symm, rfl⟩
  | cons b l ih =>
    have hb := htrace s b
    rw [List.foldlM_cons, tried_cons, List.all_cons, ← hok s b, List.flatMap_cons, ← List.append_assoc, ← hb]
    cases f s b with
    | error s' => exact ⟨(List.append_nil _).symm, rfl⟩
    | ok s' => exact ih s'

end

end Fstest
