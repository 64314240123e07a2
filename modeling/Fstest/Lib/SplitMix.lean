import Mathlib.Algebra.Group.Nat.Defs
import Mathlib.Data.Fintype.EquivFin

/-!
# The SplitMix64 generator

The state of the generator goes on by an odd number and is then mixed. Both are bijections of the words, so
from any state each word is an output within `2 ^ 64` steps (`exists_output`), and a loop that draws until
it finds what it wants comes to an end if there is any word that it wants (`draw_isSome`).
-/

namespace Fstest.SplitMix

/-! ## Bijections -/

/-- A bit depends on higher ones alone. -/
theorem xorShift_injective {w k : ℕ} (hk : 0 < k) :
    Function.Injective fun z : BitVec w => z ^^^ (z >>> k) := by
  intro x y h
  have hbit : ∀ d i : ℕ, w ≤ i + d → x.getLsbD i = y.getLsbD i := by
    intro d
    induction d with
    | zero =>
      intro i hi
      rw [BitVec.getLsbD_of_ge x i (by omega), BitVec.getLsbD_of_ge y i (by omega)]
    | succ d ih =>
      intro i hi
      have hi' := congrArg (BitVec.getLsbD · i) h
      simp only [BitVec.getLsbD_xor, BitVec.getLsbD_ushiftRight, ih (k + i) (by omega)] at hi'
      exact Bool.xor_left_inj.mp hi'
  exact BitVec.eq_of_getLsbD_eq fun i _ => hbit w i (by omega)

/-- A multiplier with an inverse. -/
theorem mul_injective {m : UInt64} (m' : UInt64) (h : m * m' = 1) : Function.Injective fun z : UInt64 => z * m := by
  intro x y hxy
  have hcancel : ∀ z : UInt64, z * m * m' = z := fun z => by rw [UInt64.mul_assoc, h, UInt64.mul_one]
  have hboth : x * m * m' = y * m * m' := congrArg (· * m') hxy
  rwa [hcancel, hcancel] at hboth

/-! ## The generator -/

def gamma : UInt64 := 0x9E3779B97F4A7C15

def mix (state : UInt64) : UInt64 :=
  let z := (state ^^^ (state >>> 30)) * 0xBF58476D1CE4E5B9
  let z := (z ^^^ (z >>> 27)) * 0x94D049BB133111EB
  z ^^^ (z >>> 31)

/-- The next word, and the state after it. -/
def next (state : UInt64) : UInt64 × UInt64 := (mix (state + gamma), state + gamma)

theorem mix_injective : Function.Injective mix := by
  have hshift : ∀ {k : ℕ} {f : UInt64 → UInt64}, 0 < k →
      (∀ z, (f z).toBitVec = z.toBitVec ^^^ (z.toBitVec >>> k)) →
      Function.Injective f := by
    intro k f hk hf x y h
    have hbits := congrArg UInt64.toBitVec h
    rw [hf, hf] at hbits
    exact UInt64.toBitVec_inj.mp (xorShift_injective hk hbits)
  have h30 : Function.Injective fun z : UInt64 => z ^^^ (z >>> 30) :=
    hshift (k := 30) (by omega) fun _ => rfl
  have h27 : Function.Injective fun z : UInt64 => z ^^^ (z >>> 27) :=
    hshift (k := 27) (by omega) fun _ => rfl
  have h31 : Function.Injective fun z : UInt64 => z ^^^ (z >>> 31) :=
    hshift (k := 31) (by omega) fun _ => rfl
  have hfirst : Function.Injective fun z : UInt64 => z * 0xBF58476D1CE4E5B9 :=
    mul_injective 0x96DE1B173F119089 (by decide)
  have hsecond : Function.Injective fun z : UInt64 => z * 0x94D049BB133111EB :=
    mul_injective 0x319642B2D24D8EC3 (by decide)
  exact h31.comp (hsecond.comp (h27.comp (hfirst.comp h30)))

theorem mix_surjective : Function.Surjective mix := by
  have hwords : Function.Injective UInt64.toFin := fun x y h => by
    cases x
    cases y
    exact congrArg UInt64.ofFin h
  have : Finite UInt64 := Finite.of_injective _ hwords
  exact Finite.surjective_of_injective mix_injective

/-- The state after `n` steps. -/
def after (n : ℕ) (state : UInt64) : UInt64 := state + UInt64.ofNat n * gamma

theorem after_succ (n : ℕ) (state : UInt64) : after n (state + gamma) = after (n + 1) state := by
  rw [after, after, UInt64.add_assoc, UInt64.ofNat_add, UInt64.add_mul, UInt64.add_comm gamma,
    show UInt64.ofNat 1 = 1 from rfl, UInt64.one_mul]

/-- **Each word is an output**, whatever the state is. -/
theorem exists_output (state word : UInt64) : ∃ n < 2 ^ 64, (next (after n state)).1 = word := by
  obtain ⟨target, rfl⟩ := mix_surjective word
  obtain ⟨inverse, hinv⟩ : ∃ inverse : UInt64, inverse * gamma = 1 := ⟨0xF1DE83E19937733D, by decide⟩
  refine ⟨((target - gamma - state) * inverse).toNat, UInt64.toNat_lt _, congrArg mix ?_⟩
  rw [after, UInt64.ofNat_toNat, UInt64.mul_assoc, hinv, UInt64.mul_one, UInt64.add_comm state,
    UInt64.sub_add_cancel, UInt64.sub_add_cancel]

/-! ## Loops that draw -/

/-- The number of the states. -/
@[irreducible] def period : ℕ := 2 ^ 64

theorem period_eq : period = 2 ^ 64 := by rw [period]

section

variable {α : Type} (accept : UInt64 → Option α)

/-- Draws until a word is accepted, `fuel` times at most. -/
def draw : ℕ → UInt64 → Option (α × UInt64)
  | 0, _ => none
  | fuel + 1, state =>
    let (word, state) := next state
    match accept word with
    | some a => some (a, state)
    | none => draw fuel state

variable {accept}

theorem draw_isSome_of_output {n fuel : ℕ} {state : UInt64} (h : (accept (next (after n state)).1).isSome)
    (hn : n < fuel) : (draw accept fuel state).isSome := by
  induction fuel generalizing n state with
  | zero => omega
  | succ fuel ih =>
    rw [draw, next]
    cases haccept : accept (mix (state + gamma)) with
    | some a => simp only [haccept, Option.isSome_some]
    | none =>
      simp only [haccept]
      cases n with
      | zero =>
        rw [after, next, show UInt64.ofNat 0 = 0 from rfl, UInt64.zero_mul, UInt64.add_zero, haccept] at h
        cases h
      | succ n =>
        rw [← after_succ] at h
        exact ih h (by omega)

/-- **The loop comes to an end** if some word is accepted. -/
theorem draw_isSome {word : UInt64} (h : (accept word).isSome) (state : UInt64) :
    (draw accept period state).isSome := by
  obtain ⟨n, hn, hword⟩ := exists_output state word
  exact draw_isSome_of_output (by rwa [hword]) (hn.trans_eq period_eq.symm)

/-- Draws until a word is accepted. -/
def drawAny (accept : UInt64 → Option α) {word : UInt64} (h : (accept word).isSome) (state : UInt64) :
    α × UInt64 :=
  (draw accept period state).get (draw_isSome h state)

theorem draw_period {word : UInt64} (h : (accept word).isSome) (state : UInt64) :
    draw accept period state = some (drawAny accept h state) := by
  rw [drawAny, Option.some_get]

theorem draw_accepted {fuel : ℕ} {state state' : UInt64} {a : α}
    (h : draw accept fuel state = some (a, state')) :
    ∃ word, accept word = some a := by
  induction fuel generalizing state with
  | zero => cases h
  | succ fuel ih =>
    rw [draw, next] at h
    cases haccept : accept (mix (state + gamma)) with
    | some b =>
      simp only [haccept, Option.some.injEq, Prod.mk.injEq] at h
      exact ⟨_, h.1 ▸ haccept⟩
    | none =>
      simp only [haccept] at h
      exact ih h

theorem drawAny_accepted {word : UInt64} (h : (accept word).isSome) (state : UInt64) :
    ∃ word, accept word = some (drawAny accept h state).1 :=
  draw_accepted (draw_period h state)

end

end Fstest.SplitMix
