import Mathlib.Data.List.Basic
import Mathlib.Algebra.Group.Nat.Defs
import Mathlib.Logic.Function.Basic
import Mathlib.Logic.Function.Iterate

/-!
# A writer to pipes that nobody reads

A process computes and writes to pipes of a capacity, which take what they can hold; where a pipe is
full, the writer waits. With a reader each operation takes one tick. Without one, nothing is lost
(`tick_books`), so the writer comes to its end exactly if each pipe can hold all that is written to it
(`drop_of_fits`, `not_done_of_overflow`).
-/

namespace Fstest.Pipe

variable {ι : Type}

inductive Op (ι : Type) where
  | work
  | write (fd : ι) (n : ℕ)
  deriving Repr

/-- What the process has before it, and what each pipe holds. -/
structure Writer (ι : Type) where
  rest : List (Op ι)
  held : ι → ℕ

def start (ops : List (Op ι)) : Writer ι where
  rest := ops
  held _ := 0

/-- A tick with a reader, which empties the pipes. -/
def readTick (w : Writer ι) : Writer ι where
  rest := w.rest.tail
  held _ := 0

variable [DecidableEq ι]

/-- A tick without a reader. -/
def tick (cap : ℕ) (w : Writer ι) : Writer ι :=
  match w.rest with
  | [] => w
  | .work :: rest => { w with rest := rest }
  | .write fd n :: rest =>
    if w.held fd + n ≤ cap then
      { rest := rest, held := Function.update w.held fd (w.held fd + n) }
    else
      { rest := .write fd (w.held fd + n - cap) :: rest, held := Function.update w.held fd cap }

/-- What is written to a pipe. -/
def output (fd : ι) : List (Op ι) → ℕ
  | [] => 0
  | .work :: ops => output fd ops
  | .write fd' n :: ops => (if fd' = fd then n else 0) + output fd ops

/-- Given a reader, the process comes to its end in `n` ticks. -/
def EndsWithin (n : ℕ) (ops : List (Op ι)) : Prop := (readTick^[n] (start ops)).rest = []

/-- The books of a pipe: what it holds and what will be written to it make up the output, and it holds no
more than it can. -/
def Books (cap : ℕ) (ops : List (Op ι)) (w : Writer ι) : Prop :=
  ∀ fd, w.held fd + output fd w.rest = output fd ops ∧ w.held fd ≤ cap

variable {cap n : ℕ} {ops : List (Op ι)} {w : Writer ι}

omit [DecidableEq ι] in
theorem endsWithin_iff : EndsWithin n ops ↔ ops.length ≤ n := by
  have hrest : ∀ n (w : Writer ι), (readTick^[n] w).rest = w.rest.drop n := by
    intro n
    induction n with
    | zero => exact fun w => rfl
    | succ n ih =>
      intro w
      rw [Function.iterate_succ_apply, ih]
      exact List.drop_tail
  rw [EndsWithin, hrest]
  exact List.drop_eq_nil_iff

theorem books_start : Books cap ops (start ops) := fun _ => ⟨Nat.zero_add _, Nat.zero_le _⟩

/-- **No byte is lost.** -/
theorem tick_books (h : Books cap ops w) : Books cap ops (tick cap w) := by
  intro fd
  have hfd := h fd
  rw [tick]
  split
  · exact hfd
  · rename_i rest hrest
    rw [hrest] at hfd
    exact hfd
  · rename_i fd' n rest hrest
    rw [hrest, output] at hfd
    have hcap := (h fd').2
    split <;> by_cases hpipe : fd = fd'
    · subst hpipe
      simp only [if_true, Function.update_self] at hfd ⊢
      omega
    · simp only [if_neg (Ne.symm hpipe), Function.update_of_ne hpipe] at hfd ⊢
      omega
    · subst hpipe
      simp only [output, if_true, Function.update_self] at hfd ⊢
      omega
    · simp only [output, if_neg (Ne.symm hpipe), Function.update_of_ne hpipe] at hfd ⊢
      omega

theorem iterate_tick_books (n : ℕ) : Books cap ops ((tick cap)^[n] (start ops)) := by
  induction n with
  | zero => exact books_start
  | succ n ih =>
    rw [Function.iterate_succ_apply']
    exact tick_books ih

/-- A writer whose output fits into the pipes never waits. -/
theorem tick_of_fits (h : Books cap ops w) (hfits : ∀ fd, output fd ops ≤ cap) :
    (tick cap w).rest = w.rest.tail := by
  rw [tick]
  split
  · rename_i hrest
    rw [hrest]
    rfl
  · rename_i rest hrest
    rw [hrest]
    rfl
  · rename_i fd n rest hrest
    have hfd := (h fd).1
    have hcap := hfits fd
    rw [hrest, output, if_pos rfl] at hfd
    rw [if_pos (by omega), hrest]
    rfl

/-- **A writer comes to its end if the pipes can hold its output.** -/
theorem drop_of_fits (hfits : ∀ fd, output fd ops ≤ cap) (n : ℕ) :
    ((tick cap)^[n] (start ops)).rest = ops.drop n := by
  induction n with
  | zero => rfl
  | succ n ih =>
    rw [Function.iterate_succ_apply', tick_of_fits (iterate_tick_books n) hfits, ih, List.tail_drop]

/-- **A writer waits for ever before a pipe that cannot hold its output.** -/
theorem not_done_of_overflow {fd : ι} (hover : cap < output fd ops) (n : ℕ) :
    ((tick cap)^[n] (start ops)).rest ≠ [] := by
  intro hdone
  have hbooks : Books cap ops ((tick cap)^[n] (start ops)) := iterate_tick_books n
  obtain ⟨hsum, hcap⟩ := hbooks fd
  rw [hdone, output] at hsum
  omega

end Fstest.Pipe
