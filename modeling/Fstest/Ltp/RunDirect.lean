import Fstest.Lib.Pipe
import Fstest.Lib.Run

/-!
# An LTP test whose output nobody reads

`run_direct` of ltp waits for a test and reads what it has written afterwards. The test writes to two
pipes, which hold a number of bytes each. One tick of the clock lets the test go on if it can; the runner
looks at it whenever it wants. A test that writes more than a pipe holds is stopped there until the
deadline (`served_iff`).
-/

namespace Fstest.Ltp

open Pipe Labelled

inductive Stream where
  | stdout
  | stderr
  deriving DecidableEq, Repr

inductive Result where
  | pass
  | fail
  | broken
  | skip
  | warn
  | timedout
  deriving DecidableEq, Repr

/-- `result_of`, with the exit codes TPASS, TFAIL, TBROK and TCONF. A process that a signal ends has no
code. -/
def resultOf (code : Option ℤ) (timedOut : Bool) : Result :=
  if timedOut then .timedout
  else
    match code with
    | some 0 => .pass
    | some 1 => .fail
    | some 2 => .broken
    | some 32 => .skip
    | some _ => .warn
    | none => .broken

/-- The clock, the test and, after the loop, `code` and `timed_out`. -/
structure State where
  time : ℕ := 0
  test : Writer Stream
  left : Option (Option ℤ × Bool) := none

def start (ops : List (Op Stream)) : State where
  test := Pipe.start ops

inductive Action where
  | tick
  | poll
  deriving DecidableEq, Repr

/-- A step, and what is reported after it. The test exits with `code` at its end; a test that has not
come to it is killed after the deadline `T`. -/
def step (cap T : ℕ) (code : Option ℤ) (s : State) : Action → Option (State × Option Result)
  | .tick =>
    match s.left with
    | none => some ({ s with time := s.time + 1, test := tick cap s.test }, none)
    | some (c, timedOut) => some ({ s with time := s.time + 1 }, some (resultOf c timedOut))
  | .poll =>
    match s.left, s.test.rest with
    | none, [] => some ({ s with left := some (code, false) }, some (resultOf code false))
    | none, _ :: _ =>
      if T < s.time then some ({ s with left := some (none, true) }, some (resultOf none true))
      else some (s, none)
    | some _, _ => none

/-- The test has run to its exit in time; after the loop its code is there, and nothing but the result of
it is reported, which is not a timeout. -/
structure Served (T : ℕ) (code : Option ℤ) (tr : List (Option Result)) (s : State) : Prop where
  exits : T ≤ s.time → s.test.rest = []
  sees : ∀ r, s.left = some r → s.test.rest = [] ∧ r = (code, false)
  reports : ∀ r, some r ∈ tr → r = resultOf code false ∧ r ≠ .timedout

variable {cap T : ℕ} {code : Option ℤ} {ops : List (Op Stream)} {s s' : State} {a : Action}
  {e : Option Result} {tr : List (Option Result)}

theorem resultOf_ne_timedout : resultOf code false ≠ .timedout := by
  unfold resultOf
  rw [if_neg Bool.false_ne_true]
  split <;> decide

/-- What is known in a run of a test whose output the pipes can hold. -/
structure Going (cap : ℕ) (code : Option ℤ) (ops : List (Op Stream)) (s : State) : Prop where
  running : s.left = none → s.test = (tick cap)^[s.time] (Pipe.start ops)
  left : ∀ r, s.left = some r → s.test.rest = [] ∧ r = (code, false)

theorem step_going (hfits : ∀ fd, output fd ops ≤ cap) (hlen : ops.length ≤ T) (h : Going cap code ops s)
    (hs : step cap T code s a = some (s', e)) :
    Going cap code ops s' ∧ ∀ r, e = some r → r = resultOf code false := by
  cases a with
  | tick =>
    rw [step] at hs
    split at hs
    · rename_i hleft
      cases hs
      refine ⟨⟨fun _ => ?_, fun r hr => ?_⟩, fun r hr => by cases hr⟩
      · rw [Function.iterate_succ_apply', ← h.running hleft]
      · rw [hleft] at hr
        cases hr
    · rename_i c timedOut hleft
      cases hs
      refine ⟨⟨fun hnone => ?_, h.left⟩, fun r hr => ?_⟩
      · rw [hleft] at hnone
        cases hnone
      · obtain ⟨-, hr'⟩ := h.left _ hleft
        cases hr'
        exact (Option.some.inj hr).symm
  | poll =>
    rw [step] at hs
    split at hs
    · rename_i hrest
      cases hs
      exact ⟨⟨fun hnone => (by cases hnone), fun r hr => ⟨hrest, (Option.some.inj hr).symm⟩⟩,
        fun r hr => (Option.some.inj hr).symm⟩
    · rename_i o ops' hleft hrest
      split at hs
      · -- after the deadline the test has come to its end
        rename_i hlate
        rw [h.running hleft, drop_of_fits hfits, List.drop_of_length_le (by omega)] at hrest
        cases hrest
      · cases hs
        exact ⟨h, fun r hr => by cases hr⟩
    · cases hs

/-- **A test whose output the pipes can hold is served.** -/
theorem served_of_fits (hfits : ∀ fd, output fd ops ≤ cap) (hlen : ops.length ≤ T)
    (hrun : Run (step cap T code) (fun _ _ => True) (start ops) tr s) : Served T code tr s := by
  obtain ⟨hgoing, hreports⟩ : Going cap code ops s ∧ ∀ r, some r ∈ tr → r = resultOf code false := by
    refine hrun.invariant (I := fun tr s => Going cap code ops s ∧ ∀ r, some r ∈ tr → r = resultOf code false)
      ⟨⟨fun _ => rfl, fun r hr => by cases hr⟩, fun r hr => by cases hr⟩ fun tr s a s' e _ h _ hs => ?_
    obtain ⟨hgoing, he⟩ := step_going hfits hlen h.1 hs
    refine ⟨hgoing, fun r hr => ?_⟩
    rcases List.mem_append.mp hr with hr | hr
    · exact h.2 r hr
    · exact he r (List.mem_singleton.mp hr).symm
  refine ⟨fun htime => ?_, hgoing.left, fun r hr => ⟨hreports r hr, ?_⟩⟩
  · cases hleft : s.left with
    | none => rw [hgoing.running hleft, drop_of_fits hfits, List.drop_of_length_le (by omega)]
    | some r => exact (hgoing.left r hleft).1
  · rw [hreports r hr]
    exact resultOf_ne_timedout

theorem run_ticks (cap T : ℕ) (code : Option ℤ) (ops : List (Op Stream)) (n : ℕ) :
    ∃ tr, Run (step cap T code) (fun _ _ => True) (start ops) tr
      { time := n, test := (tick cap)^[n] (Pipe.start ops) } := by
  induction n with
  | zero => exact ⟨_, .nil⟩
  | succ n ih =>
    obtain ⟨tr, hrun⟩ := ih
    rw [Function.iterate_succ_apply']
    exact ⟨_, hrun.snoc (a := .tick) trivial rfl⟩

theorem step_poll_late (hleft : s.left = none) (hrest : s.test.rest ≠ []) (hlate : T < s.time) :
    step cap T code s .poll = some ({ s with left := some (none, true) }, some .timedout) := by
  obtain ⟨o, rest, hrest⟩ := List.exists_cons_of_ne_nil hrest
  simp only [step, hleft, hrest, if_pos hlate]
  rfl

/-- **A test that writes more than a pipe holds is killed after the deadline.** -/
theorem times_out (T : ℕ) (code : Option ℤ) {fd : Stream} (hover : cap < output fd ops) :
    ∃ tr s, Run (step cap T code) (fun _ _ => True) (start ops) tr s ∧ some .timedout ∈ tr := by
  obtain ⟨tr, hrun⟩ := run_ticks cap T code ops (T + 1)
  have hs : step cap T code { time := T + 1, test := (tick cap)^[T + 1] (Pipe.start ops) } .poll = _ :=
    step_poll_late rfl (not_done_of_overflow hover (T + 1)) (Nat.lt_succ_self T)
  exact ⟨_, _, hrun.snoc trivial hs, List.mem_append_right _ List.mem_cons_self⟩

/-- **When a test is not timed out by its own output**: if each pipe can hold what is written to it. -/
theorem served_iff (hread : EndsWithin T ops) :
    (∀ tr s, Run (step cap T code) (fun _ _ => True) (start ops) tr s → Served T code tr s) ↔
      ∀ fd, output fd ops ≤ cap := by
  constructor
  · intro h fd
    by_contra hover
    obtain ⟨tr, s, hrun, htimeout⟩ := times_out T code (Nat.lt_of_not_le hover)
    exact ((h tr s hrun).reports _ htimeout).2 rfl
  · exact fun hfits tr s hrun => served_of_fits hfits (endsWithin_iff.mp hread) hrun

/-- A test that writes no more than the pipes hold. -/
theorem served_quiet : EndsWithin 2 [Op.write Stream.stdout 4, .write .stderr 3] ∧
    ∀ tr s, Run (step 4 2 (some 0)) (fun _ _ => True) (start [.write .stdout 4, .write .stderr 3]) tr s →
      Served 2 (some 0) tr s :=
  have hread : EndsWithin 2 [Op.write Stream.stdout 4, .write .stderr 3] := rfl
  ⟨hread, (served_iff hread).mpr fun fd => by cases fd <;> decide⟩

/-- **A test that writes one byte more than a pipe of 64 KiB holds**, and would exit at once, is reported as
timed out. -/
theorem long_output_times_out : EndsWithin 1 [Op.write Stream.stdout 65537] ∧
    ∃ tr s, Run (step 65536 1 (some 0)) (fun _ _ => True) (start [.write .stdout 65537]) tr s ∧
      ¬ Served 1 (some 0) tr s := by
  have hover : 65536 < output Stream.stdout [.write .stdout 65537] := by decide
  obtain ⟨tr, s, hrun, htimeout⟩ := times_out 1 (some 0) hover
  exact ⟨rfl, tr, s, hrun, fun h => (h.reports _ htimeout).2 rfl⟩

end Fstest.Ltp
