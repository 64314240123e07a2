import Fstest.Lib.Processes
import Fstest.Lib.Run

/-!
# Waiting for a test, up to a timeout

`run_one` of pjdfstest and `exec_with_timeout` of git, sqlite and stdfs, while two threads read what the
test writes to its stdout and stderr. The test is process 0; what it forks has the pipes open too, until
it closes them. Time, the test's processes and the runner go on in any order. The runner joins the
readers at the end, and a reader ends when nobody has the write end open. Neither runner kills anything
after an exit of the test that it sees, `run_one` kills only the test itself, and `exec_with_timeout` the
process group of it.
-/

namespace Fstest.Harness

open Processes Labelled

inductive Runner where
  | runOne
  | execWithTimeout
  deriving DecidableEq, Repr

/-- Where the runner is: in its loop, before a system call, or at the join of the readers. -/
inductive Phase where
  | polling
  | killGroup
  | killChild
  | wait
  | join
  deriving DecidableEq, Repr

structure State where
  procs : List Proc
  phase : Phase := .polling
  expired : Bool := false
  timedOut : Bool := false
  deriving DecidableEq, Repr

namespace Runner

/-- The process group of the test: `exec_with_timeout` has it start a session. -/
def testGroup : Runner → Option ℕ
  | .runOne => none
  | .execWithTimeout => some 0

/-- What comes after the timeout. -/
def onTimeout : Runner → Phase
  | .runOne => .killChild
  | .execWithTimeout => .killGroup

/-- What comes after the loop: `run_one` waits for the test whatever has happened. -/
def afterLoop : Runner → Phase
  | .runOne => .wait
  | .execWithTimeout => .join

end Runner

def start (r : Runner) : State where
  procs := [{ group := r.testGroup }]

/-- What happens next: an action of a process, the deadline, or the next call of the runner, of which
`try_wait` and `wait` can fail. -/
inductive Action where
  | test (i : ℕ) (a : Act)
  | expire
  | poll (failed : Bool)
  | killGroup
  | killChild
  | wait (failed : Bool)
  deriving DecidableEq, Repr

/-- A step, and the phase that it leads to. -/
def step (r : Runner) (s : State) : Action → Option (State × Phase)
  | .test i a => (act s.procs i a).map fun procs => ({ s with procs := procs }, s.phase)
  | .expire => some ({ s with expired := true }, s.phase)
  | .poll failed =>
    if s.phase = .polling then
      if failed || !alive s.procs 0 then some ({ s with phase := r.afterLoop }, r.afterLoop)
      else if s.expired then some ({ s with timedOut := true, phase := r.onTimeout }, r.onTimeout)
      else some (s, .polling)
    else none
  | .killGroup =>
    if s.phase = .killGroup then
      some ({ s with procs := killGroup 0 s.procs, phase := .killChild }, .killChild)
    else none
  | .killChild =>
    if s.phase = .killChild then some ({ s with procs := killOne 0 s.procs, phase := .wait }, .wait)
    else none
  | .wait failed =>
    if s.phase = .wait ∧ (failed || !alive s.procs 0) = true then some ({ s with phase := .join }, .join)
    else none

/-- At the join, nobody has the pipes open. -/
def Quiet (s : State) : Prop := s.phase = .join → holders s.procs = []

instance (s : State) : Decidable (Quiet s) :=
  inferInstanceAs (Decidable (s.phase = .join → holders s.procs = []))

/-- Whom a step kills, if it is the last of the runner that can kill anybody: at a timeout the kill
itself, without one the step that leads to the join. -/
def lastKill (r : Runner) (s : State) : Action → Option (ℕ → Bool)
  | .poll failed =>
    if r = .execWithTimeout ∧ (failed || !alive s.procs 0) = true then some fun _ => false else none
  | .killGroup => some fun i => group s.procs i == some 0
  | .killChild => if r = .runOne then some (· == 0) else none
  | .wait _ => if r = .runOne ∧ s.timedOut = false then some fun _ => false else none
  | .test _ _ | .expire => none

/-- Whoever has the pipes open at the last kill is killed. -/
def Contained (r : Runner) (s : State) (a : Action) : Prop :=
  ∀ f ∈ lastKill r s a, ∀ i ∈ holders s.procs, f i = true

instance (r : Runner) (s : State) (a : Action) : Decidable (Contained r s a) := by
  unfold Contained
  infer_instance

/-! ## Invariants -/

/-- What is known in each phase: nobody has the pipes open once the last kill lies behind. -/
def Known (r : Runner) (s : State) : Prop :=
  match r, s.phase with
  | _, .polling => s.timedOut = false
  | _, .join => holders s.procs = []
  | .runOne, .killGroup => False
  | .runOne, .killChild => s.timedOut = true
  | .runOne, .wait => s.timedOut = true → holders s.procs = []
  | .execWithTimeout, .killGroup => True
  | .execWithTimeout, .killChild | .execWithTimeout, .wait => holders s.procs = []

structure Kept (r : Runner) (s : State) : Prop where
  known : Known r s
  leader : r = .execWithTimeout → group s.procs 0 = some 0

variable {r : Runner} {s s' : State} {a : Action} {e : Phase} {tr : List Phase}

theorem kept_start (r : Runner) : Kept r (start r) := by
  cases r with
  | runOne => exact ⟨rfl, fun h => by cases h⟩
  | execWithTimeout => exact ⟨rfl, fun _ => rfl⟩

theorem Known.of_procs (h : Known r s) {t : List Proc} (ht : holders s.procs = [] → holders t = []) :
    Known r { s with procs := t } := by
  obtain ⟨procs, phase, expired, timedOut⟩ := s
  cases r <;> cases phase <;> first | exact h | exact ht h | exact fun htimeout => ht (h htimeout)

theorem Contained.eq_nil {f : ℕ → Bool} {t : List Proc} (h : Contained r s a) (hlast : lastKill r s a = some f)
    (ht : ∀ i ∈ holders t, i ∈ holders s.procs ∧ f i = false) : holders t = [] := by
  rw [List.eq_nil_iff_forall_not_mem]
  intro i hi
  have hkilled := h f hlast i (ht i hi).1
  rw [(ht i hi).2] at hkilled
  cases hkilled

theorem step_poll_kept (h : Kept r s) {failed : Bool} (hc : Contained r s (.poll failed))
    (hs : step r s (.poll failed) = some (s', e)) : Kept r s' := by
  rw [step] at hs
  split at hs
  · rename_i hphase
    have htimeout : s.timedOut = false := by
      simpa only [Known, hphase] using h.known
    split at hs
    · rename_i hleave
      cases hs
      refine ⟨?_, h.leader⟩
      cases r with
      | runOne =>
        intro h'
        rw [htimeout] at h'
        cases h'
      | execWithTimeout => exact hc.eq_nil (if_pos ⟨rfl, hleave⟩) fun i hi => ⟨hi, rfl⟩
    · split at hs
      · cases hs
        refine ⟨?_, h.leader⟩
        cases r with
        | runOne => exact rfl
        | execWithTimeout => exact trivial
      · cases hs
        exact h
  · cases hs

theorem step_killGroup_kept (h : Kept r s) (hc : Contained r s .killGroup)
    (hs : step r s .killGroup = some (s', e)) : Kept r s' := by
  rw [step] at hs
  split at hs
  · rename_i hphase
    cases hs
    have hknown := h.known
    refine ⟨?_, fun hr => group_kill.trans (h.leader hr)⟩
    cases r with
    | runOne => exact absurd hknown (by simp only [Known, hphase, not_false_eq_true])
    | execWithTimeout =>
      refine hc.eq_nil (f := fun i => group s.procs i == some 0) rfl fun i hi => ?_
      obtain ⟨hi, hgroup⟩ := mem_holders_killGroup.mp hi
      exact ⟨hi, beq_eq_false_iff_ne.mpr hgroup⟩
  · cases hs

theorem step_killChild_kept (h : Kept r s) (hc : Contained r s .killChild)
    (hs : step r s .killChild = some (s', e)) : Kept r s' := by
  rw [step] at hs
  split at hs
  · rename_i hphase
    cases hs
    have hknown := h.known
    refine ⟨?_, fun hr => group_kill.trans (h.leader hr)⟩
    cases r with
    | runOne =>
      refine fun _ => hc.eq_nil (f := (· == 0)) rfl fun i hi => ?_
      obtain ⟨hi, hne⟩ := mem_holders_killOne.mp hi
      exact ⟨hi, beq_eq_false_iff_ne.mpr hne⟩
    | execWithTimeout =>
      have hnone : holders s.procs = [] := by
        simpa only [Known, hphase] using hknown
      refine List.eq_nil_iff_forall_not_mem.mpr fun i hi => ?_
      have hi := (mem_holders_killOne.mp hi).1
      rw [hnone] at hi
      cases hi
  · cases hs

theorem step_wait_kept (h : Kept r s) {failed : Bool} (hc : Contained r s (.wait failed))
    (hs : step r s (.wait failed) = some (s', e)) : Kept r s' := by
  rw [step] at hs
  split at hs
  · rename_i hwait
    cases hs
    have hknown := h.known
    refine ⟨?_, h.leader⟩
    cases r with
    | runOne =>
      have hnone : s.timedOut = true → holders s.procs = [] := by
        simpa only [Known, hwait.1] using hknown
      cases htimeout : s.timedOut with
      | true => exact hnone htimeout
      | false => exact hc.eq_nil (if_pos ⟨rfl, htimeout⟩) fun i hi => ⟨hi, rfl⟩
    | execWithTimeout =>
      simpa only [Known, hwait.1] using hknown
  · cases hs

/-- **Steps whose last kill is complete keep what is known.** -/
theorem step_kept (h : Kept r s) (hc : Contained r s a) (hs : step r s a = some (s', e)) : Kept r s' := by
  cases a with
  | test i b =>
    obtain ⟨t, hact, heq⟩ := Option.map_eq_some_iff.mp hs
    cases heq
    exact ⟨h.known.of_procs (holders_act_eq_nil hact), fun hr => leader_act hact (h.leader hr)⟩
  | expire =>
    cases hs
    exact ⟨h.known, h.leader⟩
  | poll failed => exact step_poll_kept h hc hs
  | killGroup => exact step_killGroup_kept h hc hs
  | killChild => exact step_killChild_kept h hc hs
  | wait failed => exact step_wait_kept h hc hs

theorem kept_of_run (h : Run (step r) (Contained r) (start r) tr s) : Kept r s :=
  h.invariant (I := fun _ => Kept r) (kept_start r) fun _ _ _ _ _ _ hk hc hs => step_kept hk hc hs

/-! ## After an incomplete kill -/

def Action.ofRunner : Action → Bool
  | .test _ _ | .expire => false
  | .poll _ | .killGroup | .killChild | .wait _ => true

/-- The runner alone can come to a join at which somebody has the pipes open. -/
def Hangs (r : Runner) (s : State) : Prop :=
  ∃ tr s', Run (step r) (fun _ a => a.ofRunner = true) s tr s' ∧ ¬ Quiet s'

variable {i : ℕ}

theorem hangs_of_join (hphase : s.phase = .join) (hi : i ∈ holders s.procs) : Hangs r s :=
  ⟨_, s, .nil, fun hquiet => by simp [hquiet hphase] at hi⟩

theorem Hangs.of_step (h : Hangs r s') (ha : a.ofRunner = true) (hs : step r s a = some (s', e)) :
    Hangs r s := by
  obtain ⟨tr, s'', hrun, hquiet⟩ := h
  exact ⟨_, s'', .cons ha hs hrun, hquiet⟩

theorem hangs_of_wait (hphase : s.phase = .wait) (hdead : alive s.procs 0 = false)
    (hi : i ∈ holders s.procs) : Hangs r s := by
  have hstep : step r s (.wait false) = some ({ s with phase := .join }, .join) := by
    simp [step, hphase, hdead]
  have hjoin : Hangs r { s with phase := .join } := hangs_of_join rfl hi
  exact hjoin.of_step rfl hstep

theorem hangs_of_killChild (hphase : s.phase = .killChild) (hi : i ∈ holders s.procs) (h0 : i ≠ 0) :
    Hangs r s := by
  have hstep : step r s .killChild = some ({ s with procs := killOne 0 s.procs, phase := .wait }, .wait) := by
    simp [step, hphase]
  have hwait : Hangs r { s with procs := killOne 0 s.procs, phase := .wait } :=
    hangs_of_wait rfl alive_killOne (mem_holders_killOne.mpr ⟨hi, h0⟩)
  exact hwait.of_step rfl hstep

/-- **After an incomplete last kill the runner hangs**, unless the processes that are left end in time. -/
theorem hangs_of_not_contained (h : Kept r s) (hs : step r s a = some (s', e)) (hc : ¬ Contained r s a) :
    Hangs r s' := by
  simp only [Contained, not_forall] at hc
  obtain ⟨f, hlast, i, hi, hspared⟩ := hc
  cases a with
  | test j b => cases hlast
  | expire => cases hlast
  | poll failed =>
    rw [lastKill] at hlast
    split at hlast
    · rename_i hleave
      obtain ⟨rfl, hleave⟩ := hleave
      rw [step] at hs
      split at hs
      · cases hs
        exact hangs_of_join rfl hi
      · cases hs
    · cases hlast
  | wait failed =>
    rw [step] at hs
    split at hs
    · cases hs
      exact hangs_of_join rfl hi
    · cases hs
  | killChild =>
    rw [lastKill] at hlast
    split at hlast
    · cases hlast
      rw [step] at hs
      split at hs
      · cases hs
        exact hangs_of_wait rfl alive_killOne (mem_holders_killOne.mpr ⟨hi, by simpa using hspared⟩)
      · cases hs
    · cases hlast
  | killGroup =>
    cases hlast
    have hgroup : group s.procs i ≠ some 0 := by simpa using hspared
    rw [step] at hs
    split at hs
    · rename_i hphase
      cases hs
      refine hangs_of_killChild rfl (mem_holders_killGroup.mpr ⟨hi, hgroup⟩) fun h0 => ?_
      -- the test leads its group, and `run_one` does not come here
      cases r with
      | runOne => exact absurd h.known (by simp only [Known, hphase, not_false_eq_true])
      | execWithTimeout =>
        rw [h0] at hgroup
        exact hgroup (h.leader rfl)
    · cases hs

/-! ## What the process group is for -/

def Action.startsSession (a : Action) : Prop := ∃ i, a = .test i .setsid

/-- **Without new sessions, the kill of the group at a timeout is complete.** -/
theorem contained_killGroup (h : Run (step .execWithTimeout) (fun _ a => ¬ a.startsSession)
    (start .execWithTimeout) tr s) : Contained .execWithTimeout s .killGroup := by
  have hwithin : InGroup (some 0) s.procs := by
    refine h.invariant (I := fun _ s => InGroup (some 0) s.procs) ?_ fun tr s a s' e _ hg ha hs => ?_
    · intro j p hp
      obtain rfl := List.mem_singleton.mp (List.mem_of_getElem? hp)
      rfl
    · cases a with
      | test i b =>
        obtain ⟨t, hact, heq⟩ := Option.map_eq_some_iff.mp hs
        cases heq
        exact hg.act (fun hb => ha ⟨i, congrArg _ hb⟩) hact
      | expire =>
        cases hs
        exact hg
      | poll failed | killGroup | killChild | wait failed =>
        simp only [step] at hs
        repeat' split at hs
        all_goals cases hs
        all_goals first | exact hg | exact hg.kill
  intro f hf i hi
  cases hf
  obtain ⟨p, hp, -⟩ := mem_holders.mp hi
  simp [group, hp, hwithin i p hp]

/-! ## The join -/

theorem Kept.quiet (h : Kept r s) : Quiet s := by
  intro hphase
  have hknown := h.known
  cases r <;> simpa only [Known, hphase] using hknown

/-- **When the join cannot hang**: if whoever has the pipes open at the last kill is killed. Otherwise the
runner hangs at the join, unless the processes that are left end in time. -/
theorem quiet_of_contained (h : Run (step r) (Contained r) (start r) tr s) :
    Quiet s ∧ ∀ a s' e, step r s a = some (s', e) → ¬ Contained r s a → Hangs r s' :=
  ⟨(kept_of_run h).quiet, fun _ _ _ hs hc => hangs_of_not_contained (kept_of_run h) hs hc⟩

/-- The test's child closes the pipes and starts a session, and the test does not end in time. -/
def stuckTest : List Action :=
  [.test 0 .fork, .test 1 .close, .test 1 .setsid, .expire, .poll false, .killGroup, .killChild, .wait false]

theorem quiet_after_stuckTest :
    ∃ tr s, Run (step .execWithTimeout) (Contained .execWithTimeout) (start .execWithTimeout) tr s ∧
      s.phase = .join ∧ Quiet s := by
  obtain ⟨tr, s, hrun, hjoin⟩ : ∃ tr s, Run (step .execWithTimeout) (Contained .execWithTimeout)
      (start .execWithTimeout) tr s ∧ s.phase = .join := exists_run_of_execute stuckTest (by decide)
  exact ⟨tr, s, hrun, hjoin, (quiet_of_contained hrun).1⟩

/-- The runner can come to a join, with or without a timeout, at which somebody has the pipes open. -/
def JoinsWhileOpen (r : Runner) (timedOut : Bool) : Prop :=
  ∃ tr s, Run (step r) (fun _ _ => True) (start r) tr s ∧ s.timedOut = timedOut ∧ ¬ Quiet s

/-- The test exits before the process that it has started. -/
def leftBehind : Runner → List Action
  | .runOne => [.test 0 .fork, .test 0 .exit, .poll false, .wait false]
  | .execWithTimeout => [.test 0 .fork, .test 0 .exit, .poll false]

/-- The test waits for what it has started, which for `exec_with_timeout` is in a session of its own. -/
def outlived : Runner → List Action
  | .runOne => [.test 0 .fork, .expire, .poll false, .killChild, .wait false]
  | .execWithTimeout =>
    [.test 0 .fork, .test 1 .setsid, .expire, .poll false, .killGroup, .killChild, .wait false]

/-- **Each runner can hang**, after an exit of the test and after a timeout. -/
theorem joins_while_open :
    JoinsWhileOpen .runOne false ∧ JoinsWhileOpen .runOne true ∧
      JoinsWhileOpen .execWithTimeout false ∧ JoinsWhileOpen .execWithTimeout true :=
  ⟨exists_run_of_execute (leftBehind .runOne) (by decide),
    exists_run_of_execute (outlived .runOne) (by decide),
    exists_run_of_execute (leftBehind .execWithTimeout) (by decide),
    exists_run_of_execute (outlived .execWithTimeout) (by decide)⟩

end Fstest.Harness
