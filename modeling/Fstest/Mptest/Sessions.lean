import Fstest.Mptest.Process

/-!
# Sessions

A process holds the row of client `i` from the time that it is to be started until the row is
deleted. `Process.holds` counts this, and no step adds more to the count than it adds rows
(`next_holds`), so at most one process holds the row of a client (`holds_le_count`): between
`start_script` and the end of its script a client is on its own. A script that uses `--finish` gives
its row up while it goes on, so these runs are without it.
-/

namespace Fstest.Mptest

open Labelled

/-- One if the two are the same. -/
def same (i j : ℕ) : ℕ := if j = i then 1 else 0

def Statement.holds (i : ℕ) : Statement → ℕ
  | .endTask _ => 0
  | .deleteClient client => same i client

def Op.holds (i : ℕ) : Op → ℕ
  | .spawn client => same i client
  | .statement st => st.holds i
  | .script _ | .runScript _ _ | .insertClient _ | .insertTask _ _ _ | .waitForClient _ | .haltClients
  | .pollClients | .readCounters | .summary => 0

def Stage.holds (i client : ℕ) : Stage → ℕ
  | .startUp | .claiming _ | .claimed _ _ _ => same i client
  | .working _ ops => same i client + total (Op.holds i) ops
  | .leaving sts _ => total (Statement.holds i) sts
  | .ended _ => 0

/-- How often a process holds the row of client `i`, or is to start a process that does. -/
def Process.holds (i : ℕ) (self : Process) : ℕ := self.stage.holds i self.client

section

variable {i client task : ℕ} {ops : List Op}

@[simp] theorem Stage.holds_claiming (waited : ℕ) :
    (Stage.claiming waited).holds i client = same i client := rfl

@[simp] theorem Stage.holds_claimed (name script : Bytes) :
    (Stage.claimed task name script).holds i client = same i client := rfl

@[simp] theorem Stage.holds_working :
    (Stage.working task ops).holds i client = same i client + total (Op.holds i) ops := rfl

@[simp] theorem Stage.holds_leaving (sts : List Statement) (code : Option ℤ) :
    (Stage.leaving sts code).holds i client = total (Statement.holds i) sts := rfl

@[simp] theorem Op.holds_script (f : Frame) : (Op.script f).holds i = 0 := rfl

@[simp] theorem Op.holds_spawn : (Op.spawn client).holds i = same i client := rfl

@[simp] theorem Op.holds_statement (st : Statement) : (Op.statement st).holds i = st.holds i := rfl

theorem Process.holds_eq {self : Process} {stage : Stage} (hs : self.stage = stage) :
    self.holds i = stage.holds i self.client := by
  rw [Process.holds, hs]

end

/-! ## The step of a process -/

section

variable {self : Process} {db : Tables} {c : Choice} {o : Outcome} {i task : ℕ} {rest : List Op}

@[simp] theorem Process.goOn_db (stage : Stage) (made : Counts) :
    (self.goOn db stage made).db = db := rfl

@[simp] theorem Process.goOn_stage (stage : Stage) (made : Counts) :
    (self.goOn db stage made).stage = stage := rfl

@[simp] theorem Process.goOn_counts (stage : Stage) (made : Counts) :
    (self.goOn db stage made).counts = self.counts + made := rfl

@[simp] theorem Process.goOn_spawned (stage : Stage) (made : Counts) :
    (self.goOn db stage made).spawned = none := rfl

theorem count_haltAll_if (b : Bool) :
    (if b then db.clients.haltAll else db.clients).count i = db.clients.count i := by
  split
  · exact ClientTable.count_haltAll _ _
  · rfl

/-- The rows that a step gives up or takes: it holds no more than it adds to the table. -/
def Outcome.Keeps (i : ℕ) (db : Tables) (self : Process) (o : Outcome) : Prop :=
  o.stage.holds i self.client + total (same i) o.spawned.toList + db.clients.count i ≤
    self.holds i + o.db.clients.count i

/-- The row that `deleteClient` removes is the one that it holds. -/
theorem Statement.count_run (db : Tables) (i : ℕ) (st : Statement) :
    db.clients.count i ≤ st.holds i + (st.run db).clients.count i := by
  cases st with
  | endTask id => exact Nat.le_add_left _ _
  | deleteClient client =>
    simp only [Statement.holds, Statement.run, same]
    split
    · exact Nat.le_add_right_of_le (db.clients.count_le_one i)
    · rename_i hne
      rw [db.clients.count_delete_of_ne (Ne.symm hne)]
      exact Nat.le_add_left _ _

theorem count_insert_same (client : ℕ) (h : client ∉ db.clients.ids) :
    (db.clients.insert client).count i = db.clients.count i + same i client :=
  ClientTable.count_insert h i

theorem Outcome.keeps (hnone : o.spawned = none) (h : o.stage.holds i self.client + db.clients.count i ≤
    self.holds i + o.db.clients.count i) : o.Keeps i db self := by
  rwa [Outcome.Keeps, hnone, Option.toList_none, total_nil, Nat.add_zero]

/-- A step that leaves the clients alone and holds no more than before. -/
theorem Outcome.keeps_of_le (hnone : o.spawned = none)
    (hdb : o.db.clients.count i = db.clients.count i)
    (h : o.stage.holds i self.client ≤ self.holds i) : o.Keeps i db self :=
  Outcome.keeps hnone (by omega)

theorem Process.startScript_keeps {waited : ℕ} (hs : self.stage = .claiming waited) :
    (self.startScript db c waited).Keeps i db self := by
  have hhold := Process.holds_eq hs (i := i)
  have hleave : (Stage.leaving [] none).holds i self.client + db.clients.count i ≤
      self.holds i + (db.clients.delete self.client).count i := by
    have hrun := Statement.count_run db i (.deleteClient self.client)
    rw [hhold, Stage.holds_leaving, total_nil, Nat.zero_add]
    exact hrun
  unfold Process.startScript
  split
  · exact Outcome.keeps_of_le rfl rfl (Nat.le_of_eq hhold.symm)
  · dsimp only
    split
    · exact Outcome.keeps rfl hleave
    · split
      · exact Outcome.keeps_of_le rfl rfl (Nat.le_of_eq hhold.symm)
      · split
        · exact Outcome.keeps rfl hleave
        · exact Outcome.keeps_of_le rfl rfl (Nat.le_of_eq hhold.symm)

/-- Only `--finish` makes a process go on without the row that it holds. -/
theorem effect_holds (c : Choice) (i client task : ℕ) (filename : Bytes) {cmd : Command}
    (h : cmd ≠ .finish) :
    total (Op.holds i) (Process.effect c client task filename cmd).1 = 0 := by
  cases cmd with
  | finish => exact absurd rfl h
  | quiet | exit | compare | wait | showSqlErrors | unknown | source => rfl
  | start target =>
    simp only [Process.effect]
    split <;> rfl
  | task target name script =>
    simp only [Process.effect]
    split <;> rfl

theorem finishScript_holds (self : Process) (hi : 0 < i) (f : Frame) (task : ℕ) :
    total (Statement.holds i) (finishScript (self.frameClient f) task true) ≤ same i self.client := by
  simp only [finishScript, Process.frameClient, if_true, total_cons, total_nil, Statement.holds, same]
  split_ifs <;> omega

theorem Process.runFrame_keeps (hi : 0 < i) {f : Frame}
    (hs : self.stage = .working task (.script f :: rest)) (hf : self.command? ≠ some .finish) :
    (self.runFrame db c task rest f).Keeps i db self := by
  have hhold := Process.holds_eq hs (i := i)
  rw [Stage.holds_working, total_cons, Op.holds_script, Nat.zero_add] at hhold
  rw [Process.command?, hs] at hf
  unfold Process.runFrame
  split
  · exact Outcome.keeps_of_le rfl rfl (by simp [hhold])
  · exact Outcome.keeps_of_le rfl (count_haltAll_if c.halt) (by simp [hhold])
  · rename_i hev
    simp only [hev] at hf
    split
    · have hle := finishScript_holds self hi f (frameTask task f)
      exact Outcome.keeps_of_le rfl rfl (by rw [hhold]; exact Nat.le_add_right_of_le hle)
    · have hzero := effect_holds c i (self.frameClient f) (frameTask task f) f.filename
        (fun heq => hf (congrArg some heq))
      exact Outcome.keeps_of_le rfl rfl (by simp [hhold, hzero])

theorem Process.runOp_keeps (hi : 0 < i) {op : Op} (hs : self.stage = .working task (op :: rest))
    (hf : self.command? ≠ some .finish) : (self.runOp db c task rest op).Keeps i db self := by
  have hhold := Process.holds_eq hs (i := i)
  rw [Stage.holds_working, total_cons] at hhold
  -- An operation that is done with, and leaves the clients alone.
  have hdone : (Stage.working task rest).holds i self.client ≤ self.holds i := by
    rw [Stage.holds_working]
    omega
  cases op with
  | script f => exact Process.runFrame_keeps hi hs hf
  | insertClient client =>
    refine Outcome.keeps rfl ?_
    dsimp only [Process.runOp, Process.goOn]
    rw [Stage.holds_working]
    split_ifs with hmem
    · rw [ClientTable.count_insert_of_mem hmem]
      omega
    · rw [count_insert_same client hmem, total_cons, Op.holds_spawn]
      omega
  | spawn client =>
    rw [Op.holds_spawn] at hhold
    rw [Process.runOp]
    split_ifs
    · simp only [Outcome.Keeps, hhold, goOn_db, goOn_stage, Stage.holds_working, Option.toList_some,
        total_cons, total_nil]
      omega
    · exact Outcome.keeps_of_le rfl rfl hdone
  | statement st =>
    have hrun := Statement.count_run db i st
    rw [Op.holds_statement] at hhold
    refine Outcome.keeps rfl ?_
    simp only [runOp, goOn_db, goOn_stage, Stage.holds_working]
    omega
  | waitForClient client =>
    rw [Process.runOp]
    split_ifs
    · exact Outcome.keeps_of_le rfl rfl hdone
    · exact Outcome.keeps_of_le rfl rfl (Nat.le_of_eq (Process.holds_eq hs).symm)
    · exact Outcome.keeps_of_le rfl rfl hdone
  | haltClients =>
    exact Outcome.keeps_of_le rfl (count_haltAll_if c.pass) hdone
  | runScript => exact Outcome.keeps_of_le rfl rfl (by simp [runOp, hhold])
  | readCounters | insertTask | pollClients | summary => exact Outcome.keeps_of_le rfl rfl hdone

/-- **A step of a process without `--finish` holds no more rows than it adds.** -/
theorem Process.next_holds (h : self.next db c = some o) (hi : 0 < i)
    (hf : self.command? ≠ some .finish) : o.Keeps i db self := by
  unfold Process.next at h
  split at h <;> rename_i hs
  · split_ifs at h <;> cases h
    · exact Outcome.keeps_of_le rfl rfl (Nat.zero_le _)
    · exact Outcome.keeps_of_le rfl rfl (Nat.le_of_eq (Process.holds_eq hs).symm)
  · cases h
    exact Process.startScript_keeps hs
  · cases h
    exact Outcome.keeps_of_le rfl rfl (by simp [Process.holds_eq hs])
  · split_ifs at h <;> cases h
    · exact Outcome.keeps_of_le rfl rfl (Nat.zero_le _)
    · exact Outcome.keeps_of_le rfl rfl (by simp [Process.holds_eq hs])
  · cases h
    exact Process.runOp_keeps hi hs hf
  · cases h
    exact Outcome.keeps_of_le rfl rfl (Nat.zero_le _)
  · cases h
    exact Outcome.keeps_of_le rfl rfl (Nat.zero_le _)
  · rename_i st sts code
    cases h
    have hrun := Statement.count_run db i st
    refine Outcome.keeps rfl ?_
    simp only [Process.holds_eq hs, Process.goOn_db, Process.goOn_stage, Stage.holds_leaving, total_cons]
    omega
  · cases h

end

/-! ## Runs -/

/-- The step does not carry out a `--finish`. -/
def noFinish (s : State) : Action → Bool
  | .run p _ => (s.procs[p]?).all fun self => self.command? != some .finish
  | .fatal _ _ => true

section

variable {filename script : Bytes} {n i p q : ℕ} {tr : List Label} {s : State} {a b : Process}

/-- No more processes hold the row of a client than there are rows. -/
theorem holds_le_count (h : Run step (fun s a => noFinish s a) (start filename script n) tr s)
    (hi : 0 < i) : total (Process.holds i) s.procs ≤ s.db.clients.count i := by
  refine h.invariant (I := fun _ s => total (Process.holds i) s.procs ≤ s.db.clients.count i) ?_ ?_
  · have hops : total (Op.holds i) (masterOps filename script n) = 0 := by
      rw [masterOps, total_append, total, List.map_replicate, List.sum_replicate]
      rfl
    simp only [start, total_cons, total_nil, Process.holds, Stage.holds_working, hops, same]
    split_ifs <;> omega
  · intro tr s a s' e _ ih hf hs
    obtain ⟨p, self, o, hp, rfl, -, hcase⟩ := step_cases hs
    have htot := total_after (Process.holds i) hp (o := o)
    have hspawned : Process.holds i ∘ spawned = same i := rfl
    rw [hspawned] at htot
    rcases hcase with ⟨c, rfl, ho⟩ | ⟨halts, -, hdead⟩
    · have hkeeps := Process.next_holds ho hi (by simpa [noFinish, hp] using hf)
      change _ + _ + _ ≤ _ + (s.after p self o).db.clients.count i at hkeeps
      have hnew : Process.holds i ⟨self.client, o.counts, o.stage⟩ = o.stage.holds i self.client := rfl
      omega
    · obtain ⟨-, hclients, -, -, hstage, -, hnone, -⟩ := hdead
      rw [hnone, Option.toList_none, total_nil, hstage] at htot
      have hzero : Process.holds i ⟨self.client, o.counts, .ended 1⟩ = 0 := rfl
      have hcount : (s.after p self o).db.clients.count i = s.db.clients.count i := hclients i
      omega

/-- The process is between `start_script` and the end of its script. -/
def Process.InSession (self : Process) : Prop :=
  0 < self.client ∧
    match self.stage with
    | .claiming _ | .claimed _ _ _ | .working _ _ => True
    | _ => False

theorem Process.InSession.holds (h : a.InSession) : 1 ≤ a.holds a.client := by
  obtain ⟨-, h⟩ := h
  have hsame : same a.client a.client = 1 := if_pos rfl
  split at h <;> rename_i hs
  · rw [Process.holds_eq hs, Stage.holds_claiming, hsame]
  · rw [Process.holds_eq hs, Stage.holds_claimed, hsame]
  · rw [Process.holds_eq hs, Stage.holds_working, hsame]
    exact Nat.le_add_right _ _
  · cases h

/-- **At most one process of a client is in a session.** -/
theorem exclusive (h : Run step (fun s a => noFinish s a) (start filename script n) tr s)
    (hp : s.procs[p]? = some a) (hq : s.procs[q]? = some b) (ha : a.InSession) (hb : b.InSession)
    (hab : a.client = b.client) : p = q := by
  by_contra hpq
  have hcount := (holds_le_count h ha.1).trans (s.db.clients.count_le_one a.client)
  have htwo := add_le_total hpq hp hq (f := Process.holds a.client)
  have hone := ha.holds
  have hother := hb.holds
  rw [← hab] at hother
  omega

end

end Fstest.Mptest
