import Fstest.Lib.Run
import Fstest.Lib.Total
import Fstest.Mptest.Command
import Fstest.Mptest.Tables

/-!
# The master and its clients

The processes of one test and the database that they share. A step of a process is one SQL
statement on the shared tables, one transaction of `start_script`, or a part of its own work. What
a step depends on besides (the outcome of the script's own SQL, time, messages of the engine) is a
`Choice`, so the runs of this system are all interleavings of all scripts.

The SQL of a script works on tables of its own, apart from `wantHalt`, and each of its statements is
a transaction.
-/

namespace Fstest.Mptest

/-! ## Statements -/

/-- The statements of `finish_script`. -/
inductive Statement where
  | endTask (id : ℕ)
  | deleteClient (client : ℕ)
  deriving DecidableEq, Repr

def Statement.run (db : Tables) : Statement → Tables
  | .endTask id => { db with tasks := db.tasks.finish id }
  | .deleteClient client => { db with clients := db.clients.delete client }

def finishScript (client task : ℕ) (shutdown : Bool) : List Statement :=
  .endTask task :: if shutdown then [.deleteClient client] else []

/-! ## Processes -/

/-- A call of `run_script` that is under way, with what is left of it. It has the client and the
task of the process, or 0 for both: the script of the master, or one that `--source` reads. -/
structure Frame where
  own : Bool
  filename : Bytes
  script : Bytes
  events : List Event
  deriving DecidableEq, Repr

/-- What a process has still to do. -/
inductive Op where
  | script (f : Frame)
  /-- `run_script(conn, 0, 0, script, filename)` -/
  | runScript (filename script : Bytes)
  | insertClient (client : ℕ)
  | spawn (client : ℕ)
  | insertTask (client : ℕ) (name script : Bytes)
  | statement (st : Statement)
  | waitForClient (client : ℤ)
  | haltClients
  | pollClients
  | readCounters
  | summary
  deriving DecidableEq, Repr

inductive Stage where
  /-- The process opens the database. -/
  | startUp
  /-- In `start_script`, after it has waited for so many milliseconds. -/
  | claiming (waited : ℕ)
  /-- `start_script` has returned a task. -/
  | claimed (task : ℕ) (name script : Bytes)
  | working (task : ℕ) (ops : List Op)
  /-- On the way out. Without a code, the process returns from `mptest_main`. -/
  | leaving (sts : List Statement) (code : Option ℤ)
  | ended (code : ℤ)
  deriving DecidableEq, Repr

/-- A process, with `n_error` and `n_test`. The master is client 0. -/
structure Process where
  client : ℕ
  counts : Counts
  stage : Stage
  deriving DecidableEq

/-- What a step depends on besides the state. -/
structure Choice where
  /-- The messages of the engine's callbacks. -/
  messages : ℕ := 0
  /-- The outcome is the one hoped for: the result of a `--match`, a process that could be started,
  a query that was not given up. -/
  pass : Bool := true
  /-- The database is locked. -/
  busy : Bool := false
  /-- The SQL of a script asks all clients to halt. -/
  halt : Bool := false
  /-- How often a `COMMIT` found the database locked. -/
  retries : ℕ := 0
  /-- The outcomes of the `--if` expressions of a script. -/
  test : ℕ → Bool := fun _ => true
  /-- The files that `--source` reads: name and text, for the file that it stands in and its
  argument. -/
  source : Bytes → Bytes → Bytes × Bytes := fun _ _ => ([], [])

/-- What a step shows. -/
inductive Shown where
  | took (task : ℕ)
  | ran (task : ℕ)
  | printed (totals : Counts)
  deriving DecidableEq, Repr

/-- The result of a step of one process. -/
structure Outcome where
  db : Tables
  counts : Counts
  stage : Stage
  /-- The errors and tests that the step counts. -/
  made : Counts
  spawned : Option ℕ := none
  shown : Option Shown := none

namespace Process

variable (self : Process) (db : Tables) (c : Choice)

/-- The process goes on, after it has counted `made`. -/
def goOn (stage : Stage) (made : Counts) : Outcome :=
  { db, counts := self.counts + made, stage, made }

/-- One round of `start_script`: a failed `BEGIN IMMEDIATE`, or a transaction. -/
def startScript (waited : ℕ) : Outcome :=
  if c.busy then self.goOn db (.claiming (waited + 10)) (c.messages, 0)
  else
    let db := { db with counters := db.counters + self.counts }
    let self := { self with counts := 0 }
    if db.clients.halted self.client then
      self.goOn { db with clients := db.clients.delete self.client } (.leaving [] none)
        (c.messages, 0)
    else
      match db.tasks.next self.client with
      | some row =>
        { self.goOn { db with tasks := db.tasks.start row.id }
            (.claimed row.id row.name row.script) (c.messages, 0) with
          shown := some (.took row.id) }
      | none =>
        if 30000 < waited then
          self.goOn { db with clients := db.clients.delete self.client } (.leaving [] (some 1))
            (c.messages + 1, 0)
        else self.goOn db (.claiming (waited + 100 + 10 * c.retries)) (c.messages, 0)

/-- What a command other than `--exit` makes a process do next, and what it counts. -/
def effect (client task : ℕ) (filename : Bytes) : Command → List Op × Counts
  | .quiet | .exit _ => ([], (c.messages, 0))
  | .finish => ((finishScript client task true).map .statement, 0)
  | .compare => ([], (if c.pass then 0 else 1, 1))
  | .source name => ([.runScript (c.source filename name).1 (c.source filename name).2], 0)
  | .start target => (if 0 < target then [.insertClient target.toNat] else [], 0)
  | .wait target => ([.waitForClient target], 0)
  | .task target name script =>
    if target < 0 then ([], (1, 0))
    else ([.insertClient target.toNat, .insertTask target.toNat name script], 0)
  | .showSqlErrors arg => ([], (if arg.all isBoolean then 0 else 1, 0))
  | .unknown => ([], (1, 0))

/-- The client and the task that a call of `run_script` has. -/
def frameClient (f : Frame) : ℕ := if f.own then self.client else 0

def frameTask (task : ℕ) (f : Frame) : ℕ := if f.own then task else 0

/-- The next event of a script. -/
def runFrame (task : ℕ) (rest : List Op) (f : Frame) : Outcome :=
  match f.events with
  | [] => self.goOn db (.working task rest) 0
  | .sql _ _ :: es =>
    let clients := if c.halt then db.clients.haltAll else db.clients
    self.goOn { db with clients } (.working task (.script { f with events := es } :: rest))
      (c.messages, 0)
  | .command pos line _ :: es =>
    match parseCommand (self.frameClient f) f.filename f.script pos line with
    | .exit rc =>
      self.goOn db (.leaving (finishScript (self.frameClient f) (frameTask task f) true) (some rc)) 0
    | cmd =>
      let e := effect c (self.frameClient f) (frameTask task f) f.filename cmd
      self.goOn db (.working task (e.1 ++ .script { f with events := es } :: rest)) e.2

/-- Some task of a client, or of any client, has not ended. -/
def unfinished (client : ℤ) : Bool :=
  db.tasks.rows.any fun r =>
    (decide (client ≤ 0) || (r.client : ℤ) == client) && r.client ∈ db.clients.ids && !r.ended

/-- `sqlite3_column_int`, as a `u64`. -/
def columnInt (n : ℕ) : ℕ :=
  if n % 2 ^ 32 < 2 ^ 31 then n % 2 ^ 32 else 2 ^ 64 - 2 ^ 32 + n % 2 ^ 32

def runOp (task : ℕ) (rest : List Op) : Op → Outcome
  | .script f => self.runFrame db c task rest f
  | .runScript filename script =>
    let f := ⟨false, filename, script, runScript ⟨0, c.test⟩ script⟩
    self.goOn db (.working task (.script f :: rest)) 0
  | .insertClient client =>
    let ops := if client ∈ db.clients.ids then rest else .spawn client :: rest
    self.goOn { db with clients := db.clients.insert client } (.working task ops) (c.messages, 0)
  | .spawn client =>
    if c.pass then { self.goOn db (.working task rest) 0 with spawned := some client }
    else self.goOn db (.working task rest) (1, 0)
  | .insertTask client name script =>
    self.goOn { db with tasks := db.tasks.insert client name script } (.working task rest)
      (c.messages, 0)
  | .statement st => self.goOn (st.run db) (.working task rest) (c.messages, 0)
  | .waitForClient client =>
    if !c.pass then self.goOn db (.working task rest) (c.messages + 1, 0)
    else if unfinished db client then
      self.goOn db (.working task (.waitForClient client :: rest)) (c.messages, 0)
    else self.goOn db (.working task rest) (c.messages, 0)
  | .haltClients =>
    let clients := if c.pass then db.clients.haltAll else db.clients
    self.goOn { db with clients } (.working task rest) (c.messages, 0)
  | .pollClients => self.goOn db (.working task rest) (c.messages, 0)
  | .readCounters =>
    let self := if c.pass then
        { self with counts := ((self.counts.1 + columnInt db.counters.1) % 2 ^ 64,
          (self.counts.2 + columnInt db.counters.2) % 2 ^ 64) }
      else self
    self.goOn db (.working task rest) (c.messages, 0)
  | .summary =>
    { self.goOn db (.working task rest) (c.messages, 0) with
      shown := some (.printed (self.counts + (c.messages, 0))) }

/-- The code of a process that returns from `mptest_main`. -/
def exitCode (counts : Counts) : ℤ := if 0 < counts.1 then 1 else 0

/-- The next step of a process, if it has not ended. -/
def next : Option Outcome :=
  match self.stage with
  | .startUp =>
    if self.client = 0 then some (self.goOn db (.ended 1) 0)
    else some (self.goOn db (.claiming 0) (c.messages, 0))
  | .claiming waited => some (self.startScript db c waited)
  | .claimed task name script =>
    let f := ⟨true, name, script, runScript ⟨self.client, c.test⟩ script⟩
    some { self.goOn db (.working task [.script f]) 0 with shown := some (.ran task) }
  | .working task [] =>
    if self.client = 0 then some (self.goOn db (.ended (exitCode self.counts)) 0)
    else some (self.goOn ((Statement.endTask task).run db) (.claiming 0) (c.messages, 0))
  | .working task (op :: rest) => some (self.runOp db c task rest op)
  | .leaving [] none =>
    some (self.goOn db (.ended (exitCode (self.counts + (c.messages, 0)))) (c.messages, 0))
  | .leaving [] (some code) => some (self.goOn db (.ended code) 0)
  | .leaving (st :: sts) code => some (self.goOn (st.run db) (.leaving sts code) (c.messages, 0))
  | .ended _ => none

/-- The command that the next step carries out. -/
def command? : Option Command :=
  match self.stage with
  | .working _ (.script f :: _) =>
    match f.events with
    | .command pos line _ :: _ =>
      some (parseCommand (self.frameClient f) f.filename f.script pos line)
    | _ => none
  | _ => none

end Process

/-! ## The system -/

structure State where
  db : Tables
  procs : List Process
  deriving DecidableEq

/-- A process takes its next step, or dies by `fatal_error`, which asks all clients to halt if it
can. -/
inductive Action where
  | run (p : ℕ) (c : Choice)
  | fatal (p : ℕ) (halts : Bool)

/-- A step of process `p` on which nothing else happens. -/
def plain (p : ℕ) : Action := .run p {}

/-- What is seen of a step: who takes it, what it counts and what it shows. -/
structure Label where
  process : ℕ
  client : ℕ
  made : Counts
  shown : Option Shown
  deriving DecidableEq, Repr

/-- The process that `start_client` starts. -/
def spawned (client : ℕ) : Process := ⟨client, 0, .startUp⟩

/-- The state after the step of process `p`. -/
def State.after (s : State) (p : ℕ) (self : Process) (o : Outcome) : State where
  db := o.db
  procs := s.procs.set p ⟨self.client, o.counts, o.stage⟩ ++ (o.spawned.map spawned).toList

def step (s : State) : Action → Option (State × Label)
  | .run p c =>
    (s.procs[p]?).bind fun self =>
      (self.next s.db c).map fun o => (s.after p self o, ⟨p, self.client, o.made, o.shown⟩)
  | .fatal p halts =>
    (s.procs[p]?).bind fun self =>
      match self.stage with
      | .ended _ => none
      | _ =>
        let db := if halts then { s.db with clients := s.db.clients.haltAll } else s.db
        some (s.after p self ⟨db, self.counts, .ended 1, 0, none, none⟩, ⟨p, self.client, 0, none⟩)

/-- What the master does: it runs the script `n` times and shuts down. -/
def masterOps (filename script : Bytes) (n : ℕ) : List Op :=
  List.replicate n (.runScript filename script) ++
    [.waitForClient 0, .haltClients, .pollClients, .readCounters, .summary]

def start (filename script : Bytes) (n : ℕ) : State :=
  ⟨.empty, [⟨0, 0, .working 0 (masterOps filename script n)⟩]⟩

/-! ## What a step changes -/

section

variable {s s' : State} {p q : ℕ} {self x : Process} {o : Outcome} {a : Action} {e : Label}

/-- The result of a process that dies. -/
structure Outcome.Fatal (db : Tables) (self : Process) (o : Outcome) : Prop where
  tasks : o.db.tasks = db.tasks
  clients : ∀ i, o.db.clients.count i = db.clients.count i
  counters : o.db.counters = db.counters
  counts : o.counts = self.counts
  stage : o.stage = .ended 1
  made : o.made = 0
  spawned : o.spawned = none
  shown : o.shown = none

/-- A step is the next step of a process, or its death. -/
theorem step_cases (h : step s a = some (s', e)) :
    ∃ p self o, s.procs[p]? = some self ∧ s' = s.after p self o ∧
      e = ⟨p, self.client, o.made, o.shown⟩ ∧
      ((∃ c, a = .run p c ∧ self.next s.db c = some o) ∨
        ∃ halts, a = .fatal p halts ∧ o.Fatal s.db self) := by
  cases a with
  | run p c =>
    obtain ⟨self, hp, h⟩ := Option.bind_eq_some_iff.mp h
    obtain ⟨o, ho, heq⟩ := Option.map_eq_some_iff.mp h
    cases heq
    exact ⟨p, self, o, hp, rfl, rfl, .inl ⟨c, rfl, ho⟩⟩
  | fatal p halts =>
    obtain ⟨self, hp, h⟩ := Option.bind_eq_some_iff.mp h
    split at h
    · cases h
    · cases h
      refine ⟨p, self, _, hp, rfl, rfl, .inr ⟨halts, rfl, ?_⟩⟩
      constructor <;> cases halts <;> simp

/-- After a step a process is the one that took it, an old one, or the one it has started. -/
theorem getElem?_after (h : (s.after p self o).procs[q]? = some x) :
    (q = p ∧ x = ⟨self.client, o.counts, o.stage⟩) ∨ (q ≠ p ∧ s.procs[q]? = some x) ∨
      (q = s.procs.length ∧ ∃ i, o.spawned = some i ∧ x = spawned i) := by
  rw [State.after, List.getElem?_append] at h
  split at h
  · rw [List.getElem?_set] at h
    split at h
    · rename_i hq
      split at h
      · exact .inl ⟨hq.symm, (Option.some.inj h).symm⟩
      · cases h
    · rename_i hq
      exact .inr (.inl ⟨Ne.symm hq, h⟩)
  · rename_i hlt
    rw [List.length_set] at h hlt
    refine .inr (.inr ?_)
    cases hs : o.spawned with
    | none => simp [hs] at h
    | some i =>
      rw [hs, Option.map_some, Option.toList_some, List.getElem?_singleton] at h
      split at h
      · exact ⟨by omega, i, rfl, (Option.some.inj h).symm⟩
      · cases h

theorem total_after {M : Type} [AddCommMonoid M] (f : Process → M) (h : s.procs[p]? = some self) :
    total f (s.after p self o).procs + f self =
      total f s.procs + f ⟨self.client, o.counts, o.stage⟩ + total (f ∘ spawned) o.spawned.toList := by
  have hspawned : total f (o.spawned.map spawned).toList = total (f ∘ spawned) o.spawned.toList := by
    cases o.spawned <;> rfl
  rw [State.after, total_append, hspawned, add_right_comm, total_set h]

end

end Fstest.Mptest
