import Fstest.Mptest.Claiming
import Fstest.Mptest.Counters

/-!
# Waiting for the clients

`--wait` polls until no task of a client that has a row is without an end. A process has a task from its
transaction in `start_script` until it ends it, and the row of the task is open for as long
(`Tends.current`). So when a `--wait` goes on without a timeout no client that it waits for is in a script,
and of their tasks all have been run (`waited`). Scripts that use `--finish` end their task before they have
done with it, so these runs are without it.
-/

namespace Fstest.Mptest

open Labelled

/-! ## Open tasks -/

namespace TaskTable

variable {t : TaskTable} {id id' client : ℕ}

/-- The task is in the table and has not been ended. -/
def Open (t : TaskTable) (id client : ℕ) : Prop :=
  ∃ r ∈ t.rows, r.id = id ∧ r.client = client ∧ r.ended = false

theorem Open.insert (h : t.Open id client) (client' : ℕ) (name script : Bytes) :
    (t.insert client' name script).Open id client := by
  obtain ⟨r, hr, hrow⟩ := h
  exact ⟨r, List.mem_append_left _ hr, hrow⟩

theorem Open.start (h : t.Open id client) (id' : ℕ) : (t.start id').Open id client := by
  obtain ⟨r, hr, hid, hclient, hended⟩ := h
  refine ⟨_, mem_start.mpr ⟨r, hr, rfl⟩, ?_⟩
  split <;> exact ⟨hid, hclient, hended⟩

theorem Open.finish (h : t.Open id client) (hne : id ≠ id') : (t.finish id').Open id client := by
  obtain ⟨r, hr, rfl, hrow⟩ := h
  exact ⟨_, List.mem_map.mpr ⟨r, hr, if_neg hne⟩, rfl, hrow⟩

/-- A task has one client. -/
theorem Open.client_eq {client' : ℕ} (h : t.Open id client) (h' : t.Open id client') : client = client' := by
  obtain ⟨r, hr, hid, hclient, -⟩ := h
  obtain ⟨r', hr', hid', hclient', -⟩ := h'
  obtain rfl := t.eq_of_id_eq hr hr' (hid.trans hid'.symm)
  exact hclient.symm.trans hclient'

theorem Open.client_of_mem {r : TaskRow} (h : t.Open r.id client) (hr : r ∈ t.rows) : r.client = client := by
  obtain ⟨r', hr', hid', hclient', -⟩ := h
  obtain rfl := t.eq_of_id_eq hr' hr hid'
  exact hclient'

end TaskTable

/-! ## What a step does to tasks -/

/-- The task that a process has. It has none behind the `--exit` of a file that another script reads. -/
def Stage.current? : Stage → Option ℕ
  | .claimed task _ _ => some task
  | .working task _ => some task
  | .leaving (.endTask task :: _) _ => if task = 0 then none else some task
  | _ => none

/-- The operations are not those of a `--finish`. -/
def StatementFree (ops : List Op) : Prop := ∀ st, Op.statement st ∉ ops

/-- A step of a process that does not carry out a `--finish`. -/
inductive TaskMove (self : Process) (db : Tables) (o : Outcome) : Prop
  | takes (row : TaskRow) (name script : Bytes) (claiming : self.stage.isClaiming = true)
      (next : db.tasks.next self.client = some row)
      (tasks : o.db.tasks = db.tasks.start row.id) (stage : o.stage = .claimed row.id name script)
  | begins (task : ℕ) (name script : Bytes) (f : Frame) (has : self.stage = .claimed task name script)
      (tasks : o.db.tasks = db.tasks) (shown : o.shown = some (.ran task))
      (stage : o.stage = .working task [.script f])
  | goesOn (task : ℕ) (ops ops' : List Op) (has : self.stage = .working task ops)
      (free : StatementFree ops → StatementFree ops') (stage : o.stage = .working task ops')
      (tasks : o.db.tasks = db.tasks ∨
        ∃ client name script, o.db.tasks = db.tasks.insert client name script)
  | exits (task : ℕ) (ops : List Op) (f : Frame) (rc : ℤ) (has : self.stage = .working task ops)
      (tasks : o.db.tasks = db.tasks)
      (stage : o.stage =
        .leaving (finishScript (self.frameClient f) (Process.frameTask task f) true) (some rc))
  | ends (task : ℕ) (client : self.client ≠ 0) (has : self.stage = .working task []) (tasks :
    o.db.tasks = db.tasks.finish task)
      (stage : o.stage = .claiming 0)
  | leaves (st : Statement) (sts : List Statement) (code : Option ℤ)
      (has : self.stage = .leaving (st :: sts) code) (tasks : o.db.tasks = (st.run db).tasks)
      (stage : o.stage = .leaving sts code)
  | idle (tasks : o.db.tasks = db.tasks) (none : o.stage.current? = none)
      (leaving : ∀ sts code, o.stage = .leaving sts code → sts = [])

section

variable {self : Process} {db : Tables} {c : Choice} {o : Outcome} {task : ℕ} {rest ops : List Op}

theorem TaskMove.quiet (has : self.stage = .working task ops)
    (free : StatementFree ops → StatementFree rest) (stage : o.stage = .working task rest)
    (tasks : o.db.tasks = db.tasks) : TaskMove self db o :=
  .goesOn task ops rest has free stage (.inl tasks)

theorem StatementFree.tail {op : Op} (h : StatementFree (op :: rest)) : StatementFree rest :=
  fun st hst => h st (List.mem_cons_of_mem _ hst)

theorem StatementFree.cons {op : Op} (h : StatementFree rest) (hop : ∀ st, op ≠ .statement st) :
    StatementFree (op :: rest) := by
  intro st hst
  rcases List.mem_cons.mp hst with heq | hmem
  · exact hop st heq.symm
  · exact h st hmem

theorem StatementFree.append {ops' : List Op} (h : StatementFree ops) (h' : StatementFree ops') :
    StatementFree (ops ++ ops') := fun st hst => (List.mem_append.mp hst).elim (h st) (h' st)

/-- Only `--finish` brings statements. -/
theorem statementFree_effect (c : Choice) (client task : ℕ) (filename : Bytes) {cmd : Command}
    (h : cmd ≠ .finish) : StatementFree (Process.effect c client task filename cmd).1 := by
  intro st
  cases cmd with
  | finish => exact absurd rfl h
  | quiet | exit | compare | wait | showSqlErrors | unknown | source => simp [Process.effect]
  | start target =>
    simp only [Process.effect]
    split <;> simp
  | task target name script =>
    simp only [Process.effect]
    split <;> simp

theorem Process.startScript_taskMove {waited : ℕ} (hs : self.stage = .claiming waited) :
    TaskMove self db (self.startScript db c waited) := by
  have hidle : ∀ {o : Outcome} {w : ℕ}, o.db.tasks = db.tasks → o.stage = .claiming w →
      TaskMove self db o := fun htasks hstage =>
    .idle htasks (by rw [hstage]; rfl) fun sts code h => by rw [hstage] at h; cases h
  have hleave : ∀ {o : Outcome} {code : Option ℤ}, o.db.tasks = db.tasks → o.stage = .leaving [] code →
      TaskMove self db o := fun htasks hstage =>
    .idle htasks (by rw [hstage]; rfl) fun sts code h => by rw [hstage] at h; cases h; rfl
  unfold Process.startScript
  split
  · exact hidle rfl rfl
  · dsimp only
    split
    · exact hleave rfl rfl
    · split
      · rename_i row hrow
        exact .takes row row.name row.script (by rw [hs]; rfl) hrow rfl rfl
      · split
        · exact hleave rfl rfl
        · exact hidle rfl rfl

theorem Process.runFrame_taskMove {f : Frame} (hs : self.stage = .working task (.script f :: rest))
    (hf : self.command? ≠ some .finish) : TaskMove self db (self.runFrame db c task rest f) := by
  rw [Process.command?, hs] at hf
  unfold Process.runFrame
  split
  · exact .quiet hs StatementFree.tail rfl rfl
  · exact .quiet hs (fun h => h.tail.cons fun st => by simp) rfl rfl
  · rename_i hev
    simp only [hev] at hf
    split
    · rename_i rc _
      exact .exits task _ f rc hs rfl rfl
    · have hfree := statementFree_effect c (self.frameClient f) (frameTask task f) f.filename
        (fun heq => hf (congrArg some heq))
      exact .quiet hs (fun h => hfree.append (h.tail.cons fun st => by simp)) rfl rfl

theorem Process.runOp_taskMove {op : Op} (hs : self.stage = .working task (op :: rest))
    (hfree : StatementFree (op :: rest)) (hf : self.command? ≠ some .finish) :
    TaskMove self db (self.runOp db c task rest op) := by
  cases op with
  | script f => exact Process.runFrame_taskMove hs hf
  | statement st => exact absurd List.mem_cons_self (hfree st)
  | insertTask client name script =>
    exact .goesOn task _ rest hs StatementFree.tail rfl (.inr ⟨client, name, script, rfl⟩)
  | insertClient client =>
    refine .quiet hs (fun h => ?_) rfl rfl
    split
    · exact h.tail
    · exact h.tail.cons fun st => by simp
  | spawn client =>
    rw [Process.runOp]
    split <;> exact .quiet hs StatementFree.tail rfl rfl
  | waitForClient client =>
    rw [Process.runOp]
    split
    · exact .quiet hs StatementFree.tail rfl rfl
    · split
      · exact .quiet hs id rfl rfl
      · exact .quiet hs StatementFree.tail rfl rfl
  | runScript filename script =>
    exact .quiet hs (fun h => h.tail.cons fun st => by simp) rfl rfl
  | haltClients | pollClients | readCounters | summary => exact .quiet hs StatementFree.tail rfl rfl

theorem Process.next_taskMove (h : self.next db c = some o) (hf : self.command? ≠ some .finish)
    (hfree : ∀ task ops, self.stage = .working task ops → StatementFree ops) : TaskMove self db o := by
  unfold Process.next at h
  split at h <;> rename_i hs
  · split_ifs at h <;> cases h
    · exact .idle rfl rfl fun sts code h => by cases h
    · exact .idle rfl rfl fun sts code h => by cases h
  · cases h
    exact Process.startScript_taskMove hs
  · cases h
    exact .begins _ _ _ _ hs rfl rfl rfl
  · split_ifs at h with hclient <;> cases h
    · exact .idle rfl rfl fun sts code h => by cases h
    · exact .ends _ hclient hs rfl rfl
  · cases h
    exact Process.runOp_taskMove hs (hfree _ _ hs) hf
  · cases h
    exact .idle rfl rfl fun sts code h => by cases h
  · cases h
    exact .idle rfl rfl fun sts code h => by cases h
  · cases h
    exact .leaves _ _ _ hs rfl rfl
  · cases h

end

/-! ## The invariant -/

/-- What is known of a process after a run that shows `tr`. -/
structure Process.Tends (tr : List Label) (db : Tables) (x : Process) : Prop where
  free : ∀ task ops, x.stage = .working task ops → StatementFree ops
  leaving : ∀ st sts code, x.stage = .leaving (st :: sts) code → (∀ task, .endTask task ∉ sts) ∧
    ∀ task, st = .endTask task → task ≠ 0 → sts = [.deleteClient x.client]
  pos : 0 < x.client → x.stage.current? ≠ some 0
  /-- The task of a process is open, and it has been run unless it is going to be. -/
  current : ∀ task, x.stage.current? = some task → task ≠ 0 →
    0 < x.client ∧ db.tasks.Open task x.client ∧
      (x.stage.task? = none → task ∈ ranBy x.client tr)

structure Tended (tr : List Label) (s : State) : Prop where
  ids_pos : ∀ r ∈ s.db.tasks.rows, 0 < r.id
  ended : ∀ r ∈ s.db.tasks.rows, r.ended = true → r.id ∈ ranBy r.client tr
  procs : ∀ (p : ℕ) (self : Process), s.procs[p]? = some self → self.Tends tr s.db

section

variable {self x : Process} {db db' : Tables} {o : Outcome} {tr : List Label} {e : Label} {task : ℕ}

/-- A process that has no task. -/
theorem Process.Tends.of_none (hnone : self.stage.current? = none)
    (hleaving : ∀ st sts code, self.stage = .leaving (st :: sts) code →
      (∀ task, .endTask task ∉ sts) ∧ ∀ task, st = .endTask task → task = 0) : self.Tends tr db where
  free task ops hs := by
    rw [hs] at hnone
    cases hnone
  leaving st sts code hs :=
    ⟨(hleaving st sts code hs).1, fun task hst hne => absurd ((hleaving st sts code hs).2 task hst) hne⟩
  pos _ := by simp [hnone]
  current task h := by
    rw [hnone] at h
    cases h

theorem ranBy_subset (i : ℕ) (tr : List Label) (e : Label) : ranBy i tr ⊆ ranBy i (tr ++ [e]) := by
  rw [ranBy_append]
  exact List.subset_append_left _ _

/-- A process that does nothing, while its task stays open. -/
theorem Process.Tends.mono (h : x.Tends tr db) (e : Label)
    (hopen : ∀ task, x.stage.current? = some task → task ≠ 0 → db.tasks.Open task x.client →
      db'.tasks.Open task x.client) : x.Tends (tr ++ [e]) db' where
  free := h.free
  leaving := h.leaving
  pos := h.pos
  current task ht hne := by
    obtain ⟨hpos, hrow, hran⟩ := h.current task ht hne
    exact ⟨hpos, hopen task ht hne hrow, fun hnone => ranBy_subset _ _ _ (hran hnone)⟩

/-- Who has a task holds the row of its client. -/
theorem Process.Tends.holds (h : self.Tends tr db) (ht : self.stage.current? = some task) (hne : task ≠ 0) :
    1 ≤ self.holds self.client := by
  have hsame : same self.client self.client = 1 := if_pos rfl
  unfold Stage.current? at ht
  split at ht
  · rename_i hs
    rw [Process.holds_eq hs, Stage.holds_claimed, hsame]
  · rename_i hs
    rw [Process.holds_eq hs, Stage.holds_working, hsame]
    exact Nat.le_add_right _ _
  · rename_i task' sts code hs
    have htask : task' = task := by
      split at ht
      · cases ht
      · exact Option.some.inj ht
    rw [Process.holds_eq hs, Stage.holds_leaving, (h.leaving _ _ _ hs).2 _ rfl (htask ▸ hne)]
    simp [total, Statement.holds, hsame]
  · cases ht

/-- The process that has taken the step. -/
theorem Process.Tends.after (h : self.Tends tr db) (hmove : TaskMove self db o)
    (he : e.client = self.client) (hshow : e.shown = o.shown)
    (hids : ∀ r ∈ db.tasks.rows, 0 < r.id)
    (hnew : ∀ row, self.stage.isClaiming = true → db.tasks.next self.client = some row →
      0 < self.client ∧ row.ended = false) :
    (⟨self.client, o.counts, o.stage⟩ : Process).Tends (tr ++ [e]) o.db := by
  cases hmove with
  | takes row name script hclaiming hnext htasks hstage =>
    obtain ⟨hpos, hended⟩ := hnew row hclaiming hnext
    obtain ⟨hmem, hclient, -, -⟩ := TaskTable.next_spec hnext
    refine ⟨fun _ _ hs => ?_, fun _ _ _ hs => ?_, fun _ => ?_, fun task ht _ => ?_⟩
    · cases hstage.symm.trans hs
    · cases hstage.symm.trans hs
    · rw [hstage]
      exact fun heq => (hids row hmem).ne' (Option.some.inj heq)
    · obtain rfl : row.id = task := by rw [hstage] at ht; exact Option.some.inj ht
      refine ⟨hpos, ?_, fun hnone => by rw [hstage] at hnone; cases hnone⟩
      rw [htasks]
      exact TaskTable.Open.start ⟨row, hmem, rfl, hclient, hended⟩ _
  | begins task name script f has htasks hshown hstage =>
    have hcurrent : self.stage.current? = some task := by rw [has]; rfl
    have hsame : o.stage.current? = self.stage.current? := by rw [hstage, has]; rfl
    refine ⟨fun _ _ hs => ?_, fun _ _ _ hs => ?_, fun hpos => ?_, fun task' ht hne => ?_⟩
    · cases hstage.symm.trans hs
      exact fun st => by simp
    · cases hstage.symm.trans hs
    · rw [hsame]
      exact h.pos hpos
    · obtain rfl : task = task' := by rw [hstage] at ht; exact Option.some.inj ht
      obtain ⟨hpos, hrow, -⟩ := h.current task hcurrent hne
      refine ⟨hpos, by rwa [htasks], fun _ => ?_⟩
      rw [ranBy_self he (hshow.trans hshown)]
      exact List.mem_append_right _ (List.mem_singleton_self task)
  | goesOn task ops ops' has hfree hstage htasks =>
    have hcurrent : self.stage.current? = some task := by rw [has]; rfl
    have hsame : o.stage.current? = self.stage.current? := by rw [hstage, has]; rfl
    refine ⟨fun _ _ hs => ?_, fun _ _ _ hs => ?_, fun hpos => ?_, fun task' ht hne => ?_⟩
    · cases hstage.symm.trans hs
      exact hfree (h.free task ops has)
    · cases hstage.symm.trans hs
    · rw [hsame]
      exact h.pos hpos
    · obtain rfl : task = task' := by rw [hstage] at ht; exact Option.some.inj ht
      obtain ⟨hpos, hrow, hran⟩ := h.current task hcurrent hne
      refine ⟨hpos, ?_, fun _ => ranBy_subset _ _ _ (hran (by rw [has]; rfl))⟩
      rcases htasks with htasks | ⟨client, name, script, htasks⟩
      · rwa [htasks]
      · rw [htasks]
        exact hrow.insert _ _ _
  | exits task ops f rc has htasks hstage =>
    have hcurrent : self.stage.current? = some task := by rw [has]; rfl
    have hafter : o.stage.current? = if Process.frameTask task f = 0 then none else some
      (Process.frameTask task f) := by
      rw [hstage]
      rfl
    -- A task that is left is the own one of the process.
    have hown : ∀ task', o.stage.current? = some task' → task' ≠ 0 ∧ f.own = true ∧ task' = task := by
      intro task' ht
      rw [hafter] at ht
      split at ht
      · cases ht
      · rename_i hne
        obtain rfl := Option.some.inj ht
        refine ⟨hne, ?_⟩
        rw [Process.frameTask] at hne ⊢
        split at hne
        · rename_i hf
          exact ⟨hf, if_pos hf⟩
        · exact absurd rfl hne
    refine ⟨fun _ _ hs => ?_, fun _ _ _ hs => ?_, fun _ hzero => ?_, fun task' ht hne => ?_⟩
    · cases hstage.symm.trans hs
    · cases hstage.symm.trans hs
      refine ⟨fun task => by simp, fun task' heq hne => ?_⟩
      cases heq
      obtain ⟨-, hf, -⟩ := hown _ (hafter.trans (if_neg hne))
      simp [Process.frameClient, hf]
    · exact (hown 0 hzero).1 rfl
    · obtain ⟨-, hf, rfl⟩ := hown task' ht
      obtain ⟨hpos, hrow, hran⟩ := h.current task' hcurrent hne
      exact ⟨hpos, by rwa [htasks], fun _ => ranBy_subset _ _ _ (hran (by rw [has]; rfl))⟩
  | ends task hclient has htasks hstage =>
    exact .of_none (by rw [hstage]; rfl) fun _ _ _ hs => by cases hstage.symm.trans hs
  | leaves st sts code has htasks hstage =>
    obtain ⟨hno, -⟩ := h.leaving st sts code has
    refine .of_none ?_ fun st' sts' code' hs => ?_
    · rw [hstage]
      cases sts with
      | nil => rfl
      | cons st' sts =>
        cases st' with
        | endTask task => exact absurd List.mem_cons_self (hno task)
        | deleteClient client => rfl
    · cases hstage.symm.trans hs
      exact ⟨fun task hmem => hno task (List.mem_cons_of_mem _ hmem),
        fun task heq => absurd (heq ▸ List.mem_cons_self) (hno task)⟩
  | idle htasks hnone hleaving =>
    refine .of_none hnone fun st sts code hs => ?_
    cases hleaving _ _ hs

/-- Only its process ends a task. -/
theorem TaskMove.opens (hmove : TaskMove self db o) {id client : ℕ} (h : db.tasks.Open id client)
    (hid : id ≠ 0) (hother : self.stage.current? ≠ some id) : o.db.tasks.Open id client := by
  cases hmove with
  | takes row _ _ _ _ htasks _ =>
    rw [htasks]
    exact h.start row.id
  | begins _ _ _ _ _ htasks _ _ => rwa [htasks]
  | goesOn _ _ _ _ _ _ htasks =>
    rcases htasks with htasks | ⟨client, name, script, htasks⟩
    · rwa [htasks]
    · rw [htasks]
      exact h.insert _ _ _
  | exits _ _ _ _ _ htasks _ => rwa [htasks]
  | ends task _ has htasks _ =>
    rw [htasks]
    refine h.finish fun heq => hother ?_
    rw [has, heq]
    rfl
  | leaves st sts code has htasks _ =>
    rw [htasks]
    cases st with
    | endTask task =>
      refine h.finish fun heq => hother ?_
      rw [has, ← heq]
      exact if_neg hid
    | deleteClient client => exact h
  | idle htasks _ _ => rwa [htasks]

/-- The row was there before, or it is new. If it has been ended, it was so before, or it is the one of the
process. -/
theorem TaskMove.rows (hmove : TaskMove self db o) (hids : ∀ r ∈ db.tasks.rows, 0 < r.id) {r' : TaskRow}
    (hr' : r' ∈ o.db.tasks.rows) : (0 < r'.id ∧ r'.ended = false) ∨
      ∃ r ∈ db.tasks.rows, r.id = r'.id ∧ r.client = r'.client ∧ (r'.ended = true →
        r.ended = true ∨ self.stage.current? = some r.id ∧ self.stage.task? = none) := by
  have hkept : o.db.tasks = db.tasks → (0 < r'.id ∧ r'.ended = false) ∨
      ∃ r ∈ db.tasks.rows, r.id = r'.id ∧ r.client = r'.client ∧ (r'.ended = true →
        r.ended = true ∨ self.stage.current? = some r.id ∧ self.stage.task? = none) :=
    fun htasks => .inr ⟨r', htasks ▸ hr', rfl, rfl, .inl⟩
  -- The row that is ended is the one of the process, if there is one.
  have hfinish : ∀ task, o.db.tasks = db.tasks.finish task →
      (task ≠ 0 → self.stage.current? = some task ∧ self.stage.task? = none) →
      ∃ r ∈ db.tasks.rows, r.id = r'.id ∧ r.client = r'.client ∧ (r'.ended = true →
        r.ended = true ∨ self.stage.current? = some r.id ∧ self.stage.task? = none) := by
    intro task htasks htask
    rw [htasks] at hr'
    obtain ⟨r, hr, rfl⟩ := List.mem_map.mp hr'
    refine ⟨r, hr, ?_⟩
    split
    · rename_i hid
      exact ⟨rfl, rfl, fun _ => .inr (hid ▸ htask (hid ▸ (hids r hr).ne'))⟩
    · exact ⟨rfl, rfl, .inl⟩
  cases hmove with
  | takes row _ _ _ _ htasks _ =>
    rw [htasks] at hr'
    obtain ⟨r, hr, rfl⟩ := TaskTable.mem_start.mp hr'
    refine .inr ⟨r, hr, ?_⟩
    split <;> exact ⟨rfl, rfl, .inl⟩
  | begins _ _ _ _ _ htasks _ _ => exact hkept htasks
  | goesOn _ _ _ _ _ _ htasks =>
    rcases htasks with htasks | ⟨client, name, script, htasks⟩
    · exact hkept htasks
    · rw [htasks] at hr'
      rcases List.mem_append.mp hr' with hr' | hr'
      · exact .inr ⟨r', hr', rfl, rfl, .inl⟩
      · rw [List.mem_singleton.mp hr']
        exact .inl ⟨Nat.succ_pos _, rfl⟩
  | exits _ _ _ _ _ htasks _ => exact hkept htasks
  | ends task _ has htasks _ =>
    exact .inr (hfinish task htasks fun _ => by rw [has]; exact ⟨rfl, rfl⟩)
  | leaves st sts code has htasks _ =>
    cases st with
    | endTask task =>
      exact .inr (hfinish task htasks fun hne => by rw [has]; exact ⟨if_neg hne, rfl⟩)
    | deleteClient client => exact hkept htasks
  | idle htasks _ _ => exact hkept htasks

end

/-! ## Runs -/

section

variable {filename script : Bytes} {n p q : ℕ} {tr : List Label} {s : State} {a b : Process} {t t' : ℕ}

/-- Two processes with tasks have different clients. -/
theorem eq_of_current (h : Run step (fun s a => noFinish s a) (start filename script n) tr s)
    (htended : Tended tr s) (hp : s.procs[p]? = some a) (hq : s.procs[q]? = some b)
    (ha : a.stage.current? = some t) (hb : b.stage.current? = some t') (ht : t ≠ 0) (ht' : t' ≠ 0)
    (hab : a.client = b.client) : p = q := by
  by_contra hpq
  have hpos := ((htended.procs p a hp).current t ha ht).1
  have hcount := (holds_le_count h hpos).trans (s.db.clients.count_le_one a.client)
  have htwo := add_le_total hpq hp hq (f := Process.holds a.client)
  have hone := (htended.procs p a hp).holds ha ht
  have hother := (htended.procs q b hq).holds hb ht'
  rw [← hab] at hother
  omega

/-- A task that is given away has not been ended. -/
theorem Tended.next_not_ended (h : Tended tr s) (hordered : Ordered tr s) {row : TaskRow} {client : ℕ}
    (hnext : s.db.tasks.next client = some row) : row.ended = false := by
  obtain ⟨hmem, -, hnot, -⟩ := TaskTable.next_spec hnext
  by_contra hended
  have hran := h.ended row hmem ((Bool.not_eq_false _).mp hended)
  obtain ⟨r, hr, hid, -, hstarted⟩ := hordered.took _ _ ((hordered.ran _).subset hran)
  obtain rfl := s.db.tasks.eq_of_id_eq hr hmem hid
  rw [hnot] at hstarted
  cases hstarted

theorem tended_start (filename script : Bytes) (n : ℕ) : Tended [] (start filename script n) where
  ids_pos _ hr := nomatch hr
  ended _ hr := nomatch hr
  procs p self hp := by
    have hself : self ∈ (start filename script n).procs := List.mem_of_getElem? hp
    obtain rfl := List.mem_singleton.mp hself
    refine ⟨fun task ops hs st hst => ?_, fun _ _ _ hs => (by cases hs), fun hpos => absurd hpos
      (Nat.lt_irrefl 0),
      fun task ht hne => ?_⟩
    · cases hs
      rcases List.mem_append.mp hst with hst | hst
      · cases List.eq_of_mem_replicate hst
      · simp at hst
    · cases ht
      exact absurd rfl hne

/-- **Processes tend to their tasks, after every run.** -/
theorem tended (h : Run step (fun s a => noFinish s a) (start filename script n) tr s) : Tended tr s := by
  refine h.invariant (tended_start filename script n) ?_
  intro tr s a s' e hrun ih hf hs
  obtain ⟨p, self, o, hp, rfl, rfl, hcase⟩ := step_cases hs
  have hself := ih.procs p self hp
  have hstarts : ∀ i, (spawned i).Tends (tr ++ [⟨p, self.client, o.made, o.shown⟩]) o.db := fun i =>
    .of_none rfl fun _ _ _ hs => by cases hs
  rcases hcase with ⟨c, rfl, ho⟩ | ⟨halts, -, hdead⟩
  · have hmove := Process.next_taskMove ho (by simpa [noFinish, hp] using hf) hself.free
    constructor
    · intro r' hr'
      rcases hmove.rows ih.ids_pos hr' with ⟨hpos, -⟩ | ⟨r, hr, hid, -, -⟩
      · exact hpos
      · exact hid ▸ ih.ids_pos r hr
    · intro r' hr' hended
      rcases hmove.rows ih.ids_pos hr' with ⟨-, hnot⟩ | ⟨r, hr, hid, hclient, hwas⟩
      · rw [hended] at hnot
        cases hnot
      · rw [← hid, ← hclient]
        refine ranBy_subset _ _ _ ?_
        rcases hwas hended with hwas | ⟨hcurrent, hnone⟩
        · exact ih.ended r hr hwas
        · obtain ⟨-, hrow, hran⟩ := hself.current r.id hcurrent (ih.ids_pos r hr).ne'
          rw [hrow.client_of_mem hr]
          exact hran hnone
    · intro q x hq
      rcases getElem?_after hq with ⟨-, rfl⟩ | ⟨hne, hq⟩ | ⟨-, i, -, rfl⟩
      · exact hself.after hmove rfl rfl ih.ids_pos fun row hclaiming hnext =>
          ⟨(ordered hrun).claiming p self hp hclaiming, ih.next_not_ended (ordered hrun) hnext⟩
      · refine (ih.procs q x hq).mono _ fun task ht hne' hopen => hmove.opens hopen hne' fun hcurrent => ?_
        refine hne (eq_of_current hrun ih hq hp ht hcurrent hne' hne' ?_)
        exact hopen.client_eq (hself.current task hcurrent hne').2.1
      · exact hstarts i
  · obtain ⟨htasks, -, -, -, hstage, -, -, hshown⟩ := hdead
    constructor
    · intro r hr
      exact ih.ids_pos r (htasks ▸ hr)
    · intro r hr hended
      exact ranBy_subset _ _ _ (ih.ended r (htasks ▸ hr) hended)
    · intro q x hq
      rcases getElem?_after hq with ⟨-, rfl⟩ | ⟨-, hq⟩ | ⟨-, i, -, rfl⟩
      · exact .of_none (by rw [hstage]; rfl) fun _ _ _ hs => by cases hstage.symm.trans hs
      · exact (ih.procs q x hq).mono _ fun _ _ _ hopen => htasks ▸ hopen
      · exact hstarts i

/-- `--wait` waits for the client. -/
def Awaited (target : ℤ) (client : ℕ) : Prop := target ≤ 0 ∨ (client : ℤ) = target

theorem unfinished_of_row {db : Tables} {target : ℤ} {r : TaskRow} (hr : r ∈ db.tasks.rows)
    (hawaited : Awaited target r.client) (hclient : r.client ∈ db.clients.ids) (hended : r.ended = false) :
    Process.unfinished db target = true := by
  refine List.any_eq_true.mpr ⟨r, hr, ?_⟩
  have htarget : (decide (target ≤ 0) || (r.client : ℤ) == target) = true := by
    rcases hawaited with hle | heq
    · rw [decide_eq_true hle, Bool.true_or]
    · rw [beq_iff_eq.mpr heq, Bool.or_true]
  simp [htarget, hclient, hended]

/-- A client in a script keeps others waiting. -/
theorem unfinished_of_current (h : Run step (fun s a => noFinish s a) (start filename script n) tr s)
    (hp : s.procs[p]? = some a) (ha : a.stage.current? = some t) (hpos : 0 < a.client) {target : ℤ}
    (hawaited : Awaited target a.client) : Process.unfinished s.db target = true := by
  have htends := (tended h).procs p a hp
  have ht : t ≠ 0 := fun hzero => htends.pos hpos (hzero ▸ ha)
  obtain ⟨r, hr, -, hclient, hended⟩ := (htends.current t ha ht).2.1
  refine unfinished_of_row hr (hclient ▸ hawaited) ?_ hended
  have hcount := holds_le_count h hpos
  have hholds := le_total hp (f := Process.holds a.client)
  have hone := htends.holds ha ht
  rw [hclient]
  exact List.count_pos_iff.mp (by change 0 < s.db.clients.count a.client; omega)

/-- **A `--wait` that does not time out waits for all**: no client that it waits for is in a script, and all
tasks of those that have a row have been run and ended. -/
theorem waited {s' : State} {self : Process} {task : ℕ} {rest : List Op} {target : ℤ} {c : Choice} {e :
    Label}
    (h : Run step (fun s a => noFinish s a) (start filename script n) tr s)
    (hp : s.procs[p]? = some self) (hs : self.stage = .working task (.waitForClient target :: rest))
    (hc : c.pass = true) (hstep : step s (.run p c) = some (s', e))
    (hon : s'.procs[p]?.map Process.stage = some (.working task rest)) :
    (∀ (q : ℕ) (b : Process), s'.procs[q]? = some b → 0 < b.client → Awaited target b.client →
      b.stage.current? = none) ∧
    ∀ r ∈ s'.db.tasks.rows, Awaited target r.client → r.client ∈ s'.db.clients.ids →
      r.ended = true ∧ r.id ∈ ranBy r.client (tr ++ [e]) := by
  have hfinish : noFinish s (.run p c) = true := by
    simp [noFinish, hp, Process.command?, hs]
  have h' := h.snoc hfinish hstep
  have hdone : Process.unfinished s'.db target = false := by
    obtain ⟨p', self', o, hp', rfl, -, hcase⟩ := step_cases hstep
    rcases hcase with ⟨c', heq, ho⟩ | ⟨halts, heq, -⟩
    · cases heq
      obtain rfl := Option.some.inj (hp.symm.trans hp')
      have hnext : self.next s.db c = some (self.runOp s.db c task rest (.waitForClient target)) := by
        rw [Process.next, hs]
      obtain rfl := Option.some.inj (hnext.symm.trans ho)
      have hstage := getElem?_after_self (o := self.runOp s.db c task rest (.waitForClient target)) hp
      rw [hstage, Option.map_some, Option.some.injEq] at hon
      rw [Process.runOp, hc, Bool.not_true, if_neg Bool.false_ne_true] at hon ⊢
      split at hon
      · rw [Process.goOn_stage] at hon
        have hlen := congrArg List.length (Stage.working.inj hon).2
        simp at hlen
      · rename_i hfinished
        rw [if_neg hfinished]
        exact (Bool.not_eq_true _).mp hfinished
    · cases heq
  refine ⟨fun q b hq hpos hawaited => ?_, fun r hr hawaited hclient => ?_⟩
  · by_contra hcurrent
    obtain ⟨t, ht⟩ := Option.ne_none_iff_exists'.mp hcurrent
    rw [unfinished_of_current h' hq ht hpos hawaited] at hdone
    cases hdone
  · have hended : r.ended = true := by
      by_contra hnot
      rw [unfinished_of_row hr hawaited hclient ((Bool.not_eq_true _).mp hnot)] at hdone
      cases hdone
    exact ⟨hended, (tended h').ended r hr hended⟩

end

/-! ## A client that is waited for -/

/-- The master waits for the one task of client 1. -/
def waitingScript : Bytes := ascii "--task 1\nX;\n--end\n--wait 1\n"

def waitingActions : List Action := [0, 0, 0, 0, 0, 1, 1, 1, 1, 1, 1, 0].map plain

/-- What the master does behind its `--wait`. -/
def waitingRest : List Op :=
  [.script ⟨false, ascii "a.test", waitingScript, [.sql 18 27]⟩, .waitForClient 0, .haltClients,
    .pollClients,
    .readCounters, .summary]

/-- The next step of the master is the last one of its `--wait`. -/
def waitEnds (s : State) : Bool :=
  s.procs[0]?.map Process.stage == some (.working 0 (.waitForClient 1 :: waitingRest)) &&
    (step s (plain 0)).any fun r => r.1.procs[0]?.map Process.stage == some (.working 0 waitingRest) &&
      r.1.db.tasks.rows.map TaskRow.client == [1] && r.1.db.clients.ids == [1]

theorem waited_one : ∃ tr s s' e,
    Run step (fun s a => noFinish s a) (start (ascii "a.test") waitingScript 1) tr s ∧
    step s (plain 0) = some (s', e) ∧ s'.db.tasks.rows.map TaskRow.client = [1] ∧
    ∀ r ∈ s'.db.tasks.rows, r.ended = true ∧ r.id ∈ ranBy r.client (tr ++ [e]) := by
  have hexec : (execute step (fun s a => noFinish s a) waitingActions
      (start (ascii "a.test") waitingScript 1)).any (fun r => waitEnds r.2) = true := by decide +kernel
  obtain ⟨⟨tr, s⟩, hexec, hends⟩ := (Option.any_eq_true _ _).mp hexec
  have hrun := Run.of_execute hexec
  simp only [waitEnds, Bool.and_eq_true, beq_iff_eq, Option.any_eq_true] at hends
  obtain ⟨hstage, ⟨s', e⟩, hstep, ⟨hon, hclients⟩, hids⟩ := hends
  obtain ⟨self, hp, hs⟩ := Option.map_eq_some_iff.mp hstage
  refine ⟨tr, s, s', e, hrun, hstep, hclients, fun r hr => ?_⟩
  have hclient : r.client = 1 := List.mem_singleton.mp (hclients ▸ List.mem_map_of_mem hr)
  exact (waited hrun hp hs rfl hstep hon).2 r hr (.inr (by rw [hclient]; rfl))
    (by rw [hids, hclient]; exact List.mem_singleton_self 1)

end Fstest.Mptest
