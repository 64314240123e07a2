import Fstest.Mptest.Sessions

/-!
# Tasks are claimed once, and in order

`start_script` gives a client its first task that nobody has started. New tasks have larger ids than
all others, so a client gets its tasks in the order of their ids (`Ordered.order`), and the row of a
task that was given away is not given away again. What a process was given it runs at most once,
before the next process of the client comes (`Ordered.pending`).
-/

namespace Fstest.Mptest

open Labelled

/-! ## The table `task` -/

namespace TaskTable

variable {t t' : TaskTable} {r r' row : TaskRow} {client id : ℕ}

theorem next_spec (h : t.next client = some row) :
    row ∈ t.rows ∧ row.client = client ∧ row.started = false ∧
      ∀ r ∈ t.rows, r.client = client → r.started = false → row.id ≤ r.id := by
  obtain ⟨hp, before, after, hrows, hbefore⟩ := List.find?_eq_some_iff_append.mp h
  simp only [Bool.and_eq_true, beq_iff_eq, Bool.not_eq_true'] at hp
  refine ⟨List.mem_of_find?_eq_some h, hp.1, hp.2, fun r hr hc hs => ?_⟩
  rw [hrows] at hr
  rcases List.mem_append.mp hr with hr | hr
  · simpa [hc, hs] using hbefore r hr
  · rcases List.mem_cons.mp hr with rfl | hr
    · exact Nat.le_refl _
    · have hsorted := t.sorted
      rw [hrows] at hsorted
      exact Nat.le_of_lt ((List.pairwise_cons.mp (List.pairwise_append.mp hsorted).2.1).1 r hr)

/-- Two rows that agree on what decides who may claim them. -/
def Alike (r r' : TaskRow) : Prop :=
  r.id = r'.id ∧ r.client = r'.client ∧ r.started = r'.started

/-- The rows stay as they are, and new ones come with larger ids. -/
structure Extends (t t' : TaskTable) : Prop where
  kept : ∀ r ∈ t.rows, ∃ r' ∈ t'.rows, Alike r r'
  new : ∀ r' ∈ t'.rows, (∃ r ∈ t.rows, Alike r r') ∨ r'.started = false ∧ ∀ r ∈ t.rows, r.id < r'.id

theorem Extends.refl (t : TaskTable) : t.Extends t :=
  ⟨fun r hr => ⟨r, hr, rfl, rfl, rfl⟩, fun r hr => .inl ⟨r, hr, rfl, rfl, rfl⟩⟩

theorem extends_insert (t : TaskTable) (client : ℕ) (name script : Bytes) :
    t.Extends (t.insert client name script) := by
  constructor
  · intro r hr
    exact ⟨r, List.mem_append_left _ hr, rfl, rfl, rfl⟩
  · intro r' hr'
    rcases List.mem_append.mp hr' with hr' | hr'
    · exact .inl ⟨r', hr', rfl, rfl, rfl⟩
    · rw [List.mem_singleton.mp hr']
      exact .inr ⟨rfl, fun r hr => t.lt_nextId hr⟩

theorem extends_finish (t : TaskTable) (id : ℕ) : t.Extends (t.finish id) := by
  have halike : ∀ r : TaskRow, Alike r (if r.id = id then { r with ended := true } else r) := by
    intro r
    split <;> exact ⟨rfl, rfl, rfl⟩
  constructor
  · intro r hr
    exact ⟨_, List.mem_map_of_mem hr, halike r⟩
  · intro r' hr'
    obtain ⟨r, hr, rfl⟩ := List.mem_map.mp hr'
    exact .inl ⟨r, hr, halike r⟩

/-- The rows of a client are started in the order of their ids. -/
def InOrder (t : TaskTable) : Prop :=
  ∀ r ∈ t.rows, ∀ r' ∈ t.rows, r.client = r'.client → r.started = true → r'.started = false →
    r.id < r'.id

theorem InOrder.extends (h : t.InOrder) (hext : t.Extends t') : t'.InOrder := by
  intro r hr r' hr' hc hs hs'
  rcases hext.new r hr with ⟨r₀, hr₀, hid, hc₀, hs₀⟩ | ⟨hnot, -⟩
  · rcases hext.new r' hr' with ⟨r₁, hr₁, hid₁, hc₁, hs₁⟩ | ⟨-, hlt⟩
    · have := h r₀ hr₀ r₁ hr₁ (by rw [hc₀, hc₁, hc]) (by rw [hs₀, hs]) (by rw [hs₁, hs'])
      omega
    · have := hlt r₀ hr₀
      omega
  · rw [hs] at hnot
    cases hnot

theorem mem_start : r' ∈ (t.start id).rows ↔
    ∃ r ∈ t.rows, (if r.id = id then { r with started := true } else r) = r' := by
  rw [start, List.mem_map]

/-- What has been started stays so. -/
theorem started_start (id : ℕ) (hr : r ∈ t.rows) (hs : r.started = true) :
    ∃ r' ∈ (t.start id).rows, r'.id = r.id ∧ r'.client = r.client ∧ r'.started = true := by
  refine ⟨_, mem_start.mpr ⟨r, hr, rfl⟩, ?_⟩
  split
  · exact ⟨rfl, rfl, rfl⟩
  · exact ⟨rfl, rfl, hs⟩

theorem InOrder.start (h : t.InOrder) (hnext : t.next client = some row) :
    (t.start row.id).InOrder := by
  obtain ⟨hmem, hclient, -, hleast⟩ := next_spec hnext
  intro r hr r' hr' hc hs hs'
  obtain ⟨r₀, hr₀, rfl⟩ := mem_start.mp hr
  obtain ⟨r₁, hr₁, rfl⟩ := mem_start.mp hr'
  by_cases hid₁ : r₁.id = row.id
  · rw [if_pos hid₁] at hs'
    cases hs'
  · rw [if_neg hid₁] at hc hs' ⊢
    by_cases hid₀ : r₀.id = row.id
    · obtain rfl := t.eq_of_id_eq hr₀ hmem hid₀
      rw [if_pos rfl] at hc ⊢
      have := hleast r₁ hr₁ (hc.symm.trans hclient) hs'
      change r₀.id < r₁.id
      omega
    · rw [if_neg hid₀] at hc hs ⊢
      exact h r₀ hr₀ r₁ hr₁ hc hs hs'

end TaskTable

/-! ## What a step shows -/

def Label.took? (e : Label) : Option ℕ :=
  match e.shown with
  | some (.took task) => some task
  | _ => none

def Label.ran? (e : Label) : Option ℕ :=
  match e.shown with
  | some (.ran task) => some task
  | _ => none

/-- The tasks that `start_script` has given to client `i`, in this order. -/
def tookBy (i : ℕ) (tr : List Label) : List ℕ := (tr.filter fun e => e.client == i).filterMap Label.took?

/-- The tasks whose scripts client `i` has run. -/
def ranBy (i : ℕ) (tr : List Label) : List ℕ := (tr.filter fun e => e.client == i).filterMap Label.ran?

theorem Label.took?_eq_none {e : Label} (h : ∀ task, e.shown ≠ some (.took task)) : e.took? = none := by
  unfold Label.took?
  split
  · exact absurd ‹_› (h _)
  · rfl

theorem Label.ran?_eq_none {e : Label} (h : ∀ task, e.shown ≠ some (.ran task)) : e.ran? = none := by
  unfold Label.ran?
  split
  · exact absurd ‹_› (h _)
  · rfl

theorem tookBy_append (i : ℕ) (tr : List Label) (e : Label) :
    tookBy i (tr ++ [e]) = tookBy i tr ++ if e.client = i then e.took?.toList else [] := by
  rw [tookBy, List.filter_append, List.filterMap_append, tookBy]
  by_cases h : e.client = i
  · cases ht : e.took? <;> simp [h, ht]
  · simp [h]

theorem ranBy_append (i : ℕ) (tr : List Label) (e : Label) :
    ranBy i (tr ++ [e]) = ranBy i tr ++ if e.client = i then e.ran?.toList else [] := by
  rw [ranBy, List.filter_append, List.filterMap_append, ranBy]
  by_cases h : e.client = i
  · cases ht : e.ran? <;> simp [h, ht]
  · simp [h]

section

variable {e : Label} {tr : List Label} {i t : ℕ}

theorem tookBy_quiet (h : ∀ task, e.shown ≠ some (.took task)) : tookBy i (tr ++ [e]) = tookBy i tr := by
  rw [tookBy_append, Label.took?_eq_none h]
  split <;> exact List.append_nil _

theorem ranBy_quiet (h : ∀ task, e.shown ≠ some (.ran task)) : ranBy i (tr ++ [e]) = ranBy i tr := by
  rw [ranBy_append, Label.ran?_eq_none h]
  split <;> exact List.append_nil _

theorem tookBy_other (h : i ≠ e.client) : tookBy i (tr ++ [e]) = tookBy i tr := by
  rw [tookBy_append, if_neg (Ne.symm h), List.append_nil]

theorem ranBy_other (h : i ≠ e.client) : ranBy i (tr ++ [e]) = ranBy i tr := by
  rw [ranBy_append, if_neg (Ne.symm h), List.append_nil]

theorem tookBy_self (hc : e.client = i) (h : e.shown = some (.took t)) :
    tookBy i (tr ++ [e]) = tookBy i tr ++ [t] := by
  rw [tookBy_append, if_pos hc, Label.took?, h]
  rfl

theorem ranBy_self (hc : e.client = i) (h : e.shown = some (.ran t)) :
    ranBy i (tr ++ [e]) = ranBy i tr ++ [t] := by
  rw [ranBy_append, if_pos hc, Label.ran?, h]
  rfl

end

/-- The task that a process has been given and has not begun to run. -/
def Stage.task? : Stage → Option ℕ
  | .claimed task _ _ => some task
  | _ => none

def Stage.isClaiming : Stage → Bool
  | .claiming _ => true
  | _ => false

/-- How a step of a process treats tasks. -/
inductive TaskStep (self : Process) (db : Tables) (o : Outcome) : Prop
  | took (row : TaskRow) (claiming : self.stage.isClaiming = true)
      (next : db.tasks.next self.client = some row) (tasks : o.db.tasks = db.tasks.start row.id)
      (shown : o.shown = some (.took row.id)) (task : o.stage.task? = some row.id)
  | ran (task : ℕ) (has : self.stage.task? = some task) (tasks : o.db.tasks = db.tasks)
      (shown : o.shown = some (.ran task)) (none : o.stage.task? = none)
      (claiming : o.stage.isClaiming = false)
  | other (tasks : db.tasks.Extends o.db.tasks) (took : ∀ task, o.shown ≠ some (.took task))
      (ran : ∀ task, o.shown ≠ some (.ran task)) (none : o.stage.task? = none)
      (claiming : o.stage.isClaiming = true → self.client ≠ 0 ∨ self.stage.isClaiming = true)

section

variable {self : Process} {db : Tables} {c : Choice} {o : Outcome} {task : ℕ} {rest : List Op}

/-- A step that shows nothing and is not in the client loop. -/
theorem TaskStep.quiet (hdb : db.tasks.Extends o.db.tasks) (hshown : o.shown = none)
    (hstage : o.stage.task? = none ∧ o.stage.isClaiming = false) : TaskStep self db o :=
  .other hdb (fun task => by simp [hshown]) (fun task => by simp [hshown]) hstage.1
    (fun h => by simp [hstage.2] at h)

theorem Statement.extends_run (st : Statement) : db.tasks.Extends (st.run db).tasks := by
  cases st with
  | endTask id => exact TaskTable.extends_finish _ id
  | deleteClient client => exact .refl _

theorem Process.startScript_taskStep {waited : ℕ} (hs : self.stage = .claiming waited) :
    TaskStep self db (self.startScript db c waited) := by
  have hclaiming : self.stage.isClaiming = true := by rw [hs]; rfl
  have hmore : ∀ {o : Outcome} {w : ℕ}, o.db.tasks = db.tasks → o.shown = none →
      o.stage = .claiming w → TaskStep self db o := by
    intro o w hdb hshown hstage
    exact .other (hdb ▸ .refl _) (fun task => by simp [hshown]) (fun task => by simp [hshown])
      (by rw [hstage]; rfl) (fun _ => .inr hclaiming)
  unfold Process.startScript
  split
  · exact hmore rfl rfl rfl
  · dsimp only
    split
    · exact .quiet (.refl _) rfl ⟨rfl, rfl⟩
    · split
      · rename_i row hrow
        exact .took row hclaiming hrow rfl rfl rfl
      · split
        · exact .quiet (.refl _) rfl ⟨rfl, rfl⟩
        · exact hmore rfl rfl rfl

theorem Process.runFrame_taskStep (f : Frame) :
    TaskStep self db (self.runFrame db c task rest f) := by
  unfold Process.runFrame
  split
  · exact .quiet (.refl _) rfl ⟨rfl, rfl⟩
  · exact .quiet (.refl _) rfl ⟨rfl, rfl⟩
  · split <;> exact .quiet (.refl _) rfl ⟨rfl, rfl⟩

theorem Process.runOp_taskStep (op : Op) : TaskStep self db (self.runOp db c task rest op) := by
  cases op with
  | script f => exact Process.runFrame_taskStep f
  | spawn client =>
    rw [Process.runOp]
    split <;> exact .quiet (.refl _) rfl ⟨rfl, rfl⟩
  | insertTask client name script =>
    exact .quiet (TaskTable.extends_insert _ client name script) rfl ⟨rfl, rfl⟩
  | statement st => exact .quiet st.extends_run rfl ⟨rfl, rfl⟩
  | waitForClient client =>
    rw [Process.runOp]
    split
    · exact .quiet (.refl _) rfl ⟨rfl, rfl⟩
    · split <;> exact .quiet (.refl _) rfl ⟨rfl, rfl⟩
  | summary =>
    exact .other (.refl _) (fun _ h => by cases h) (fun _ h => by cases h) rfl (fun h => by cases h)
  | runScript | insertClient | haltClients | pollClients | readCounters =>
    exact .quiet (.refl _) rfl ⟨rfl, rfl⟩

theorem Process.next_taskStep (h : self.next db c = some o) : TaskStep self db o := by
  unfold Process.next at h
  split at h <;> rename_i hs
  · split_ifs at h with hclient <;> cases h
    · exact .quiet (.refl _) rfl ⟨rfl, rfl⟩
    · exact .other (.refl _) (fun _ => nofun) (fun _ => nofun) rfl (fun _ => .inl hclient)
  · cases h
    exact Process.startScript_taskStep hs
  · rename_i task name script
    cases h
    exact .ran task (by rw [hs]; rfl) rfl rfl rfl rfl
  · split_ifs at h with hclient <;> cases h
    · exact .quiet (.refl _) rfl ⟨rfl, rfl⟩
    · exact .other (Statement.extends_run _) (fun _ => nofun) (fun _ => nofun) rfl
        (fun _ => .inl hclient)
  · cases h
    exact Process.runOp_taskStep _
  · cases h
    exact .quiet (.refl _) rfl ⟨rfl, rfl⟩
  · cases h
    exact .quiet (.refl _) rfl ⟨rfl, rfl⟩
  · cases h
    exact .quiet (Statement.extends_run _) rfl ⟨rfl, rfl⟩
  · cases h

end

/-! ## Runs -/

/-- What is known about tasks after a run that shows `tr`. -/
structure Ordered (tr : List Label) (s : State) : Prop where
  rows : s.db.tasks.InOrder
  took : ∀ i, ∀ t ∈ tookBy i tr, ∃ r ∈ s.db.tasks.rows, r.id = t ∧ r.client = i ∧ r.started = true
  order : ∀ i, (tookBy i tr).Pairwise (· < ·)
  ran : ∀ i, (ranBy i tr).Sublist (tookBy i tr)
  /-- A task that a process is about to run comes behind all that its client has run. -/
  pending : ∀ (p : ℕ) (self : Process) (t : ℕ), s.procs[p]? = some self → self.stage.task? = some t →
    0 < self.client ∧ (ranBy self.client tr ++ [t]).Sublist (tookBy self.client tr)
  claiming : ∀ (p : ℕ) (self : Process), s.procs[p]? = some self → self.stage.isClaiming = true →
    0 < self.client

theorem inSession_of_isClaiming {self : Process} (h : self.stage.isClaiming = true)
    (hpos : 0 < self.client) : self.InSession := by
  refine ⟨hpos, ?_⟩
  unfold Stage.isClaiming at h
  split at h
  · rename_i hs
    rw [hs]
    trivial
  · cases h

theorem inSession_of_task? {self : Process} {t : ℕ} (h : self.stage.task? = some t)
    (hpos : 0 < self.client) : self.InSession := by
  refine ⟨hpos, ?_⟩
  unfold Stage.task? at h
  split at h
  · rename_i hs
    rw [hs]
    trivial
  · cases h

section

variable {filename script : Bytes} {n p q : ℕ} {tr : List Label} {s : State} {self x : Process}
  {o : Outcome}

theorem ordered_start : Ordered [] (start filename script n) where
  rows := nofun
  took := nofun
  order _ := .nil
  ran _ := .slnil
  pending p self t hp ht := by
    have hself : self ∈ (start filename script n).procs := List.mem_of_getElem? hp
    rw [List.mem_singleton.mp hself] at ht
    cases ht
  claiming p self hp h := by
    have hself : self ∈ (start filename script n).procs := List.mem_of_getElem? hp
    rw [List.mem_singleton.mp hself] at h
    cases h

/-- A step that neither takes a task nor begins to run one. -/
theorem Ordered.other (h : Ordered tr s) (hp : s.procs[p]? = some self)
    (hext : s.db.tasks.Extends o.db.tasks) (htook : ∀ t, o.shown ≠ some (.took t))
    (hran : ∀ t, o.shown ≠ some (.ran t)) (hnone : o.stage.task? = none)
    (hclaiming : o.stage.isClaiming = true → self.client ≠ 0 ∨ self.stage.isClaiming = true) :
    Ordered (tr ++ [⟨p, self.client, o.made, o.shown⟩]) (s.after p self o) := by
  have htookBy : ∀ i, tookBy i (tr ++ [⟨p, self.client, o.made, o.shown⟩]) = tookBy i tr := fun _ =>
    tookBy_quiet htook
  have hranBy : ∀ i, ranBy i (tr ++ [⟨p, self.client, o.made, o.shown⟩]) = ranBy i tr := fun _ =>
    ranBy_quiet hran
  constructor
  · exact h.rows.extends hext
  · intro i t ht
    rw [htookBy] at ht
    obtain ⟨r, hr, hid, hc, hs⟩ := h.took i t ht
    obtain ⟨r', hr', hid', hc', hs'⟩ := hext.kept r hr
    exact ⟨r', hr', hid' ▸ hid, hc' ▸ hc, hs' ▸ hs⟩
  · intro i
    rw [htookBy]
    exact h.order i
  · intro i
    rw [htookBy, hranBy]
    exact h.ran i
  · intro q x t hq ht
    rw [htookBy, hranBy]
    rcases getElem?_after hq with ⟨-, rfl⟩ | ⟨-, hq⟩ | ⟨-, i, -, rfl⟩
    · rw [hnone] at ht
      cases ht
    · exact h.pending q x t hq ht
    · cases ht
  · intro q x hq hx
    rcases getElem?_after hq with ⟨-, rfl⟩ | ⟨-, hq⟩ | ⟨-, i, -, rfl⟩
    · rcases hclaiming hx with hne | hself
      · exact Nat.pos_of_ne_zero hne
      · exact h.claiming p self hp hself
    · exact h.claiming q x hq hx
    · cases hx

/-- A process takes a task. No other process of its client has one. -/
theorem Ordered.takes (h : Ordered tr s) {row : TaskRow}
    (hnext : s.db.tasks.next self.client = some row) (htasks : o.db.tasks = s.db.tasks.start row.id)
    (hshown : o.shown = some (.took row.id)) (htask : o.stage.task? = some row.id)
    (hpos : 0 < self.client)
    (hother : ∀ q x t, q ≠ p → s.procs[q]? = some x → x.stage.task? = some t →
      x.client ≠ self.client) :
    Ordered (tr ++ [⟨p, self.client, o.made, o.shown⟩]) (s.after p self o) := by
  obtain ⟨hmem, hclient, hnot, -⟩ := TaskTable.next_spec hnext
  have htookSelf : tookBy self.client (tr ++ [⟨p, self.client, o.made, o.shown⟩]) =
      tookBy self.client tr ++ [row.id] := tookBy_self rfl hshown
  have htookOther : ∀ i, i ≠ self.client →
      tookBy i (tr ++ [⟨p, self.client, o.made, o.shown⟩]) = tookBy i tr := fun _ hi => tookBy_other hi
  have hranBy : ∀ i, ranBy i (tr ++ [⟨p, self.client, o.made, o.shown⟩]) = ranBy i tr := fun _ =>
    ranBy_quiet (by simp [hshown])
  have htook : ∀ i, ∀ t ∈ tookBy i tr, ∃ r ∈ o.db.tasks.rows, r.id = t ∧ r.client = i ∧
      r.started = true := by
    intro i t ht
    obtain ⟨r, hr, hid, hc, hs⟩ := h.took i t ht
    obtain ⟨r', hr', hid', hc', hs'⟩ := TaskTable.started_start row.id hr hs
    exact ⟨r', htasks ▸ hr', hid'.trans hid, hc'.trans hc, hs'⟩
  constructor
  · change o.db.tasks.InOrder
    rw [htasks]
    exact h.rows.start hnext
  · intro i t ht
    by_cases hi : i = self.client
    · subst hi
      rw [htookSelf] at ht
      rcases List.mem_append.mp ht with ht | ht
      · exact htook _ t ht
      · rw [List.mem_singleton.mp ht]
        change ∃ r ∈ o.db.tasks.rows, _
        rw [htasks]
        exact ⟨_, TaskTable.mem_start.mpr ⟨row, hmem, if_pos rfl⟩, rfl, hclient, rfl⟩
    · rw [htookOther i hi] at ht
      exact htook i t ht
  · intro i
    by_cases hi : i = self.client
    · subst hi
      rw [htookSelf, List.pairwise_append]
      refine ⟨h.order _, List.pairwise_singleton _ _, fun t ht t' ht' => ?_⟩
      rw [List.mem_singleton.mp ht']
      -- What was taken before is started, and `row` was not.
      obtain ⟨r, hr, hid, hc, hs⟩ := h.took _ t ht
      have := h.rows r hr row hmem (hc.trans hclient.symm) hs hnot
      omega
    · rw [htookOther i hi]
      exact h.order i
  · intro i
    rw [hranBy]
    by_cases hi : i = self.client
    · subst hi
      rw [htookSelf]
      exact (h.ran _).trans (List.sublist_append_left _ _)
    · rw [htookOther i hi]
      exact h.ran i
  · intro q x t hq ht
    rw [hranBy]
    rcases getElem?_after hq with ⟨-, rfl⟩ | ⟨hne, hq⟩ | ⟨-, i, -, rfl⟩
    · rw [htask] at ht
      cases ht
      rw [htookSelf]
      exact ⟨hpos, (h.ran _).append (.refl _)⟩
    · rw [htookOther _ (hother q x t hne hq ht)]
      exact h.pending q x t hq ht
    · cases ht
  · intro q x hq hx
    rcases getElem?_after hq with ⟨-, rfl⟩ | ⟨-, hq⟩ | ⟨-, i, -, rfl⟩
    · exact hpos
    · exact h.claiming q x hq hx
    · cases hx

/-- A process begins to run its task. -/
theorem Ordered.ran' (h : Ordered tr s) (hp : s.procs[p]? = some self) {t : ℕ}
    (hhas : self.stage.task? = some t) (htasks : o.db.tasks = s.db.tasks)
    (hshown : o.shown = some (.ran t)) (hnone : o.stage.task? = none)
    (hclaiming : o.stage.isClaiming = false)
    (hother : ∀ q x t, q ≠ p → s.procs[q]? = some x → x.stage.task? = some t →
      x.client ≠ self.client) :
    Ordered (tr ++ [⟨p, self.client, o.made, o.shown⟩]) (s.after p self o) := by
  obtain ⟨hpos, hsub⟩ := h.pending p self t hp hhas
  have htookBy : ∀ i, tookBy i (tr ++ [⟨p, self.client, o.made, o.shown⟩]) = tookBy i tr := fun _ =>
    tookBy_quiet (by simp [hshown])
  have hranSelf : ranBy self.client (tr ++ [⟨p, self.client, o.made, o.shown⟩]) =
      ranBy self.client tr ++ [t] := ranBy_self rfl hshown
  have hranOther : ∀ i, i ≠ self.client →
      ranBy i (tr ++ [⟨p, self.client, o.made, o.shown⟩]) = ranBy i tr := fun _ hi => ranBy_other hi
  constructor
  · change o.db.tasks.InOrder
    rw [htasks]
    exact h.rows
  · intro i t' ht'
    rw [htookBy] at ht'
    change ∃ r ∈ o.db.tasks.rows, _
    rw [htasks]
    exact h.took i t' ht'
  · intro i
    rw [htookBy]
    exact h.order i
  · intro i
    rw [htookBy]
    by_cases hi : i = self.client
    · subst hi
      rwa [hranSelf]
    · rw [hranOther i hi]
      exact h.ran i
  · intro q x t' hq ht'
    rw [htookBy]
    rcases getElem?_after hq with ⟨-, rfl⟩ | ⟨hne, hq⟩ | ⟨-, i, -, rfl⟩
    · rw [hnone] at ht'
      cases ht'
    · rw [hranOther _ (hother q x t' hne hq ht')]
      exact h.pending q x t' hq ht'
    · cases ht'
  · intro q x hq hx
    rcases getElem?_after hq with ⟨-, rfl⟩ | ⟨-, hq⟩ | ⟨-, i, -, rfl⟩
    · rw [hclaiming] at hx
      cases hx
    · exact h.claiming q x hq hx
    · cases hx

/-- **Tasks are taken and run in order, after every run.** -/
theorem ordered (h : Run step (fun s a => noFinish s a) (start filename script n) tr s) :
    Ordered tr s := by
  refine h.invariant ordered_start ?_
  intro tr s a s' e hrun ih hf hs
  obtain ⟨p, self, o, hp, rfl, rfl, hcase⟩ := step_cases hs
  rcases hcase with ⟨c, rfl, ho⟩ | ⟨halts, -, hdead⟩
  · have hother : self.InSession → ∀ q x t, q ≠ p → s.procs[q]? = some x →
        x.stage.task? = some t → x.client ≠ self.client := by
      intro hself q x t hne hq ht hclient
      have hx := inSession_of_task? ht (ih.pending q x t hq ht).1
      exact hne (exclusive hrun hq hp hx hself hclient)
    cases Process.next_taskStep ho with
    | took row hclaiming hnext htasks hshown htask =>
      have hpos := ih.claiming p self hp hclaiming
      exact ih.takes hnext htasks hshown htask hpos
        (hother (inSession_of_isClaiming hclaiming hpos))
    | ran t hhas htasks hshown hnone hclaiming =>
      have hpos := (ih.pending p self t hp hhas).1
      exact ih.ran' hp hhas htasks hshown hnone hclaiming (hother (inSession_of_task? hhas hpos))
    | other htasks htook hran hnone hclaiming =>
      exact ih.other hp htasks htook hran hnone hclaiming
  · obtain ⟨htasks, -, -, -, hstage, -, -, hshown⟩ := hdead
    exact ih.other hp (htasks ▸ .refl _) (by simp [hshown]) (by simp [hshown]) (by rw [hstage]; rfl)
      (by rw [hstage]; nofun)

/-- Something that the labels of each client show once is shown once, if no two clients show it. -/
theorem nodup_filterMap {f : Label → Option ℕ}
    (hclient : ∀ i, ((tr.filter fun e => e.client == i).filterMap f).Nodup)
    (hsame : ∀ e ∈ tr, ∀ e' ∈ tr, ∀ t, f e = some t → f e' = some t → e.client = e'.client) :
    (tr.filterMap f).Nodup := by
  induction tr with
  | nil => exact .nil
  | cons e tr ih =>
    have hrest : (tr.filterMap f).Nodup := by
      refine ih (fun i => ?_) (fun a ha b hb => hsame a (.tail _ ha) b (.tail _ hb))
      exact (hclient i).sublist (((List.sublist_cons_self e tr).filter _).filterMap f)
    rw [List.filterMap_cons]
    split
    · exact hrest
    · rename_i t ht
      refine List.nodup_cons.mpr ⟨fun hmem => ?_, hrest⟩
      obtain ⟨e', he', ht'⟩ := List.mem_filterMap.mp hmem
      have hc := hsame e List.mem_cons_self e' (.tail _ he') t ht ht'
      have hown := hclient e.client
      rw [List.filter_cons_of_pos (by simp), List.filterMap_cons_some ht] at hown
      exact (List.nodup_cons.mp hown).1
        (List.mem_filterMap.mpr ⟨e', List.mem_filter.mpr ⟨he', by simp [hc]⟩, ht'⟩)

theorem mem_tookBy {e : Label} {t : ℕ} (he : e ∈ tr) (ht : e.took? = some t) :
    t ∈ tookBy e.client tr :=
  List.mem_filterMap.mpr ⟨e, List.mem_filter.mpr ⟨he, by simp⟩, ht⟩

theorem mem_ranBy {e : Label} {t : ℕ} (he : e ∈ tr) (ht : e.ran? = some t) : t ∈ ranBy e.client tr :=
  List.mem_filterMap.mpr ⟨e, List.mem_filter.mpr ⟨he, by simp⟩, ht⟩

/-- A task is given to processes of one client only. -/
theorem Ordered.client_eq (h : Ordered tr s) {i j t : ℕ} (hi : t ∈ tookBy i tr)
    (hj : t ∈ tookBy j tr) : i = j := by
  obtain ⟨r, hr, hid, hc, -⟩ := h.took i t hi
  obtain ⟨r', hr', hid', hc', -⟩ := h.took j t hj
  obtain rfl := s.db.tasks.eq_of_id_eq hr hr' (hid.trans hid'.symm)
  exact hc.symm.trans hc'

theorem Ordered.nodup_took (h : Ordered tr s) : (tr.filterMap Label.took?).Nodup :=
  nodup_filterMap (fun i => (h.order i).imp Nat.ne_of_lt)
    (fun _ he _ he' _ ht ht' => h.client_eq (mem_tookBy he ht) (mem_tookBy he' ht'))

theorem Ordered.nodup_ran (h : Ordered tr s) : (tr.filterMap Label.ran?).Nodup :=
  nodup_filterMap (fun i => ((h.order i).imp Nat.ne_of_lt).sublist (h.ran i))
    (fun _ he _ he' _ ht ht' => h.client_eq ((h.ran _).subset (mem_ranBy he ht))
      ((h.ran _).subset (mem_ranBy he' ht')))

/-- **The claim protocol.** After every run of scripts without `--finish`, at most one process of a
client is between `start_script` and the end of its script. A task is given to one process, and run
once, at most, and each client is given its tasks in the order of their ids, and runs them in it. -/
theorem tasks_claimed (h : Run step (fun s a => noFinish s a) (start filename script n) tr s) :
    (∀ (p q : ℕ) (a b : Process), s.procs[p]? = some a → s.procs[q]? = some b →
      a.InSession → b.InSession → a.client = b.client → p = q) ∧
    (tr.filterMap Label.took?).Nodup ∧ (tr.filterMap Label.ran?).Nodup ∧
    ∀ i, (tookBy i tr).Pairwise (· < ·) ∧ (ranBy i tr).Sublist (tookBy i tr) := by
  have hordered := ordered h
  exact ⟨fun p q a b hp hq ha hb hab => exclusive h hp hq ha hb hab, hordered.nodup_took,
    hordered.nodup_ran, fun i => ⟨hordered.order i, hordered.ran i⟩⟩

end

/-! ## A client that comes back -/

/-- Client 1 leaves by `--exit` in its first task, and the second task starts it again. -/
def restartScript : Bytes := ascii "--task 1\n--exit 0\n--end\n--task 1\nX;\n--end\n"

def restartActions : List Action :=
  [0, 0, 0, 0, 0, 1, 1, 1, 1, 1, 1, 0, 0, 0, 0, 2, 1, 2, 2].map plain

theorem restarted_client : ∃ tr s,
    Run step (fun s a => noFinish s a) (start (ascii "a.test") restartScript 1) tr s ∧
    tookBy 1 tr = [1, 2] ∧
    (∀ (p q : ℕ) (a b : Process), s.procs[p]? = some a → s.procs[q]? = some b →
      a.InSession → b.InSession → a.client = b.client → p = q) ∧
    (tr.filterMap Label.took?).Nodup ∧ (tr.filterMap Label.ran?).Nodup ∧
    ∀ i, (tookBy i tr).Pairwise (· < ·) ∧ (ranBy i tr).Sublist (tookBy i tr) := by
  have hrun : (execute step (fun s a => noFinish s a) restartActions
      (start (ascii "a.test") restartScript 1)).map (fun r => tookBy 1 r.1) = some [1, 2] := by
    decide +kernel
  obtain ⟨⟨tr, s⟩, hexec, htook⟩ := Option.map_eq_some_iff.mp hrun
  exact ⟨tr, s, .of_execute hexec, htook, tasks_claimed (.of_execute hexec)⟩

end Fstest.Mptest
