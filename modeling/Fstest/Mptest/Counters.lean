import Fstest.Mptest.Sessions

/-!
# The counters

Each process counts its errors and tests in its own memory, and adds them to the table `counters`
in its next `start_script`. What the processes and the table hold together is what was counted
(`Books.running`), so the totals that the master prints lack what clients still held when they ended
(`printed_add_kept`). A client that ends in order has nothing left (`Process.keepsCounts`), but one
that gives up, or leaves by `--exit`, may have.
-/

namespace Fstest.Mptest

open Labelled

/-- The errors and tests that were counted in a run. -/
def made (tr : List Label) : Counts := (tr.map Label.made).sum

@[simp] theorem made_append (tr : List Label) (e : Label) : made (tr ++ [e]) = made tr + e.made := by
  rw [made, List.map_append, List.sum_append, List.map_singleton, List.sum_singleton, made]

/-- Both counts are positive `i32` numbers. -/
def Small (n : Counts) : Prop := n.1 < 2 ^ 31 ∧ n.2 < 2 ^ 31

theorem Small.of_add {m n : Counts} (h : Small (m + n)) : Small m :=
  ⟨Nat.lt_of_le_of_lt (Nat.le_add_right _ _) h.1, Nat.lt_of_le_of_lt (Nat.le_add_right _ _) h.2⟩

/-! ## What a step does -/

/-- The operations of the shutdown that read and print the totals. -/
def Op.isTotals : Op → Bool
  | .readCounters | .summary => true
  | _ => false

def Stage.isEnded : Stage → Bool
  | .ended _ => true
  | _ => false

/-- The next operation reads the table `counters`. -/
def Stage.reads : Stage → Bool
  | .working _ (.readCounters :: _) => true
  | _ => false

/-- A process in this stage will not print totals. -/
def Stage.Silent : Stage → Prop
  | .working _ ops => ∀ op ∈ ops, op.isTotals = false
  | _ => True

section

variable {self : Process} {db : Tables} {c : Choice} {o : Outcome} {task : ℕ} {rest : List Op}

/-- Nothing is lost between a process and the table. -/
def Outcome.Balanced (db : Tables) (self : Process) (o : Outcome) : Prop :=
  o.db.counters + o.counts = db.counters + self.counts + o.made

theorem Outcome.balanced (hdb : o.db.counters = db.counters)
    (hcounts : o.counts = self.counts + o.made) : o.Balanced db self := by
  rw [Outcome.Balanced, hdb, hcounts, add_assoc]

theorem Statement.counters_run (st : Statement) : (st.run db).counters = db.counters := by
  cases st <;> rfl

theorem Process.startScript_balanced (waited : ℕ) :
    (self.startScript db c waited).Balanced db self := by
  have hflush : ∀ m : Counts, db.counters + self.counts + (0 + m) = db.counters + self.counts + m := by
    intro m
    rw [zero_add]
  unfold Process.startScript
  split
  · exact Outcome.balanced rfl rfl
  · dsimp only
    split
    · exact hflush _
    · split
      · exact hflush _
      · split <;> exact hflush _

theorem Process.runOp_balanced {op : Op} (hop : op ≠ .readCounters) :
    (self.runOp db c task rest op).Balanced db self := by
  cases op with
  | script f =>
    change (self.runFrame db c task rest f).Balanced db self
    unfold Process.runFrame
    split
    · exact Outcome.balanced rfl rfl
    · exact Outcome.balanced rfl rfl
    · split <;> exact Outcome.balanced rfl rfl
  | spawn client =>
    rw [Process.runOp]
    split <;> exact Outcome.balanced rfl rfl
  | waitForClient client =>
    rw [Process.runOp]
    split
    · exact Outcome.balanced rfl rfl
    · split <;> exact Outcome.balanced rfl rfl
  | statement st => exact Outcome.balanced st.counters_run rfl
  | readCounters => exact absurd rfl hop
  | runScript | insertClient | insertTask | haltClients | pollClients | summary =>
    exact Outcome.balanced rfl rfl

/-- **What a step counts is added to the process or to the table.** -/
theorem Process.next_balanced (h : self.next db c = some o) (hreads : self.stage.reads = false) :
    o.Balanced db self := by
  unfold Process.next at h
  split at h <;> rename_i hs
  · split_ifs at h <;> cases h <;> exact Outcome.balanced rfl rfl
  · cases h
    exact Process.startScript_balanced _
  · cases h
    exact Outcome.balanced rfl rfl
  · split_ifs at h <;> cases h
    · exact Outcome.balanced rfl rfl
    · exact Outcome.balanced (Statement.counters_run _) rfl
  · cases h
    refine Process.runOp_balanced fun hop => ?_
    rw [hs, hop] at hreads
    cases hreads
  · cases h
    exact Outcome.balanced rfl rfl
  · cases h
    exact Outcome.balanced rfl rfl
  · cases h
    exact Outcome.balanced (Statement.counters_run _) rfl
  · cases h

/-- What a command makes a process do next is not the shutdown. -/
theorem effect_isTotals {client : ℕ} {filename : Bytes} {cmd : Command} :
    ∀ op ∈ (Process.effect c client task filename cmd).1, op.isTotals = false := by
  intro op hop
  cases cmd with
  | finish =>
    obtain ⟨st, -, rfl⟩ := List.mem_map.mp hop
    rfl
  | quiet | exit | compare | showSqlErrors | unknown => cases hop
  | source | wait =>
    rw [List.mem_singleton.mp hop]
    rfl
  | start target =>
    simp only [Process.effect] at hop
    split at hop
    · rw [List.mem_singleton.mp hop]
      rfl
    · cases hop
  | task target name script =>
    simp only [Process.effect] at hop
    split at hop
    · cases hop
    · rcases List.mem_cons.mp hop with rfl | hop
      · rfl
      · rw [List.mem_singleton.mp hop]
        rfl

/-- An operation that is not of the shutdown shows no totals. It is replaced by others of its kind, or
the process leaves. -/
theorem Process.runOp_ops (self : Process) (db : Tables) (c : Choice) (task : ℕ) (rest : List Op)
    {op : Op} (hop : op.isTotals = false) :
    (∀ n, (self.runOp db c task rest op).shown ≠ some (.printed n)) ∧
    ((∃ ops, (∀ x ∈ ops, x.isTotals = false) ∧
        (self.runOp db c task rest op).stage = .working task (ops ++ rest)) ∨
      ∃ sts code, (self.runOp db c task rest op).stage = .leaving sts code) := by
  have hquiet : ∀ n, (none : Option Shown) ≠ some (.printed n) := fun n h => by cases h
  cases op with
  | readCounters | summary => cases hop
  | script f =>
    change (∀ n, (self.runFrame db c task rest f).shown ≠ _) ∧ ((∃ ops, _ ∧
      (self.runFrame db c task rest f).stage = _) ∨ ∃ sts code,
        (self.runFrame db c task rest f).stage = _)
    unfold Process.runFrame
    split
    · exact ⟨hquiet, .inl ⟨[], List.forall_mem_nil _, rfl⟩⟩
    · rename_i es _
      exact ⟨hquiet, .inl ⟨[.script { f with events := es }], by simp [Op.isTotals], rfl⟩⟩
    · rename_i es _
      split
      · exact ⟨hquiet, .inr ⟨_, _, rfl⟩⟩
      · refine ⟨hquiet, .inl ⟨_ ++ [.script { f with events := es }], fun x hx => ?_,
          by rw [List.append_assoc]; rfl⟩⟩
        rcases List.mem_append.mp hx with hx | hx
        · exact effect_isTotals x hx
        · rw [List.mem_singleton.mp hx]
          rfl
  | runScript filename script =>
    exact ⟨hquiet, .inl ⟨[.script _], by simp [Op.isTotals], rfl⟩⟩
  | insertClient client =>
    refine ⟨hquiet, .inl ?_⟩
    simp only [Process.runOp, Process.goOn_stage]
    split
    · exact ⟨[], List.forall_mem_nil _, rfl⟩
    · exact ⟨[.spawn client], by simp [Op.isTotals], rfl⟩
  | spawn client =>
    rw [Process.runOp]
    split <;> exact ⟨hquiet, .inl ⟨[], List.forall_mem_nil _, rfl⟩⟩
  | waitForClient client =>
    rw [Process.runOp]
    split
    · exact ⟨hquiet, .inl ⟨[], List.forall_mem_nil _, rfl⟩⟩
    · split
      · exact ⟨hquiet, .inl ⟨[.waitForClient client], by simp [Op.isTotals], rfl⟩⟩
      · exact ⟨hquiet, .inl ⟨[], List.forall_mem_nil _, rfl⟩⟩
  | insertTask | statement | haltClients | pollClients => exact ⟨hquiet, .inl ⟨[], List.forall_mem_nil _, rfl⟩⟩

/-- A process that will not print totals does not do so now. -/
theorem Process.next_silent (h : self.next db c = some o) (hs : self.stage.Silent) :
    o.stage.Silent ∧ ∀ n, o.shown ≠ some (.printed n) := by
  have hnone : ∀ n, (none : Option Shown) ≠ some (.printed n) := fun n h => by cases h
  have hsome : ∀ {shown : Shown}, (∀ n, shown ≠ .printed n) → ∀ n, some shown ≠ some (.printed n) :=
    fun hne n h => hne n (Option.some.inj h)
  unfold Process.next at h
  split at h <;> rename_i hstage
  · split_ifs at h <;> cases h <;> exact ⟨trivial, hnone⟩
  · cases h
    unfold Process.startScript
    split
    · exact ⟨trivial, hnone⟩
    · dsimp only
      split
      · exact ⟨trivial, hnone⟩
      · split
        · exact ⟨trivial, hsome fun n h => by cases h⟩
        · split <;> exact ⟨trivial, hnone⟩
  · cases h
    exact ⟨by simp [Stage.Silent, Op.isTotals], hsome fun n h => by cases h⟩
  · split_ifs at h <;> cases h <;> exact ⟨trivial, hnone⟩
  · cases h
    rename_i task op rest
    rw [hstage] at hs
    obtain ⟨hshown, hnext⟩ := self.runOp_ops db c task rest (hs op List.mem_cons_self)
    refine ⟨?_, hshown⟩
    rcases hnext with ⟨ops, hops, heq⟩ | ⟨sts, code, heq⟩
    · rw [heq]
      intro x hx
      rcases List.mem_append.mp hx with hx | hx
      · exact hops x hx
      · exact hs x (.tail _ hx)
    · rw [heq]
      trivial
  · cases h
    exact ⟨trivial, hnone⟩
  · cases h
    exact ⟨trivial, hnone⟩
  · cases h
    exact ⟨trivial, hnone⟩
  · cases h

theorem Stage.Silent.reads {stage : Stage} (h : stage.Silent) : stage.reads = false := by
  unfold Stage.reads
  split
  · cases h .readCounters List.mem_cons_self
  · rfl

theorem Process.next_of_isEnded (h : self.stage.isEnded = true) : self.next db c = none := by
  unfold Stage.isEnded at h
  split at h
  · rename_i code hs
    rw [Process.next, hs]
  · cases h

end

/-! ## What becomes of the counts -/

def State.clientsEnded (s : State) : Bool := s.procs.tail.all fun x => x.stage.isEnded

/-- No process dies by `fatal_error` or leaves with a code above 0, and the master reads the counters,
with success, after all clients have ended. -/
def orderly (s : State) : Action → Bool
  | .run p c =>
    (s.procs[p]?).all fun self =>
      (match self.command? with
        | some (.exit rc) => decide (rc ≤ 0)
        | _ => true) && (!self.stage.reads || (c.pass && s.clientsEnded))
  | .fatal _ _ => false

/-- The books of the master as the run goes on. -/
inductive MasterBooks (tr : List Label) (s : State) (master : Process) : Prop
  | running (task : ℕ) (ops : List Op)
      (stage : master.stage = .working task (ops ++ [.readCounters, .summary]))
      (silent : ∀ op ∈ ops, op.isTotals = false)
      (made : made tr = s.db.counters + total Process.counts s.procs)
      (printed : ∀ e ∈ tr, ∀ n, e.shown ≠ some (.printed n))
  | read (task : ℕ) (stage : master.stage = .working task [.summary])
      (ended : s.clientsEnded = true)
      (made : Small (made tr) → made tr = total Process.counts s.procs)
      (printed : ∀ e ∈ tr, ∀ n, e.shown ≠ some (.printed n))
  | done (stage : (∃ task, master.stage = .working task []) ∨ master.stage.isEnded = true)
      (ended : s.clientsEnded = true)
      (made : Small (made tr) → made tr = total Process.counts s.procs)
      (printed : ∀ e ∈ tr, ∀ n, e.shown = some (.printed n) → n = master.counts)
  | left (silent : master.stage.Silent) (printed : ∀ e ∈ tr, ∀ n, e.shown ≠ some (.printed n))

structure Books (tr : List Label) (s : State) : Prop where
  silent : ∀ (p : ℕ) (x : Process), p ≠ 0 → s.procs[p]? = some x → x.stage.Silent
  master : ∃ m, s.procs[0]? = some m ∧ m.client = 0 ∧ MasterBooks tr s m

section

variable {filename script : Bytes} {n p : ℕ} {tr : List Label} {s : State} {self m x : Process}
  {o : Outcome} {e : Label} {c : Choice}

theorem clientsEnded_iff : s.clientsEnded = true ↔
    ∀ (p : ℕ) (x : Process), p ≠ 0 → s.procs[p]? = some x → x.stage.isEnded = true := by
  rw [State.clientsEnded, List.all_eq_true]
  constructor
  · intro h p x hp hx
    obtain ⟨p, rfl⟩ := Nat.exists_eq_succ_of_ne_zero hp
    exact h x (List.mem_of_getElem? (i := p) (by rw [List.getElem?_tail]; exact hx))
  · intro h x hx
    obtain ⟨p, hp⟩ := List.getElem?_of_mem hx
    rw [List.getElem?_tail] at hp
    exact h (p + 1) x (Nat.succ_ne_zero p) hp

/-- The processes but one are the same after a step of this one that starts no other. -/
theorem clientsEnded_after (h : s.clientsEnded = true) (hnone : o.spawned = none) :
    (s.after 0 self o).clientsEnded = true := by
  refine clientsEnded_iff.mpr fun q x hq hx => ?_
  rcases getElem?_after hx with ⟨h0, -⟩ | ⟨-, hx⟩ | ⟨-, i, hi, -⟩
  · exact absurd h0 hq
  · exact clientsEnded_iff.mp h q x hq hx
  · rw [hnone] at hi
    cases hi

theorem getElem?_after_self (h : s.procs[p]? = some self) :
    (s.after p self o).procs[p]? = some ⟨self.client, o.counts, o.stage⟩ := by
  have hlt : p < s.procs.length := (List.getElem?_eq_some_iff.mp h).1
  rw [State.after, List.getElem?_append_left (by rwa [List.length_set]),
    List.getElem?_set_self hlt]

theorem getElem?_after_of_ne {q : ℕ} (hq : q ≠ p) (h : s.procs[q]? = some x) :
    (s.after p self o).procs[q]? = some x := by
  have hlt : q < s.procs.length := (List.getElem?_eq_some_iff.mp h).1
  rw [State.after, List.getElem?_append_left (by rwa [List.length_set]),
    List.getElem?_set_ne (Ne.symm hq), h]

/-- Nothing is lost between the processes and the table. -/
theorem total_counts_after (hp : s.procs[p]? = some self) (ho : o.Balanced s.db self) :
    (s.after p self o).db.counters + total Process.counts (s.after p self o).procs =
      s.db.counters + total Process.counts s.procs + o.made := by
  have htot := total_after Process.counts hp (o := o)
  have hspawned : total (Process.counts ∘ spawned) o.spawned.toList = 0 := by
    cases o.spawned <;> rfl
  rw [hspawned, add_zero] at htot
  have hsum : o.db.counters + total Process.counts (s.after p self o).procs + self.counts =
      s.db.counters + total Process.counts s.procs + o.made + self.counts := by
    rw [add_assoc, htot, add_left_comm, ho]
    ac_rfl
  exact add_right_cancel hsum

theorem not_printed_append {tr : List Label} (h : ∀ e ∈ tr, ∀ n, e.shown ≠ some (.printed n))
    (he : ∀ n, e.shown ≠ some (.printed n)) :
    ∀ e' ∈ tr ++ [e], ∀ n, e'.shown ≠ some (.printed n) := by
  intro e' he'
  rcases List.mem_append.mp he' with he' | he'
  · exact h e' he'
  · rw [List.mem_singleton.mp he']
    exact he

/-- A step of a client. -/
theorem Books.client (h : Books tr s) (hp : s.procs[p]? = some self) (hp0 : p ≠ 0)
    (ho : self.next s.db c = some o) :
    Books (tr ++ [⟨p, self.client, o.made, o.shown⟩]) (s.after p self o) := by
  obtain ⟨m, hm, hclient, hbooks⟩ := h.master
  have hself := h.silent p self hp0 hp
  obtain ⟨hsilent, hshown⟩ := Process.next_silent ho hself
  have hrunning : s.clientsEnded ≠ true := by
    intro hended
    have := clientsEnded_iff.mp hended p self hp0 hp
    rw [Process.next_of_isEnded this] at ho
    cases ho
  constructor
  · intro q x hq hx
    rcases getElem?_after hx with ⟨-, rfl⟩ | ⟨-, hx⟩ | ⟨-, i, -, rfl⟩
    · exact hsilent
    · exact h.silent q x hq hx
    · trivial
  · refine ⟨m, getElem?_after_of_ne (Ne.symm hp0) hm, hclient, ?_⟩
    cases hbooks with
    | running task ops hstage hops hmade hprinted =>
      refine .running task ops hstage hops ?_ (not_printed_append hprinted hshown)
      rw [made_append, hmade, total_counts_after hp (Process.next_balanced ho hself.reads)]
    | read task hstage hended => exact absurd hended hrunning
    | done hstage hended => exact absurd hended hrunning
    | left hm hprinted => exact .left hm (not_printed_append hprinted hshown)

theorem columnInt_of_lt {n : ℕ} (h : n < 2 ^ 31) : Process.columnInt n = n := by
  have hmod : n % 2 ^ 32 = n := Nat.mod_eq_of_lt (by omega)
  rw [Process.columnInt, hmod, if_pos h]

/-- The master reads the counters. -/
theorem MasterBooks.read' (hm : s.procs[0]? = some m) {task : ℕ}
    (hstage : m.stage = .working task [.readCounters, .summary]) (hpass : c.pass = true)
    (hended : s.clientsEnded = true) (hmade : made tr = s.db.counters + total Process.counts s.procs)
    (hprinted : ∀ e ∈ tr, ∀ n, e.shown ≠ some (.printed n)) (ho : m.next s.db c = some o) :
    MasterBooks (tr ++ [⟨0, m.client, o.made, o.shown⟩]) (s.after 0 m o)
      ⟨m.client, o.counts, o.stage⟩ := by
  rw [Process.next, hstage] at ho
  cases ho
  refine .read task rfl (clientsEnded_after hended rfl) (fun hsmall => ?_)
    (not_printed_append hprinted nofun)
  rw [made_append] at hsmall ⊢
  obtain ⟨hlt1, hlt2⟩ := hsmall.of_add
  have htot := total_after Process.counts hm (o := m.runOp s.db c task [.summary] .readCounters)
  -- No number is too large to be read and added.
  have hle : m.counts.1 ≤ (total Process.counts s.procs).1 ∧
      m.counts.2 ≤ (total Process.counts s.procs).2 := by
    obtain ⟨rest, hrest⟩ : ∃ rest, s.procs = m :: rest := by
      cases hprocs : s.procs with
      | nil => simp [hprocs] at hm
      | cons x rest =>
        rw [hprocs] at hm
        exact ⟨rest, by rw [Option.some.inj hm]⟩
    rw [hrest, total_cons]
    exact ⟨Nat.le_add_right _ _, Nat.le_add_right _ _⟩
  have hsum1 : (made tr).1 = s.db.counters.1 + (total Process.counts s.procs).1 := by rw [hmade]; rfl
  have hsum2 : (made tr).2 = s.db.counters.2 + (total Process.counts s.procs).2 := by rw [hmade]; rfl
  have hcounts : (m.runOp s.db c task [.summary] .readCounters).counts =
      m.counts + s.db.counters + (c.messages, 0) := by
    simp only [Process.runOp, hpass, if_true, Process.goOn_counts]
    rw [columnInt_of_lt (by omega), columnInt_of_lt (by omega), Nat.mod_eq_of_lt (by omega),
      Nat.mod_eq_of_lt (by omega)]
    rfl
  rw [hcounts, Process.runOp, Process.goOn_spawned, Option.toList_none, total_nil, add_zero] at htot
  refine add_right_cancel (b := m.counts) (Eq.trans ?_ htot.symm)
  change made tr + (c.messages, 0) + m.counts =
    total Process.counts s.procs + (m.counts + s.db.counters + (c.messages, 0))
  rw [hmade]
  ac_rfl

/-- The master prints the totals. -/
theorem MasterBooks.done' (hm : s.procs[0]? = some m) {task : ℕ}
    (hstage : m.stage = .working task [.summary]) (hended : s.clientsEnded = true)
    (hmade : Small (made tr) → made tr = total Process.counts s.procs)
    (hprinted : ∀ e ∈ tr, ∀ n, e.shown ≠ some (.printed n)) (ho : m.next s.db c = some o) :
    MasterBooks (tr ++ [⟨0, m.client, o.made, o.shown⟩]) (s.after 0 m o)
      ⟨m.client, o.counts, o.stage⟩ := by
  have hreads : m.stage.reads = false := by rw [hstage]; rfl
  have hbal := total_counts_after hm (Process.next_balanced ho hreads)
  rw [Process.next, hstage] at ho
  cases ho
  refine .done (.inl ⟨task, rfl⟩) (clientsEnded_after hended rfl) (fun hsmall => ?_) ?_
  · rw [made_append] at hsmall ⊢
    rw [hmade hsmall.of_add]
    rw [add_assoc] at hbal
    exact (add_left_cancel hbal).symm
  · intro e he k hk
    rcases List.mem_append.mp he with he | he
    · exact absurd hk (hprinted e he k)
    · rw [List.mem_singleton.mp he] at hk
      cases hk
      rfl

/-- A step of the master. -/
theorem Books.master' (h : Books tr s) (hp : s.procs[0]? = some self)
    (hf : orderly s (.run 0 c) = true) (ho : self.next s.db c = some o) :
    Books (tr ++ [⟨0, self.client, o.made, o.shown⟩]) (s.after 0 self o) := by
  obtain ⟨m, hm, hclient, hbooks⟩ := h.master
  obtain rfl : m = self := Option.some.inj (hm.symm.trans hp)
  constructor
  · intro q x hq hx
    rcases getElem?_after hx with ⟨h0, -⟩ | ⟨-, hx⟩ | ⟨-, i, -, rfl⟩
    · exact absurd h0 hq
    · exact h.silent q x hq hx
    · trivial
  refine ⟨_, getElem?_after_self hp, hclient, ?_⟩
  cases hbooks with
  | running task ops hstage hops hmade hprinted =>
    cases ops with
    | nil =>
      simp only [orderly, hp, Option.all_some, Bool.and_eq_true, hstage, Bool.or_eq_true] at hf
      obtain ⟨hpass, hended⟩ := hf.2.resolve_left nofun
      exact .read' hp hstage hpass hended hmade hprinted ho
    | cons op ops =>
      have hop := hops op List.mem_cons_self
      have hreads : m.stage.reads = false := by
        rw [hstage]
        cases op <;> first | rfl | cases hop
      have hbal := total_counts_after hp (Process.next_balanced ho hreads)
      rw [Process.next, hstage] at ho
      cases ho
      obtain ⟨hshown, hnext⟩ := m.runOp_ops s.db c task (ops ++ [.readCounters, .summary]) hop
      rcases hnext with ⟨pushed, hpushed, heq⟩ | ⟨sts, code, heq⟩
      · refine .running task (pushed ++ ops) ?_ (fun x hx => ?_) ?_
          (not_printed_append hprinted hshown)
        · rw [List.append_assoc]
          exact heq
        · rcases List.mem_append.mp hx with hx | hx
          · exact hpushed x hx
          · exact hops x (.tail _ hx)
        · rw [made_append, hmade]
          exact hbal.symm
      · refine .left ?_ (not_printed_append hprinted hshown)
        have hsilent : (Stage.leaving sts code).Silent := trivial
        exact heq ▸ hsilent
  | read task hstage hended hmade hprinted => exact .done' hp hstage hended hmade hprinted ho
  | done hstage hended hmade hprinted =>
    rcases hstage with ⟨task, hstage⟩ | hstage
    · have hnext : m.next s.db c = some (m.goOn s.db (.ended (Process.exitCode m.counts)) 0) := by
        rw [Process.next, hstage]
        exact if_pos hclient
      obtain rfl := Option.some.inj (hnext.symm.trans ho)
      have hbal := total_counts_after hp (Process.next_balanced hnext (by rw [hstage]; rfl))
      refine .done (.inr rfl) (clientsEnded_after hended rfl) (fun hsmall => ?_) ?_
      · rw [made_append] at hsmall ⊢
        rw [hmade hsmall.of_add]
        rw [add_assoc] at hbal
        exact (add_left_cancel hbal).symm
      · intro e he k hk
        rcases List.mem_append.mp he with he | he
        · rw [hprinted e he k hk]
          exact (add_zero _).symm
        · rw [List.mem_singleton.mp he] at hk
          cases hk
    · rw [Process.next_of_isEnded hstage] at ho
      cases ho
  | left hsilent hprinted =>
    obtain ⟨hnext, hshown⟩ := Process.next_silent ho hsilent
    exact .left hnext (not_printed_append hprinted hshown)

/-- **The books after every orderly run.** -/
theorem books (h : Run step (fun s a => orderly s a) (start filename script n) tr s) : Books tr s := by
  refine h.invariant ?_ ?_
  · constructor
    · intro p x hp hx
      obtain ⟨p, rfl⟩ := Nat.exists_eq_succ_of_ne_zero hp
      cases hx
    · refine ⟨_, rfl, rfl, .running 0 (List.replicate n (.runScript filename script) ++
        [.waitForClient 0, .haltClients, .pollClients]) ?_ ?_ rfl nofun⟩
      · rw [masterOps, List.append_assoc]
        rfl
      · intro op hop
        rcases List.mem_append.mp hop with hop | hop
        · rw [List.eq_of_mem_replicate hop]
          rfl
        · simp only [List.mem_cons, List.not_mem_nil, or_false] at hop
          rcases hop with rfl | rfl | rfl <;> rfl
  · intro tr s a s' e _ ih hf hs
    obtain ⟨p, self, o, hp, rfl, rfl, hcase⟩ := step_cases hs
    rcases hcase with ⟨c, rfl, ho⟩ | ⟨halts, rfl, -⟩
    · by_cases hp0 : p = 0
      · subst hp0
        exact ih.master' hp hf ho
      · exact ih.client hp hp0 ho
    · cases hf

/-- **What the master prints is what was counted, less what clients still held when they ended.** -/
theorem printed_add_kept (h : Run step (fun s a => orderly s a) (start filename script n) tr s)
    (hsmall : Small (made tr)) (he : e ∈ tr) {totals : Counts}
    (hprinted : e.shown = some (.printed totals)) :
    s.clientsEnded = true ∧ totals + total Process.counts s.procs.tail = made tr := by
  obtain ⟨m, hm, -, hbooks⟩ := (books h).master
  cases hbooks with
  | running _ _ _ _ _ hnone => exact absurd hprinted (hnone e he totals)
  | read _ _ _ _ hnone => exact absurd hprinted (hnone e he totals)
  | left _ hnone => exact absurd hprinted (hnone e he totals)
  | done _ hended hmade hcounts =>
    refine ⟨hended, ?_⟩
    rw [hcounts e he totals hprinted, hmade hsmall]
    cases hprocs : s.procs with
    | nil => simp [hprocs] at hm
    | cons x rest =>
      rw [hprocs] at hm
      rw [Option.some.inj hm, List.tail_cons, total_cons]

end

/-! ## Clients that end in order -/

/-- A step of a client that loses no counts: it does not give up, it leaves by `--exit` only if it has
nothing left since its last `start_script`, and no message comes after the last `start_script` of a
client that is halted. -/
def Process.keepsCounts (self : Process) (db : Tables) (c : Choice) : Bool :=
  match self.stage with
  | .claiming waited =>
    c.busy || if db.clients.halted self.client then c.messages == 0
      else (db.tasks.next self.client).isSome || decide (waited ≤ 30000)
  | .leaving _ _ => c.messages == 0
  | _ =>
    match self.command? with
    | some (.exit _) => self.counts == 0
    | _ => true

/-- No step of a client loses counts. -/
def keepsCounts (s : State) : Action → Bool
  | .run p c => p == 0 || (s.procs[p]?).all fun self => self.keepsCounts s.db c
  | .fatal _ _ => true

/-- A client that is on its way out has nothing left. -/
def Process.Clean (self : Process) : Prop :=
  match self.stage with
  | .startUp | .leaving _ _ | .ended _ => self.counts = 0
  | .claiming _ | .claimed _ _ _ | .working _ _ => self.client ≠ 0

section

variable {self : Process} {db : Tables} {c : Choice} {o : Outcome} {task : ℕ} {rest : List Op}

theorem clean_ended {client : ℕ} {counts : Counts} {stage : Stage} (hcounts : counts = 0)
    (hclient : client ≠ 0) : Process.Clean ⟨client, counts, stage⟩ := by
  cases stage <;> first | exact hcounts | exact hclient

theorem Process.startScript_clean {waited : ℕ} (hs : self.stage = .claiming waited)
    (hk : self.keepsCounts db c = true) (hclient : self.client ≠ 0) :
    Process.Clean ⟨self.client, (self.startScript db c waited).counts,
      (self.startScript db c waited).stage⟩ := by
  simp only [Process.keepsCounts, hs, Bool.or_eq_true] at hk
  unfold Process.startScript
  split
  · exact hclient
  · rename_i hbusy
    replace hk := hk.resolve_left hbusy
    dsimp only
    split
    · rename_i hhalted
      rw [if_pos hhalted, beq_iff_eq] at hk
      refine clean_ended ?_ hclient
      rw [Process.goOn_counts, hk]
      rfl
    · rename_i hhalted
      rw [if_neg hhalted] at hk
      split
      · exact hclient
      · rename_i hnone
        split
        · rename_i hlate
          simp only [hnone, Option.isSome_none, Bool.false_eq_true, false_or, Bool.or_eq_true,
            decide_eq_true_eq] at hk
          omega
        · exact hclient

theorem Process.runOp_clean {op : Op} (hs : self.stage = .working task (op :: rest))
    (hk : self.keepsCounts db c = true) (hclient : self.client ≠ 0) :
    Process.Clean ⟨self.client, (self.runOp db c task rest op).counts,
      (self.runOp db c task rest op).stage⟩ := by
  cases op with
  | script f =>
    change Process.Clean ⟨self.client, (self.runFrame db c task rest f).counts,
      (self.runFrame db c task rest f).stage⟩
    unfold Process.runFrame
    split
    · exact hclient
    · exact hclient
    · rename_i hev
      split
      · rename_i hcmd
        simp only [Process.keepsCounts, hs, Process.command?, hev, hcmd, beq_iff_eq] at hk
        refine clean_ended ?_ hclient
        rw [Process.goOn_counts, hk]
        rfl
      · exact hclient
  | spawn client =>
    rw [Process.runOp]
    split <;> exact hclient
  | waitForClient client =>
    rw [Process.runOp]
    split
    · exact hclient
    · split <;> exact hclient
  | summary | runScript | insertClient | insertTask | statement | haltClients | pollClients =>
    exact hclient
  | readCounters => exact hclient

theorem Process.next_clean (h : self.next db c = some o) (hk : self.keepsCounts db c = true)
    (hclean : self.Clean) : Process.Clean ⟨self.client, o.counts, o.stage⟩ := by
  unfold Process.next at h
  split at h <;> rename_i hs
  · simp only [Process.Clean, hs] at hclean
    split_ifs at h with hclient <;> cases h
    · change self.counts + 0 = 0
      rw [hclean, add_zero]
    · exact hclient
  · simp only [Process.Clean, hs] at hclean
    cases h
    exact Process.startScript_clean hs hk hclean
  · simp only [Process.Clean, hs] at hclean
    cases h
    exact hclean
  · simp only [Process.Clean, hs] at hclean
    rw [if_neg hclean] at h
    cases h
    exact hclean
  · simp only [Process.Clean, hs] at hclean
    cases h
    exact Process.runOp_clean hs hk hclean
  · simp only [Process.Clean, hs] at hclean
    simp only [Process.keepsCounts, hs, beq_iff_eq] at hk
    cases h
    change self.counts + (c.messages, 0) = 0
    rw [hclean, hk]
    rfl
  · simp only [Process.Clean, hs] at hclean
    cases h
    change self.counts + 0 = 0
    rw [hclean, add_zero]
  · simp only [Process.Clean, hs] at hclean
    simp only [Process.keepsCounts, hs, beq_iff_eq] at hk
    cases h
    change self.counts + (c.messages, 0) = 0
    rw [hclean, hk]
    rfl
  · cases h

end

section

variable {filename script : Bytes} {n : ℕ} {tr : List Label} {s : State} {e : Label}

/-- **Clients that end in order have nothing left.** -/
theorem clean (h : Run step (fun s a => orderly s a && keepsCounts s a) (start filename script n) tr s) :
    ∀ (p : ℕ) (x : Process), p ≠ 0 → s.procs[p]? = some x → x.Clean := by
  refine h.invariant (I := fun _ s => ∀ (p : ℕ) (x : Process), p ≠ 0 → s.procs[p]? = some x → x.Clean)
    ?_ ?_
  · intro p x hp hx
    obtain ⟨p, rfl⟩ := Nat.exists_eq_succ_of_ne_zero hp
    cases hx
  · intro tr s a s' e _ ih hf hs q x hq hx
    obtain ⟨p, self, o, hp, rfl, -, hcase⟩ := step_cases hs
    rcases hcase with ⟨c, rfl, ho⟩ | ⟨halts, rfl, -⟩
    · simp only [keepsCounts, hp, Option.all_some, Bool.and_eq_true, Bool.or_eq_true, beq_iff_eq] at hf
      rcases getElem?_after hx with ⟨rfl, rfl⟩ | ⟨-, hx⟩ | ⟨-, i, -, rfl⟩
      · exact Process.next_clean ho (hf.2.resolve_left hq) (ih q self hq hp)
      · exact ih q x hq hx
      · rfl
    · cases hf

theorem counts_of_isEnded {x : Process} (hx : x.Clean) (hended : x.stage.isEnded = true) :
    x.counts = 0 := by
  unfold Stage.isEnded at hended
  split at hended
  · rename_i code hs
    simpa only [Process.Clean, hs] using hx
  · cases hended

/-- **No count is lost** in a run of clients that end in order: the totals that the master prints are
the errors and tests of all processes. -/
theorem printed_totals
    (h : Run step (fun s a => orderly s a && keepsCounts s a) (start filename script n) tr s)
    (hsmall : Small (made tr)) (he : e ∈ tr) {totals : Counts}
    (hprinted : e.shown = some (.printed totals)) : totals = made tr := by
  have horderly := h.mono (Q := fun s a => orderly s a) fun s a hp => (Bool.and_eq_true _ _ ▸ hp).1
  obtain ⟨hended, hsum⟩ := printed_add_kept horderly hsmall he hprinted
  have hzero : total Process.counts s.procs.tail = 0 := by
    refine List.sum_eq_zero fun k hk => ?_
    obtain ⟨x, hx, rfl⟩ := List.mem_map.mp hk
    obtain ⟨p, hp⟩ := List.getElem?_of_mem hx
    rw [List.getElem?_tail] at hp
    have hp0 : p + 1 ≠ 0 := Nat.succ_ne_zero p
    exact counts_of_isEnded (clean h _ x hp0 hp) (clientsEnded_iff.mp hended _ x hp0 hp)
  rwa [hzero, add_zero] at hsum

end

/-! ## Two clients -/

/-- A failed test of a client that is halted in the end. -/
def haltedScript : Bytes := ascii "--task 1\n--match a\n--end\n"

def haltedActions : List Action :=
  [0, 0, 0, 0, 0, 1, 1, 1].map plain ++ [.run 1 { pass := false }] ++
    [1, 1, 1, 0, 0, 0, 1, 1, 0, 0, 0].map plain

theorem printed_totals_halted : ∃ tr s e,
    Run step (fun s a => orderly s a && keepsCounts s a) (start (ascii "a.test") haltedScript 1) tr s ∧
    e ∈ tr ∧ e.shown = some (.printed (1, 1)) ∧ (1, 1) = made tr := by
  have hrun : (execute step (fun s a => orderly s a && keepsCounts s a) haltedActions
      (start (ascii "a.test") haltedScript 1)).map
        (fun r => (made r.1, r.1.getLast?.map Label.shown)) =
      some ((1, 1), some (some (.printed (1, 1)))) := by
    decide +kernel
  obtain ⟨⟨tr, s⟩, hexec, heq⟩ := Option.map_eq_some_iff.mp hrun
  obtain ⟨hmade, hlast⟩ := Prod.mk.inj heq
  obtain ⟨e, he, hshown⟩ := Option.map_eq_some_iff.mp hlast
  refine ⟨tr, s, e, .of_execute hexec, List.mem_of_getLast? he, hshown, ?_⟩
  exact printed_totals (.of_execute hexec) (by rw [show made tr = (1, 1) from hmade]; exact ⟨by decide, by decide⟩)
    (List.mem_of_getLast? he) hshown

/-- A failed test of a client that leaves by `--exit 0`. -/
def exitScript : Bytes := ascii "--task 1\n--match a\n--exit 0\n--end\n"

def exitActions : List Action :=
  [0, 0, 0, 0, 0, 1, 1, 1].map plain ++ [.run 1 { pass := false }] ++
    [1, 1, 1, 1, 1, 0, 0, 0, 0, 0, 0].map plain

/-- The run is orderly, and the test is in no total. -/
theorem exit_loses_counts : ∃ tr s e,
    Run step (fun s a => orderly s a) (start (ascii "a.test") exitScript 1) tr s ∧
    e ∈ tr ∧ e.shown = some (.printed (0, 0)) ∧ made tr = (1, 1) := by
  have hrun : (execute step (fun s a => orderly s a) exitActions
      (start (ascii "a.test") exitScript 1)).map
        (fun r => (made r.1, r.1.getLast?.map Label.shown)) =
      some ((1, 1), some (some (.printed (0, 0)))) := by
    decide +kernel
  obtain ⟨⟨tr, s⟩, hexec, heq⟩ := Option.map_eq_some_iff.mp hrun
  obtain ⟨hmade, hlast⟩ := Prod.mk.inj heq
  obtain ⟨e, he, hshown⟩ := Option.map_eq_some_iff.mp hlast
  exact ⟨tr, s, e, .of_execute hexec, List.mem_of_getLast? he, hshown, hmade⟩

end Fstest.Mptest
