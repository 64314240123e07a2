import Fstest.Lib.Bytes
import Mathlib.Data.List.Induction
import Mathlib.Data.List.Nodup
import Mathlib.Algebra.Group.Prod
import Mathlib.Algebra.GroupWithZero.Nat
import Mathlib.Algebra.Order.Group.Nat

/-!
# The tables that the processes share

The tables `task`, `client` and `counters` of the database, with the statements that the program
runs on them. A table carries what its primary key promises: the rows of `task` are kept in the
order of their ids, and no id occurs twice in `client`. Ids are natural numbers: a database is full
long before it has `2 ^ 63` rows.
-/

namespace Fstest.Mptest

/-! ## The table `task` -/

structure TaskRow where
  id : ℕ
  name : Bytes
  client : ℕ
  started : Bool
  ended : Bool
  script : Bytes
  deriving DecidableEq, Repr

structure TaskTable where
  rows : List TaskRow
  sorted : rows.Pairwise fun a b => a.id < b.id
  deriving DecidableEq

namespace TaskTable

def empty : TaskTable := ⟨[], .nil⟩

/-- The id of a new row is larger than all others. -/
def nextId (t : TaskTable) : ℕ := (t.rows.getLast?.map TaskRow.id).getD 0 + 1

theorem lt_nextId (t : TaskTable) {r : TaskRow} (hr : r ∈ t.rows) : r.id < t.nextId := by
  obtain ⟨rows, hsorted⟩ := t
  change r ∈ rows at hr
  induction rows using List.reverseRecOn with
  | nil => cases hr
  | append_singleton rows last =>
    simp only [nextId, List.getLast?_append, List.getLast?_singleton, Option.some_or,
      Option.map_some, Option.getD_some]
    rcases List.mem_append.mp hr with hr | hr
    · have := (List.pairwise_append.mp hsorted).2.2 r hr last (List.mem_singleton_self last)
      omega
    · rw [List.mem_singleton.mp hr]
      exact Nat.lt_succ_self _

/-- `INSERT INTO task(client,script,name) VALUES(..)` -/
def insert (t : TaskTable) (client : ℕ) (name script : Bytes) : TaskTable where
  rows := t.rows ++ [⟨t.nextId, name, client, false, false, script⟩]
  sorted := by
    refine List.pairwise_append.mpr ⟨t.sorted, List.pairwise_singleton _ _, ?_⟩
    intro r hr r' hr'
    rw [List.mem_singleton.mp hr']
    exact t.lt_nextId hr

/-- `UPDATE task SET starttime=.. WHERE id=..` -/
def start (t : TaskTable) (id : ℕ) : TaskTable where
  rows := t.rows.map fun r => if r.id = id then { r with started := true } else r
  sorted := by
    refine List.pairwise_map.mpr (t.sorted.imp ?_)
    intro a b hab
    split <;> split <;> exact hab

/-- `UPDATE task SET endtime=.. WHERE id=..` -/
def finish (t : TaskTable) (id : ℕ) : TaskTable where
  rows := t.rows.map fun r => if r.id = id then { r with ended := true } else r
  sorted := by
    refine List.pairwise_map.mpr (t.sorted.imp ?_)
    intro a b hab
    split <;> split <;> exact hab

/-- `SELECT .. FROM task WHERE client=.. AND starttime IS NULL ORDER BY id LIMIT 1` -/
def next (t : TaskTable) (client : ℕ) : Option TaskRow :=
  t.rows.find? fun r => r.client == client && !r.started

theorem eq_of_id_eq (t : TaskTable) {r r' : TaskRow} (hr : r ∈ t.rows) (hr' : r' ∈ t.rows)
    (hid : r.id = r'.id) : r = r' := by
  have hnodup : (t.rows.map TaskRow.id).Nodup :=
    List.pairwise_map.mpr (t.sorted.imp fun hab => Nat.ne_of_lt hab)
  exact List.inj_on_of_nodup_map hnodup hr hr' hid

end TaskTable

/-! ## The table `client` -/

structure ClientRow where
  id : ℕ
  wantHalt : Bool
  deriving DecidableEq, Repr

structure ClientTable where
  rows : List ClientRow
  unique : (rows.map ClientRow.id).Nodup
  deriving DecidableEq

namespace ClientTable

def empty : ClientTable := ⟨[], .nil⟩

def ids (t : ClientTable) : List ℕ := t.rows.map ClientRow.id

/-- `INSERT OR IGNORE INTO client VALUES(..,0)` -/
def insert (t : ClientTable) (id : ℕ) : ClientTable :=
  if h : id ∈ t.ids then t
  else
    { rows := t.rows ++ [⟨id, false⟩]
      unique := by
        rw [List.map_append]
        exact List.nodup_append.mpr ⟨t.unique, List.nodup_singleton id, fun a ha b hb hab => by
          obtain rfl := List.mem_singleton.mp hb
          exact h (hab ▸ ha)⟩ }

/-- `DELETE FROM client WHERE id=..` -/
def delete (t : ClientTable) (id : ℕ) : ClientTable where
  rows := t.rows.filter fun r => r.id != id
  unique := t.unique.sublist (List.filter_sublist.map _)

/-- `UPDATE client SET wantHalt=1` -/
def haltAll (t : ClientTable) : ClientTable where
  rows := t.rows.map fun r => { r with wantHalt := true }
  unique := by
    rw [List.map_map]
    exact t.unique

/-- `SELECT 1 FROM client WHERE id=.. AND wantHalt` -/
def halted (t : ClientTable) (id : ℕ) : Bool := t.rows.any fun r => r.id == id && r.wantHalt

/-- How many rows a client has: one or none. -/
def count (t : ClientTable) (id : ℕ) : ℕ := t.ids.count id

theorem count_insert_of_mem {t : ClientTable} {id : ℕ} (h : id ∈ t.ids) : t.insert id = t := by
  rw [insert, dif_pos h]

theorem count_insert {t : ClientTable} {id : ℕ} (h : id ∉ t.ids) (i : ℕ) :
    (t.insert id).count i = t.count i + if id = i then 1 else 0 := by
  rw [insert, dif_neg h]
  simp only [count, ids, List.map_append, List.map_cons, List.map_nil, List.count_append,
    List.count_singleton, beq_iff_eq]

theorem count_le_one (t : ClientTable) (id : ℕ) : t.count id ≤ 1 :=
  List.nodup_iff_count_le_one.mp t.unique id

theorem count_delete_of_ne (t : ClientTable) {id i : ℕ} (h : i ≠ id) :
    (t.delete id).count i = t.count i := by
  obtain ⟨rows, hunique⟩ := t
  simp only [count, ids, delete]
  clear hunique
  induction rows with
  | nil => rfl
  | cons r rows ih =>
    rw [List.filter_cons]
    split
    · rw [List.map_cons, List.map_cons, List.count_cons, List.count_cons, ih]
    · rename_i hr
      simp only [bne_iff_ne, ne_eq, not_not] at hr
      rw [ih, List.map_cons, List.count_cons_of_ne (by omega)]

@[simp] theorem count_haltAll (t : ClientTable) (id : ℕ) : t.haltAll.count id = t.count id := by
  simp [count, ids, haltAll, Function.comp_def]

end ClientTable

/-! ## The database -/

/-- Errors and tests. -/
abbrev Counts := ℕ × ℕ

structure Tables where
  tasks : TaskTable
  clients : ClientTable
  counters : Counts
  deriving DecidableEq

/-- The tables as the master creates them. -/
def Tables.empty : Tables := ⟨.empty, .empty, 0⟩

end Fstest.Mptest
