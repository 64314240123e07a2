import Fstest.Mptest.Tables
import Fstest.Mptest.Token
import Mathlib.Algebra.Order.Group.Int

/-!
# The master waits for its clients

Before the master reads the counters, it polls the table `client` for at most 1000 ms. The loop goes
on while the code of a poll is `SQLITE_BUSY` or `SQLITE_ROW`. `sqlite3_exec` runs a statement to its end
and never returns `SQLITE_ROW`, so the first poll that is not locked out ends the loop, whether or not
it found a client (`shutdown_waits_iff`). With the codes of `sqlite3_step`, which the loop was written
for, it would wait (`shutdown_waits_of_row`).
-/

namespace Fstest.Mptest

abbrev sqliteOk : ℤ := 0
abbrev sqliteBusy : ℤ := 5
abbrev sqliteMisuse : ℤ := 21
abbrev sqliteRow : ℤ := 100

/-- What a poll meets: the table `client`, and whether the database is locked. -/
structure Moment where
  locked : Bool
  clients : ClientTable

/-- `strip_trailing_nul` -/
def stripTrailingNul (sql : Bytes) : Bytes := (sql.reverse.dropWhile (· == 0)).reverse

section

variable (exec : Bytes → Moment → ℤ)

/-- The code of `exec_raw`. The parameter `exec` is `sqlite3_exec` without a callback. -/
def execRaw (m : Moment) (sql : Bytes) : ℤ :=
  if 0 ∈ stripTrailingNul sql then sqliteMisuse else exec (stripTrailingNul sql) m

def trySql (m : Moment) (sql : Bytes) : ℤ := execRaw exec m sql

def selectClients : Bytes := ascii "SELECT 1 FROM client"

/-- The loop from poll `k` on, with the codes of its polls: the last poll, and the time that is left. -/
def pollLoop (rc : ℕ → ℤ) (k : ℕ) (timeout : ℤ) : ℕ × ℤ :=
  if rc k = sqliteBusy ∨ rc k = sqliteRow then
    if 0 < timeout - 10 then pollLoop rc (k + 1) (timeout - 10) else (k, timeout - 10)
  else (k, timeout)
termination_by timeout.toNat

/-- The shutdown loop of `mptest_main`, which at its poll `k` meets `db k`. -/
def shutdown (db : ℕ → Moment) : ℕ × ℤ :=
  pollLoop (fun k => trySql exec (db k) selectClients) 0 1000

/-- The master has waited: its last poll was made without a client, or its time is used up. -/
def Waited (db : ℕ → Moment) (e : ℕ × ℤ) : Prop := (db e.1).clients = .empty ∨ e.2 ≤ 0

end

/-! ## The loop -/

section

variable {rc : ℕ → ℤ} {k j : ℕ} {timeout : ℤ}

/-- The code makes the loop go on. -/
def Again (c : ℤ) : Prop := c = sqliteBusy ∨ c = sqliteRow

instance (c : ℤ) : Decidable (Again c) := inferInstanceAs (Decidable (_ ∨ _))

/-- How the loop ends: at the first code that is another one, or with no time left. -/
structure PollEnd (rc : ℕ → ℤ) (k : ℕ) (timeout : ℤ) (e : ℕ × ℤ) : Prop where
  le : k ≤ e.1
  before : ∀ j, k ≤ j → j < e.1 → Again (rc j)
  reason : (¬ Again (rc e.1) ∧ 0 < e.2 ∧ e.2 = timeout - 10 * (e.1 - k : ℕ)) ∨
    (Again (rc e.1) ∧ e.2 ≤ 0 ∧ 0 < e.2 + 10 ∧ e.2 = timeout - 10 * (e.1 + 1 - k : ℕ))

theorem pollLoop_end (h : 0 < timeout) : PollEnd rc k timeout (pollLoop rc k timeout) := by
  induction k, timeout using pollLoop.induct rc with
  | case1 k timeout hbusy hlt ih =>
    obtain ⟨hle, hbefore, hreason⟩ := ih hlt
    rw [pollLoop, if_pos hbusy, if_pos hlt]
    refine ⟨by omega, fun j hj hje => ?_, ?_⟩
    · rcases Nat.eq_or_lt_of_le hj with rfl | hj
      · exact hbusy
      · exact hbefore j hj hje
    · rcases hreason with ⟨hstop, hpos, heq⟩ | ⟨hbusy, hout, hlast, heq⟩
      · exact .inl ⟨hstop, hpos, by omega⟩
      · exact .inr ⟨hbusy, hout, hlast, by omega⟩
  | case2 k timeout hbusy hlt =>
    rw [pollLoop, if_pos hbusy, if_neg hlt]
    refine ⟨le_rfl, fun j hj hje => by omega, .inr ⟨hbusy, by omega, by omega, ?_⟩⟩
    show timeout - 10 = timeout - 10 * (k + 1 - k : ℕ)
    omega
  | case3 k timeout hbusy =>
    rw [pollLoop, if_neg hbusy]
    refine ⟨le_rfl, fun j hj hje => by omega, .inl ⟨hbusy, h, ?_⟩⟩
    show timeout = timeout - 10 * (k - k : ℕ)
    omega

/-- The loop makes at most 100 polls. -/
theorem PollEnd.lt {e : ℕ × ℤ} (h : PollEnd rc 0 1000 e) : e.1 < 100 := by
  rcases h.reason with ⟨-, hpos, heq⟩ | ⟨-, -, hlast, heq⟩ <;> omega

/-- A loop that is stopped by a code is stopped by the first one that stops it. -/
theorem PollEnd.eq_of_stop {e : ℕ × ℤ} (h : PollEnd rc 0 1000 e) (hj : j < 100)
    (hbefore : ∀ i < j, Again (rc i)) (hstop : ¬ Again (rc j)) : e.1 = j ∧ 0 < e.2 := by
  have hle : e.1 ≤ j := by
    by_contra hlt
    exact hstop (h.before j (Nat.zero_le j) (by omega))
  rcases h.reason with ⟨hend, hpos, -⟩ | ⟨hend, hout, -, heq⟩
  · refine ⟨?_, hpos⟩
    by_contra hne
    exact hend (hbefore e.1 (by omega))
  · have hj : e.1 = j := by omega
    exact absurd (hj ▸ hend) hstop

end

/-! ## Whether the master waits -/

section

variable (exec : Bytes → Moment → ℤ) (db : ℕ → Moment)

theorem trySql_selectClients (m : Moment) : trySql exec m selectClients = exec selectClients m := by
  have hstrip : stripTrailingNul selectClients = selectClients := by decide +kernel
  rw [trySql, execRaw, hstrip, if_neg (by decide +kernel)]

theorem shutdown_end : PollEnd (fun k => exec selectClients (db k)) 0 1000 (shutdown exec db) := by
  have hrc : (fun k => trySql exec (db k) selectClients) = fun k => exec selectClients (db k) :=
    funext fun k => trySql_selectClients exec (db k)
  rw [shutdown, hrc]
  exact pollLoop_end (by decide)

variable {exec db}

/-- `sqlite3_exec` gives `SQLITE_BUSY` for a locked database, and `SQLITE_OK` for a statement that ran,
whatever rows it had. So the master waits exactly if its first poll that is not locked out, among the
100 that it has time for, finds no client. -/
theorem shutdown_waits_iff (hlocked : ∀ m, m.locked = true → exec selectClients m = sqliteBusy)
    (hok : ∀ m, m.locked = false → exec selectClients m = sqliteOk) :
    Waited db (shutdown exec db) ↔
      ∀ k < 100, (∀ j < k, (db j).locked = true) → (db k).locked = false → (db k).clients = .empty := by
  have hend := shutdown_end exec db
  have hagain (m : Moment) : Again (exec selectClients m) ↔ m.locked = true := by
    cases hm : m.locked with
    | true => exact iff_of_true (.inl (hlocked m hm)) rfl
    | false =>
      rw [hok m hm]
      exact iff_of_false (by decide) nofun
  constructor
  · intro hwaited k hk hbefore hfree
    obtain ⟨rfl, hleft⟩ := hend.eq_of_stop hk (fun j hj => (hagain _).mpr (hbefore j hj))
      fun h => Bool.false_ne_true (hfree.symm.trans ((hagain _).mp h))
    exact hwaited.resolve_right (by omega)
  · intro hfirst
    rcases hend.reason with ⟨hstop, -, -⟩ | ⟨-, hout, -, -⟩
    · refine .inl (hfirst _ hend.lt (fun j hj => (hagain _).mp (hend.before j (Nat.zero_le j) hj)) ?_)
      exact Bool.eq_false_of_not_eq_true fun h => hstop ((hagain _).mpr h)
    · exact .inr hout

/-- The code of `sqlite3_exec` for a query of the table `client`. -/
def execQuery (_ : Bytes) (m : Moment) : ℤ := if m.locked then sqliteBusy else sqliteOk

/-- A client that is still there at the first `n` polls. -/
def leavesAfter (n k : ℕ) : Moment where
  locked := false
  clients := if k < n then ClientTable.empty.insert 1 |>.haltAll else .empty

/-- A client that leaves before poll `n`, and a database that is locked up to then. -/
def leavesWhileLocked (n k : ℕ) : Moment := { leavesAfter n k with locked := decide (k < n) }

/-- The first poll that is not locked out finds no client any more. -/
theorem shutdown_waits_while_locked : (leavesWhileLocked 3 0).clients.rows ≠ [] ∧
    Waited (leavesWhileLocked 3) (shutdown execQuery (leavesWhileLocked 3)) := by
  refine ⟨by decide, (shutdown_waits_iff ?_ ?_).mpr fun k _ _ hfree => ?_⟩
  · exact fun m h => if_pos h
  · exact fun m h => if_neg (by rw [h]; decide)
  · exact if_neg (of_decide_eq_false hfree)

/-- A client that would leave within 30 ms, and the master goes on with all of its 1000 ms left. -/
theorem shutdown_leaves_client : ¬ ∀ (exec : Bytes → Moment → ℤ) (db : ℕ → Moment),
    (∀ m, m.locked = true → exec selectClients m = sqliteBusy) →
    (∀ m, m.locked = false → exec selectClients m = sqliteOk) →
    Waited db (shutdown exec db) := by
  intro hclaim
  have hwaited := hclaim execQuery (leavesAfter 3) (fun m h => if_pos h)
    fun m h => if_neg (by rw [h]; decide)
  have hend : shutdown execQuery (leavesAfter 3) = (0, 1000) := by
    unfold shutdown
    rw [pollLoop, if_neg]
    rw [trySql_selectClients]
    decide
  rw [hend] at hwaited
  rcases hwaited with hclients | hleft
  · exact absurd (congrArg ClientTable.rows hclients) (by decide)
  · exact absurd hleft (by decide)

/-- The codes of `sqlite3_step` would make the master wait, whatever the clients do. -/
theorem shutdown_waits_of_row (hlocked : ∀ m, m.locked = true → exec selectClients m = sqliteBusy)
    (hrow : ∀ m, m.locked = false → m.clients ≠ .empty → exec selectClients m = sqliteRow) :
    Waited db (shutdown exec db) := by
  rcases (shutdown_end exec db).reason with ⟨hstop, -, -⟩ | ⟨-, hout, -, -⟩
  · refine .inl ?_
    by_contra hclients
    cases hm : (db (shutdown exec db).1).locked with
    | true => exact hstop (.inl (hlocked _ hm))
    | false => exact hstop (.inr (hrow _ hm hclients))
  · exact .inr hout

end

end Fstest.Mptest
