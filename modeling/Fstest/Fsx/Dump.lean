import Fstest.Fsx.Log
import Fstest.Fsx.Random
import Fstest.Lib.Path
import Fstest.Lib.Ring
import Fstest.Lib.Text

/-!
# The log dump of fsx

`logdump` lists the entries of the ring buffer in the order in which they were made
(`logdump_lists`). From 10000 entries on it gives them too large a number, so the dump is the tail of the
run exactly as long as the ring has not filled up (`logdump_true_iff`).
-/

namespace Fstest.Fsx

open Text

variable {σ : Type} {K : Kernel σ} {s s' : Fsx σ} {a : Args}

/-- `OP_NAMES`. -/
def opName : Op → Text
  | .read => text "read"
  | .write => text "write"
  | .mapRead => text "mapread"
  | .mapWrite => text "mapwrite"
  | .truncate => text "truncate"
  | .fallocate => text "fallocate"
  | .punchHole => text "punch_hole"
  | .zeroRange => text "zero_range"
  | .writeZeroes => text "write_zeroes"
  | .collapseRange => text "collapse_range"
  | .insertRange => text "insert_range"
  | .cloneRange => text "clone_range"
  | .copyRange => text "copy_range"
  | .fsync => text "fsync"

/-- ` 0x{n:x}`. -/
def hexArg (n : ℕ) : Text := text " 0x" ++ Nat.toDigits 16 n

/-- The line of one entry, after its number. -/
def entryLine (le : LogEntry) : Text :=
  if le.skipped then text "SKIPPED " ++ opName le.op
  else
    opName le.op ++ hexArg le.args.1 ++ hexArg le.args.2.1 ++ hexArg le.args.2.2 ++
      (if le.keepSize then text " keep_size" else []) ++
      (if le.unshare then text " unshare" else []) ++
      (if le.closeOpen then text " close_open" else [])

def logLine (opnum : ℕ) (le : LogEntry) : Text := decimal opnum ++ text ": " ++ entryLine le

/-- The loop of `logdump` with `count` entries left, the next one in slot `i`. -/
def logLines (s : Fsx σ) : (count c : ℕ) → Fin logSize → List Text
  | 0, _, _ => []
  | count + 1, c, i =>
    logLine (c + 1 + s.logcount / logSize * logSize) (s.log.get i) ::
      logLines s count (c + 1) (logptrNext i)

def logdump (s : Fsx σ) : List Text :=
  let start := if s.logcount < logSize then ⟨0, logSize_pos⟩ else s.logptr
  (text "LOG DUMP (" ++ decimal s.logcount ++ text " total operations):") ::
    logLines s (min s.logcount logSize) 0 start

/-! ## The operations that a run logs -/

/-- What an iteration from `s` to `s'` logged. -/
def logged (s s' : Fsx σ) : List LogEntry :=
  if s'.logcount = s.logcount then [] else [s'.log.get s.logptr]

/-- What `n` rounds of the loop logged. -/
def history (a : Args) (K : Kernel σ) (f0 : ℕ) : ℕ → Fsx σ → List LogEntry
  | 0, _ => []
  | n + 1, s =>
    if s.failure.isSome then []
    else
      match iteration a K f0 s with
      | none => []
      | some s' => logged s s' ++ history a K f0 n s'

/-- The log holds the last of the entries `es`. -/
structure Logged (es : List LogEntry) (s : Fsx σ) : Prop where
  ring : Ring.Keeps s.log s.logptr es
  logcount : s.logcount = es.length

theorem iteration_logged {f0 : ℕ} {es : List LogEntry} (h : Logged es s)
    (hr : iteration a K f0 s = some s') : Logged (es ++ logged s s') s' := by
  rcases ((iteration_logs a K f0 s).of_eq_some s' hr).log with ⟨hlog, hptr, hcount⟩ | ⟨e, hlog, hptr, hcount⟩
  · rw [logged, if_pos hcount, List.append_nil]
    exact ⟨by rw [hlog, hptr]; exact h.ring, hcount.trans h.logcount⟩
  · have hcount' : s'.logcount = s.logcount + 1 := hcount
    have hslot : s'.log.get s.logptr = e := by
      rw [hlog]
      exact Vector.getElem_set_self _
    rw [logged, if_neg (by omega), hslot]
    refine ⟨?_, by rw [hcount', h.logcount, List.length_append]; rfl⟩
    rw [hlog, hptr]
    exact h.ring.push s.logptr.2 e

theorem runFor_logged {f0 n : ℕ} {es : List LogEntry} (h : Logged es s)
    (hr : runFor a K f0 n s = some s') : Logged (es ++ history a K f0 n s) s' := by
  induction n generalizing s es with
  | zero =>
    cases hr
    rw [history, List.append_nil]
    exact h
  | succ n ih =>
    unfold runFor at hr
    unfold history
    split at hr
    · rename_i hfail
      cases hr
      rw [if_pos hfail, List.append_nil]
      exact h
    · rename_i hfail
      obtain ⟨s₁, hstep, hrest⟩ := Option.bind_eq_some_iff.mp hr
      rw [if_neg hfail, hstep]
      simp only []
      rw [← List.append_assoc]
      exact ih (iteration_logged h hstep) hrest

/-! ## What the dump lists -/

theorem logLines_eq (s : Fsx σ) (count c : ℕ) (i : Fin logSize) :
    logLines s count c i = (List.range count).map fun k =>
      logLine (c + k + 1 + s.logcount / logSize * logSize)
        (s.log.get ⟨(i + k) % logSize, Nat.mod_lt _ (by decide)⟩) := by
  induction count generalizing c i with
  | zero => rfl
  | succ count ih =>
    rw [logLines, ih, List.range_succ_eq_map, List.map_cons, List.map_map]
    congr 1
    · congr 2
      exact Fin.ext (Nat.mod_eq_of_lt i.2).symm
    · refine List.map_congr_left fun k _ => ?_
      refine congrArg₂ logLine (by omega) (congrArg s.log.get (Fin.ext ?_))
      simp only [logptrNext, Nat.mod_add_mod]
      rw [Nat.add_right_comm, Nat.add_assoc]

/-- Entries under the numbers from `first` on. -/
def numbered (first : ℕ) : List LogEntry → List Text
  | [] => []
  | e :: es => logLine first e :: numbered (first + 1) es

theorem getElem?_numbered (first : ℕ) (es : List LogEntry) (c : ℕ) :
    (numbered first es)[c]? = es[c]?.map (logLine (first + c)) := by
  induction es generalizing first c with
  | nil => rfl
  | cons e es ih =>
    cases c with
    | zero => rfl
    | succ c =>
      rw [numbered, List.getElem?_cons_succ, ih, List.getElem?_cons_succ]
      congr 2
      omega

/-- The entries of the dump are the last ones, in their order. -/
theorem logdump_lists {es : List LogEntry} (h : Logged es s) : (logdump s).tail =
    numbered (es.length / logSize * logSize + 1) (es.drop (es.length - logSize)) := by
  have hstart : ((if es.length < logSize then ⟨0, by decide⟩ else s.logptr : Fin logSize) : ℕ) =
      Ring.start logSize s.logptr es.length := by
    unfold Ring.start
    split <;> rfl
  unfold logdump
  simp only [List.tail_cons]
  rw [logLines_eq, h.logcount]
  refine List.ext_getElem? fun c => ?_
  rw [getElem?_numbered, List.getElem?_map]
  by_cases hc : c < min es.length logSize
  · have hslot := h.ring.from_start hc
    rw [← hstart] at hslot
    have hget : ∀ i (hi : i < logSize), s.log[i]? = some (s.log.get ⟨i, hi⟩) := fun i hi =>
      Vector.getElem?_eq_getElem hi
    rw [List.getElem?_range hc, ← hslot, hget _ (Nat.mod_lt _ (by decide)), Option.map_some,
      Option.map_some]
    refine congrArg some (congrArg₂ logLine ?_ rfl)
    omega
  · rw [List.getElem?_eq_none (by simp; omega), List.getElem?_eq_none (by simp; omega)]
    rfl

/-- The tail of a run that logged `es`, each entry under its number in the run. -/
def trueTail (es : List LogEntry) : List Text :=
  numbered (es.length - logSize + 1) (es.drop (es.length - logSize))

theorem logLine_number {m n : ℕ} {e e' : LogEntry} (h : logLine m e = logLine n e') : m = n := by
  have hcolon : ∀ k, ':' ∉ decimal k := fun k hk => by
    have := Nat.isDigit_of_mem_toDigits (by decide) (by decide) hk
    exact absurd this (by decide)
  unfold logLine at h
  rw [List.append_assoc, List.append_assoc] at h
  exact toDigits_injective (by decide) (by decide) (split_at_first (hcolon m) (hcolon n) h).1

theorem logdump_eq_trueTail {es : List LogEntry} (h : Logged es s) :
    (logdump s).tail = trueTail es ↔ es.length < logSize := by
  rw [logdump_lists h, trueTail]
  constructor
  · intro heq
    by_contra hfull
    have hpos : 0 < logSize := by decide
    have hlen : 0 < (es.drop (es.length - logSize)).length := by
      rw [List.length_drop]
      omega
    obtain ⟨e, rest, hlast⟩ := List.exists_cons_of_length_pos hlen
    rw [hlast] at heq
    have hnum := logLine_number (List.cons.inj heq).1
    have hmod := Nat.div_add_mod es.length logSize
    have hlt := Nat.mod_lt es.length hpos
    rw [Nat.mul_comm] at hmod
    omega
  · intro hlt
    rw [Nat.div_eq_of_lt hlt, show es.length - logSize = 0 by omega, Nat.zero_mul]

theorem enter_logged {errno : IoError → Int} {f : Features} {p : Platform} {fd : σ} {pageSize : ℕ}
    {rng : ℕ → UInt32} (h : enter K errno a f p fd pageSize rng = some (.ok s)) : Logged [] s := by
  have hfresh := enter_fresh.of_eq_some _ h s rfl
  exact ⟨by rw [hfresh.logptr]; exact .nil _, hfresh.logcount⟩

/-- **The dump is the tail of the run, under the right numbers, as long as the ring is not full.** -/
theorem logdump_true_iff {errno : IoError → Int} {f : Features} {p : Platform} {fd : σ}
    {pageSize n : ℕ} {rng : ℕ → UInt32} (h : enter K errno a f p fd pageSize rng = some (.ok s))
    (hr : runFor a K s.fileSize n s = some s') :
    (logdump s').tail = trueTail (history a K s.fileSize n s) ↔
      (history a K s.fileSize n s).length < logSize :=
  logdump_eq_trueTail (runFor_logged (enter_logged h) hr)

/-! ## A run that logs one operation in each round -/

/-- Operations of no bytes, on a file that keeps its size. -/
def idleArgs : Args := { flen := 2, oplen := 0, lite := true }

def idleRng (n : ℕ) : UInt32 := ⟨GlibcRandom.output 1 n⟩

structure Idle (s : Fsx Bytes) : Prop where
  maxfilelen : s.maxfilelen = 2
  fileSize : s.fileSize = 2
  fd : s.fd.length = 2
  failure : s.failure = none

theorem chooseOp_idle (s : Fsx Bytes) : ∃ c s', chooseOp idleArgs s = some (c, s') ∧ c.size = 0 ∧
    (c.op = .read ∨ c.op = .write ∨ c.op = .mapRead ∨ c.op = .mapWrite) ∧
    (Idle s → Idle s') ∧ s'.logcount = s.logcount := by
  have hlite : ∀ n, opOfIndex (n % 4) = .read ∨ opOfIndex (n % 4) = .write ∨
      opOfIndex (n % 4) = .mapRead ∨ opOfIndex (n % 4) = .mapWrite := by
    intro n
    obtain h | h | h | h : n % 4 = 0 ∨ n % 4 = 1 ∨ n % 4 = 2 ∨ n % 4 = 3 := by omega
    · exact .inl (congrArg opOfIndex h)
    · exact .inr (.inl (congrArg opOfIndex h))
    · exact .inr (.inr (.inl (congrArg opOfIndex h)))
    · exact .inr (.inr (.inr (congrArg opOfIndex h)))
  exact ⟨_, _, rfl, Nat.mod_one _, hlite _, fun h => ⟨h.maxfilelen, h.fileSize, h.fd, h.failure⟩, rfl⟩

theorem dispatch_idle {s : Fsx Bytes} (h : Idle s) {c : Call} (hz : c.size = 0)
    (hop : c.op = .read ∨ c.op = .write ∨ c.op = .mapRead ∨ c.op = .mapWrite) : ∃ o b,
      dispatch idleArgs plainFile 2 s c = some (s.log4 c.op o 0 b) := by
  have htrim : trimOffLen c.offset 0 2 = some (c.offset % 2, 0) := by
    have hlt : c.offset % 2 < 2 := Nat.mod_lt _ (by decide)
    simp only [trimOffLen, trimOff, OfNat.ofNat_ne_zero, if_false]
    rw [addU64_of (by unfold u64Size; omega)]
    simp only [Option.bind_eq_bind, Option.bind_some]
    rw [if_neg (by omega)]
    rfl
  rcases hop with hc | hc | hc | hc <;> unfold dispatch <;>
    simp only [hc, hz, h.fileSize, h.maxfilelen, htrim] <;> exact ⟨_, _, rfl⟩

theorem iteration_idle {s : Fsx Bytes} (h : Idle s) : ∃ s', iteration idleArgs plainFile 2 s = some s' ∧
    Idle s' ∧ s'.logcount = s.logcount + 1 := by
  obtain ⟨c, s₁, hchoose, hz, hop, hidle, hcount⟩ := chooseOp_idle s
  replace h := hidle h
  obtain ⟨o, b, hdisp⟩ := dispatch_idle (c := { op := c.op, offset := c.offset, size := c.size }) h hz hop
  have hon : alwaysOn c.op = true := by
    rcases hop with hc | hc | hc | hc <;> rw [hc] <;> rfl
  have hrefine : refine idleArgs s₁ c =
      some ({ op := c.op, offset := c.offset, size := c.size }, s₁) := by
    rcases hop with hc | hc | hc | hc <;> unfold refine <;> simp only [hc]
  unfold iteration performOp
  rw [hchoose]
  simp only [Option.bind_eq_bind, Option.bind_some, hrefine, hon, hdisp, Bool.not_true, Bool.and_false,
    Bool.false_eq_true, if_false]
  refine ⟨s₁.log4 c.op o 0 b, ?_, ⟨h.maxfilelen, h.fileSize, h.fd, h.failure⟩, by
    rw [← hcount]
    rfl⟩
  have hsize : (s₁.log4 c.op o 0 b).checkSize plainFile = s₁.log4 c.op o 0 b := by
    have hlen : (s₁.log4 c.op o 0 b).fileSize = (s₁.log4 c.op o 0 b).fd.length :=
      h.fileSize.trans h.fd.symm
    unfold checkSize
    exact if_neg (not_or.mpr ⟨not_not.mpr hlen, not_not.mpr hlen⟩)
  unfold checks
  rw [show (s₁.log4 c.op o 0 b).failure = none from h.failure]
  exact congrArg some ((if_pos (by rw [show (s₁.log4 c.op o 0 b).failure = none from h.failure]; rfl)).trans
    hsize)

theorem runFor_idle {s : Fsx Bytes} (h : Idle s) (n : ℕ) : ∃ s', runFor idleArgs plainFile 2 n s = some s' ∧
    (history idleArgs plainFile 2 n s).length = n := by
  induction n generalizing s with
  | zero => exact ⟨s, rfl, rfl⟩
  | succ n ih =>
    obtain ⟨s₁, hstep, hidle, hcount⟩ := iteration_idle h
    obtain ⟨s', hrun, hlen⟩ := ih hidle
    unfold runFor history
    simp only [h.failure, Option.isSome_none, Bool.false_eq_true, if_false, hstep]
    refine ⟨s', hrun, ?_⟩
    rw [logged, if_neg (by omega), List.length_append, hlen, Nat.add_comm]
    rfl

theorem enter_idle : ∃ s, enter plainFile plainErrno idleArgs {} .linux [1, 2] 4096 idleRng = some (.ok s) ∧
    Idle s := by
  exact ⟨_, rfl, rfl, rfl, (prefill_zeros plainFile_starts _ 2).1, rfl⟩

theorem dump_of_9999_true : ∃ s s', enter plainFile plainErrno idleArgs {} .linux [1, 2] 4096 idleRng =
      some (.ok s) ∧ runFor idleArgs plainFile s.fileSize 9999 s = some s' ∧
    (logdump s').tail = trueTail (history idleArgs plainFile s.fileSize 9999 s) := by
  obtain ⟨s, hs, hidle⟩ := enter_idle
  obtain ⟨s', hrun, hlen⟩ := runFor_idle hidle 9999
  rw [← hidle.fileSize] at hrun hlen
  exact ⟨s, s', hs, hrun, (logdump_true_iff hs hrun).mpr (hlen.trans_lt (by decide))⟩

/-- The first of 10000 operations is listed as number 10001. -/
theorem dump_of_10000_wrong : ∃ s s', enter plainFile plainErrno idleArgs {} .linux [1, 2] 4096 idleRng =
      some (.ok s) ∧ runFor idleArgs plainFile s.fileSize 10000 s = some s' ∧
    (logdump s').tail ≠ trueTail (history idleArgs plainFile s.fileSize 10000 s) := by
  obtain ⟨s, hs, hidle⟩ := enter_idle
  obtain ⟨s', hrun, hlen⟩ := runFor_idle hidle 10000
  rw [← hidle.fileSize] at hrun hlen
  refine ⟨s, s', hs, hrun, fun heq => ?_⟩
  have hlt := (logdump_eq_trueTail (runFor_logged (enter_logged hs) hrun)).mp heq
  rw [List.nil_append, hlen] at hlt
  exact absurd hlt (by decide)

end Fstest.Fsx
