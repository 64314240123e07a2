import Fstest.Fsx.Main

/-!
# The record of a run, and its replay

`run` writes its log dump as the record of the run (`record`), and `loadReplay` reads such a file. It drops
the number of an entry line and reads the operation and its arguments back (`loadReplay_numbered`). But
the first line of the dump is its headline, which it takes for an operation `DUMP`. So there is no run
whose record it can read (`record_never_replays`).
-/

namespace Fstest.Fsx

open Text

variable {σ : Type} {K : Kernel σ} {s : Fsx σ} {a : Args}

/-- What `run` writes to the `.fsxops` file. -/
def fsxops (recordOps : Bool) (s : Fsx σ) : Option Text :=
  if s.failure.isSome || recordOps then some (joinLines (logdump s)) else none

/-- The record of a whole run whose loop takes `fuel` rounds at most. -/
def record (lim : Limits) (a : Args) (K : Kernel σ) (errno : IoError → Int) (f : Features)
    (p : Platform) (fd : σ) (pageSize : Nat) (rng : Nat → UInt32) (clock : Nat → Nat)
    (recordOps : Bool) (fuel : Nat) : Option Text :=
  match enter K errno a f p fd pageSize rng with
  | some (.ok s) =>
    match mainLoop lim a K s.fileSize clock fuel 0 s with
    | .ended _ s' => fsxops recordOps s'
    | _ => none
  | _ => none

/-! ## Reading a record -/

/-- The operations in the order of `OP_NAMES`. -/
def allOps : List Op :=
  [.read, .write, .mapRead, .mapWrite, .truncate, .fallocate, .punchHole, .zeroRange, .writeZeroes,
    .collapseRange, .insertRange, .cloneRange, .copyRange, .fsync]

structure Replayed where
  op : Op
  args : Nat × Nat × Nat
  skipped : Bool
  keepSize : Bool
  unshare : Bool

def replayArg (t : Text) : Nat :=
  ((parseHexU64 (trimStartMatches (text "0x") t.length t)).or (parseU64 t)).getD 0

/-- One line of the file. `path` is the path of the file as the error shows it. -/
def replayLine (path line : Text) : Except Text (Option Replayed) :=
  let line := trim line
  if line = [] ∨ line.head? = some '#' then .ok none
  else
    let toks := splitWhitespace line
    let skipped := decide (toks.head? = some (text "skip"))
    match toks.tail with
    | [] => .ok none
    | opname :: toks =>
      match allOps.find? (fun op => opName op = opname) with
      | none => .error (text "unknown op " ++ opname ++ text " in " ++ path)
      | some op =>
        let arg := fun i => replayArg (toks.getD i (text ":"))
        let keep := (toks.drop 3).contains (text "keep_size")
        .ok (some { op, args := (arg 0, arg 1, arg 2), skipped, keepSize := keep, unshare := false })

def replayLines (path : Text) : List Text → Except Text (List Replayed)
  | [] => .ok []
  | line :: rest =>
    match replayLine path line with
    | .error e => .error e
    | .ok none => replayLines path rest
    | .ok (some r) => (replayLines path rest).map (r :: ·)

def loadReplay (path contents : Text) : Except Text (List Replayed) :=
  replayLines path (lines contents)

/-- Reading the file gives one record for each entry of `es`, and the flags `keeps`. -/
def Replays (path contents : Text) (es : List LogEntry) (keeps : List Bool) : Prop :=
  ∃ rs, loadReplay path contents = .ok rs ∧
    rs.map (fun r => (r.op, r.args, r.skipped)) = es.map (fun e => (e.op, e.args, e.skipped)) ∧
    rs.map (·.keepSize) = keeps

/-! ## The headline -/

theorem replayLine_headline (path rest : Text) : replayLine path (text "LOG DUMP (" ++ rest) =
    .error (text "unknown op DUMP in " ++ path) := by
  obtain ⟨r, htrim, hwords⟩ := trim_cons (c := 'L') rfl (text "OG DUMP (" ++ rest)
  have hlog := splitWhitespace_word (w := text "LOG") (by decide) (by decide) (text "DUMP (" ++ rest)
  have hdump := splitWhitespace_word (w := text "DUMP") (by decide) (by decide) ('(' :: rest)
  have hline : splitWhitespace ('L' :: r) = text "LOG" :: text "DUMP" :: splitWhitespace ('(' :: rest) :=
    hwords.trans (hlog.trans (congrArg _ hdump))
  unfold replayLine
  rw [show text "LOG DUMP (" ++ rest = 'L' :: (text "OG DUMP (" ++ rest) from rfl, htrim]
  simp only []
  rw [if_neg (by simp), hline]
  rfl

theorem isWord_decimal (n : ℕ) : IsWord (decimal n) := isWord_toDigits (by decide) (by decide) n

theorem onlyBlanks_hexArg (n : ℕ) : OnlyBlanks (hexArg n) :=
  .append (by decide) (isWord_toDigits (by decide) (by decide) n).onlyBlanks

theorem isWord_opName (op : Op) : IsWord (opName op) := by cases op <;> decide

theorem onlyBlanks_flag (b : Bool) {w : Text} (h : OnlyBlanks w) :
    OnlyBlanks (if b = true then w else []) := by
  cases b
  · exact nofun
  · exact h

theorem onlyBlanks_logLine (n : ℕ) (e : LogEntry) : OnlyBlanks (logLine n e) := by
  refine (OnlyBlanks.append (isWord_decimal n).onlyBlanks (by decide)).append ?_
  unfold entryLine
  split
  · exact .append (by decide) (isWord_opName _).onlyBlanks
  · exact (((((isWord_opName _).onlyBlanks.append (onlyBlanks_hexArg _)).append
      (onlyBlanks_hexArg _)).append (onlyBlanks_hexArg _)).append (onlyBlanks_flag _ (by decide))
      |>.append (onlyBlanks_flag _ (by decide))).append (onlyBlanks_flag _ (by decide))

theorem logLine_ne_nil (n : ℕ) (e : LogEntry) : logLine n e ≠ [] := by
  intro h
  exact Nat.toDigits_ne_nil (List.append_eq_nil_iff.mp (List.append_eq_nil_iff.mp h).1).1

theorem mem_logLines {count c : ℕ} {i : Fin logSize} {l : Text} (h : l ∈ logLines s count c i) :
    ∃ n e, l = logLine n e := by
  rw [logLines_eq] at h
  obtain ⟨k, -, rfl⟩ := List.mem_map.mp h
  exact ⟨_, _, rfl⟩

theorem lines_logdump (s : Fsx σ) : lines (joinLines (logdump s)) = logdump s := by
  refine lines_joinLines fun l hl => ?_
  rcases List.mem_cons.mp hl with rfl | hl
  · exact ⟨by simp [text], ((OnlyBlanks.append (by decide) (isWord_decimal _).onlyBlanks).append
      (by decide))⟩
  · obtain ⟨n, e, rfl⟩ := mem_logLines hl
    exact ⟨logLine_ne_nil n e, onlyBlanks_logLine n e⟩

theorem loadReplay_logdump (path : Text) (s : Fsx σ) : loadReplay path (joinLines (logdump s)) =
    .error (text "unknown op DUMP in " ++ path) := by
  rw [loadReplay, lines_logdump, logdump, List.append_assoc, replayLines, replayLine_headline]

theorem fsxops_eq_some {b : Bool} {t : Text} (h : fsxops b s = some t) : t = joinLines (logdump s) := by
  unfold fsxops at h
  split at h
  · exact (Option.some.inj h).symm
  · cases h

/-! ## The entries -/

/-- The words of the entry of an operation that was not skipped. -/
def entryWords (e : LogEntry) : List Text :=
  [opName e.op, text "0x" ++ Nat.toDigits 16 e.args.1, text "0x" ++ Nat.toDigits 16 e.args.2.1,
    text "0x" ++ Nat.toDigits 16 e.args.2.2] ++
  ((if e.keepSize then [text "keep_size"] else []) ++ (if e.unshare then [text "unshare"] else []) ++
    if e.closeOpen then [text "close_open"] else [])

theorem logLine_words {e : LogEntry} (h : e.skipped = false) (n : ℕ) :
    logLine n e = (decimal n ++ [':']) ++ (entryWords e).flatMap (' ' :: ·) := by
  have hflag : ∀ (b : Bool) (w : Text), (if b = true then [w] else []).flatMap (' ' :: ·) =
      if b = true then ' ' :: w else [] := fun b w => by
    cases b
    · rfl
    · exact List.flatMap_singleton ..
  have hentry : text ": " ++ entryLine e = ':' :: (entryWords e).flatMap (' ' :: ·) := by
    unfold entryLine entryWords
    rw [h, if_neg Bool.false_ne_true, List.flatMap_append, List.flatMap_append, List.flatMap_append,
      hflag, hflag, hflag]
    simp only [List.flatMap_cons, List.flatMap_nil, List.append_nil, hexArg, List.append_assoc,
      List.cons_append]
    rfl
  rw [logLine, List.append_assoc, hentry, List.append_assoc]
  rfl

theorem isWord_entryWords {e : LogEntry} : ∀ w ∈ entryWords e, w ≠ [] ∧ IsWord w := by
  have hhex : ∀ n, text "0x" ++ Nat.toDigits 16 n ≠ [] ∧ IsWord (text "0x" ++ Nat.toDigits 16 n) :=
    fun n => ⟨List.cons_ne_nil _ _, .append (by decide) (isWord_toDigits (by decide) (by decide) n)⟩
  have hflag : ∀ (b : Bool) (w : Text), w ≠ [] ∧ IsWord w → ∀ v ∈ (if b = true then [w] else []),
      v ≠ [] ∧ IsWord v := fun b w hw v hv => by
    cases b
    · cases hv
    · rw [List.mem_singleton.mp hv]
      exact hw
  have hname : opName e.op ≠ [] ∧ IsWord (opName e.op) := ⟨by cases e.op <;> decide, isWord_opName _⟩
  intro w hw
  unfold entryWords at hw
  simp only [List.mem_append, List.mem_cons, List.not_mem_nil, or_false] at hw
  rcases hw with (rfl | rfl | rfl | rfl) | (hw | hw) | hw
  · exact hname
  · exact hhex _
  · exact hhex _
  · exact hhex _
  · exact hflag _ _ (by decide) w hw
  · exact hflag _ _ (by decide) w hw
  · exact hflag _ _ (by decide) w hw

theorem replayArg_hex {n : ℕ} (h : n < 2 ^ 64) : replayArg (text "0x" ++ Nat.toDigits 16 n) = n := by
  have hlen : ∃ m, (text "0x" ++ Nat.toDigits 16 n).length = m + 1 := ⟨_, rfl⟩
  obtain ⟨m, hm⟩ := hlen
  unfold replayArg
  rw [hm, trimStartMatches_toDigits, parseHexU64_toDigits h]
  rfl

/-- The arguments are `u64`. -/
def LogEntry.Fits (e : LogEntry) : Prop := e.args.1 < 2 ^ 64 ∧ e.args.2.1 < 2 ^ 64 ∧ e.args.2.2 < 2 ^ 64

/-- What reading the line of an entry gives. -/
def LogEntry.replayed (e : LogEntry) : Replayed where
  op := e.op
  args := e.args
  skipped := false
  keepSize := e.keepSize
  unshare := false

/-- **The line of an entry is read back**, whatever its number. -/
theorem replayLine_logLine {e : LogEntry} (h : e.skipped = false) (hfits : e.Fits) (path : Text) (n : ℕ) :
    replayLine path (logLine n e) = .ok (some e.replayed) := by
  obtain ⟨h₀, h₁, h₂⟩ := hfits
  obtain ⟨c, r, hnum⟩ := List.exists_cons_of_ne_nil (Nat.toDigits_ne_nil (n := n) (b := 10))
  obtain ⟨d, hd, hc⟩ := mem_toDigits (by decide) (hnum ▸ List.mem_cons_self : c ∈ Nat.toDigits 10 n)
  have hfirst : isWhitespace c = false ∧ c ≠ '#' := by
    have hall : ∀ d : Fin 10, isWhitespace (Nat.digitChar d) = false ∧ Nat.digitChar d ≠ '#' := by decide
    rw [hc]
    exact hall ⟨d, hd⟩
  -- The first word is the number with its colon, which is no `skip`.
  have hword : decimal n ++ [':'] ≠ text "skip" := fun heq => by
    have hlast := congrArg List.getLast? heq
    rw [List.getLast?_concat] at hlast
    cases hlast
  have hwords : splitWhitespace (logLine n e) = (decimal n ++ [':']) :: entryWords e := by
    rw [logLine_words h]
    refine splitWhitespace_words fun v hv => ?_
    rcases List.mem_cons.mp hv with rfl | hv
    · exact ⟨by simp, (isWord_decimal n).append (by decide)⟩
    · exact isWord_entryWords v hv
  have hcons : logLine n e = c :: (r ++ text ": " ++ entryLine e) := by
    rw [logLine, decimal, hnum]
    rfl
  obtain ⟨r', htrim, hsame⟩ := trim_cons hfirst.1 (r ++ text ": " ++ entryLine e)
  rw [← hcons] at htrim hsame
  have hname : allOps.find? (fun op => opName op = opName e.op) = some e.op := by cases e.op <;> rfl
  have hkeep : ((if e.keepSize then [text "keep_size"] else []) ++
      (if e.unshare then [text "unshare"] else []) ++
      if e.closeOpen then [text "close_open"] else []).contains (text "keep_size") = e.keepSize := by
    cases e.keepSize <;> cases e.unshare <;> cases e.closeOpen <;> rfl
  unfold replayLine
  simp only [htrim]
  rw [if_neg (by simp [hfirst.2]), hsame, hwords]
  simp only [List.tail_cons, List.head?_cons, Option.some.injEq, hword, entryWords, List.cons_append,
    hname, List.getD_cons_zero, List.getD_cons_succ, List.drop_succ_cons, List.drop_zero,
    List.nil_append, hkeep, replayArg_hex h₀, replayArg_hex h₁, replayArg_hex h₂, decide_false]
  rfl

/-- **The dump of operations that were not skipped is read back**, apart from its headline. -/
theorem loadReplay_numbered (path : Text) (first : ℕ) (es : List LogEntry)
    (h : ∀ e ∈ es, e.skipped = false ∧ e.Fits) :
    loadReplay path (joinLines (numbered first es)) = .ok (es.map LogEntry.replayed) := by
  have hline : ∀ first, ∀ l ∈ numbered first es, l ≠ [] ∧ OnlyBlanks l := by
    clear h
    induction es with
    | nil => exact fun _ => nofun
    | cons e es ih =>
      intro first
      rw [numbered, List.forall_mem_cons]
      exact ⟨⟨logLine_ne_nil _ e, onlyBlanks_logLine _ e⟩, ih (first + 1)⟩
  rw [loadReplay, lines_joinLines (hline first)]
  clear hline
  induction es generalizing first with
  | nil => rfl
  | cons e es ih =>
    obtain ⟨⟨hskip, hfits⟩, hrest⟩ := List.forall_mem_cons.mp h
    rw [numbered, replayLines, replayLine_logLine hskip hfits]
    simp only []
    rw [ih _ hrest]
    rfl

theorem loadReplay_record {lim : Limits} {errno : IoError → Int} {f : Features} {p : Platform} {fd : σ}
    {pageSize fuel : Nat} {rng : Nat → UInt32} {clock : Nat → Nat} {recordOps : Bool} {t : Text}
    (h : record lim a K errno f p fd pageSize rng clock recordOps fuel = some t) (path : Text) :
    loadReplay path t = .error (text "unknown op DUMP in " ++ path) := by
  unfold record at h
  split at h
  · split at h
    · rw [fsxops_eq_some h]
      exact loadReplay_logdump ..
    · cases h
  · cases h

/-- **No record can be replayed**: reading it ends at its headline. -/
theorem record_never_replays {lim : Limits} {errno : IoError → Int} {f : Features} {p : Platform} {fd : σ}
    {pageSize fuel : Nat} {rng : Nat → UInt32} {clock : Nat → Nat} {recordOps : Bool} {t : Text}
    (h : record lim a K errno f p fd pageSize rng clock recordOps fuel = some t) (path : Text)
    (es : List LogEntry) (keeps : List Bool) : ¬ Replays path t es keeps := by
  rintro ⟨rs, hrs, -⟩
  rw [loadReplay_record h path] at hrs
  cases hrs

/-- A run of one operation that is asked for its record. -/
theorem record_of_one_op : ∃ t, record { numops := 1 } idleArgs plainFile plainErrno {} .linux [1, 2]
    4096 idleRng id true 1 = some t := by
  obtain ⟨s, hs, hidle⟩ := enter_idle
  obtain ⟨s₁, hstep, hidle₁, -⟩ := iteration_idle hidle
  have hzero := (enter_fresh.of_eq_some _ hs s rfl).testcalls
  have hone : s₁.testcalls = 1 := by rw [iteration_testcalls hstep, hzero]
  have hloop : mainLoop { numops := 1 } idleArgs plainFile 2 id 1 0 s = .ended 1 s₁ := by
    unfold mainLoop
    rw [hidle.failure, hzero, if_neg (by decide), hstep]
    simp only []
    unfold mainLoop
    rw [hone, if_pos (by rw [Bool.or_eq_true]; exact .inr rfl)]
  refine ⟨joinLines (logdump s₁), ?_⟩
  unfold record
  rw [hs]
  simp only [hidle.fileSize, hloop]
  exact if_pos (Bool.or_true _)

theorem one_op_never_replays : ∃ t, record { numops := 1 } idleArgs plainFile plainErrno {} .linux [1, 2]
    4096 idleRng id true 1 = some t ∧ ¬ Replays (text "x.fsxops") t [] [] := by
  obtain ⟨t, ht⟩ := record_of_one_op
  exact ⟨t, ht, record_never_replays ht _ _ _⟩

theorem one_op_unreadable : ∃ t, record { numops := 1 } idleArgs plainFile plainErrno {} .linux [1, 2]
    4096 idleRng id true 1 = some t ∧
    loadReplay (text "x.fsxops") t = .error (text "unknown op DUMP in x.fsxops") := by
  obtain ⟨t, ht⟩ := record_of_one_op
  exact ⟨t, ht, loadReplay_record ht _⟩

end Fstest.Fsx
