import Fstest.Smallfile.Alone

/-!
# Files and record sizes

A record of a file is a piece of the big buffer from the offset of the file on, so each record begins
with the same bytes. That the contents of a file do not depend on the size of its records is due to the
buffer: its bytes repeat after 128 bytes (`buildBiggestBuf_eq`), and a record is a multiple of that. So
a file has the bytes that a reader compares it with, whatever the record size of the writer
(`written_eq`), and keeps them when it is appended to or overwritten (`data_verifies`). A verifying
reader ends with an error at any file that does not begin with them (`eachRead_ok_iff`).
-/

namespace Fstest.Smallfile

open NameTree
open Threads (Gives)

/-! ## The pattern -/

/-- The bytes of the pattern from `start` on. -/
def pattern (start len : ℕ) : Bytes := (List.range' start len).map patternByte

theorem patternByte_add {k m : ℕ} (h : 128 ∣ m) : patternByte (k + m) = patternByte k := by
  rw [patternByte, patternByte, Nat.add_mod, Nat.mod_eq_zero_of_dvd h, Nat.add_zero, Nat.mod_mod]

theorem pattern_shift {start len m : ℕ} (h : 128 ∣ m) : pattern (start + m) len = pattern start len := by
  rw [pattern, pattern, Nat.add_comm, ← List.map_add_range', List.map_map]
  refine List.map_congr_left fun k _ => ?_
  rw [Function.comp_apply, Nat.add_comm, patternByte_add h]

theorem pattern_append (start len len' : ℕ) :
    pattern start len ++ pattern (start + len) len' = pattern start (len + len') := by
  rw [pattern, pattern, pattern, ← List.map_append, List.range'_append_1]

theorem pattern_double {m : ℕ} (h : 128 ∣ m) : pattern 0 m ++ pattern 0 m = pattern 0 (m + m) := by
  rw [← pattern_append 0 m m, pattern_shift h]

theorem foldl_double (l : List ℕ) {m : ℕ} (h : 128 ∣ m) :
    l.foldl (fun buf _ => buf ++ buf) (pattern 0 m) = pattern 0 (2 ^ l.length * m) := by
  induction l generalizing m with
  | nil => rw [List.foldl_nil, List.length_nil, pow_zero, Nat.one_mul]
  | cons _ l ih =>
    rw [List.foldl_cons, pattern_double h, ih (Nat.dvd_add h h), List.length_cons, pow_succ,
      ← Nat.two_mul, Nat.mul_assoc]

/-- **The buffer repeats its pattern up to its end.** -/
theorem buildBiggestBuf_eq : buildBiggestBuf = pattern 0 (biggestBufSize + bufOffsetRange) := by
  have hfirst : firstBuf = pattern 0 bufOffsetRange := by
    rw [firstBuf, pattern, List.range_eq_range']
  have hten : 2 ^ (List.range 10).length * bufOffsetRange = biggestBufSize := by
    rw [List.length_range]
    rfl
  have hmul : 128 ∣ biggestBufSize := by decide
  rw [buildBiggestBuf, hfirst, foldl_double _ (by decide), hten, ← pattern_append, pattern_shift hmul]

@[simp] theorem length_pattern (start len : ℕ) : (pattern start len).length = len := by
  rw [pattern, List.length_map, List.length_range']

theorem record_eq {uo kb : ℕ} (huo : uo < bufOffsetRange) (hkb : kb * 1024 ≤ biggestBufSize) :
    record uo kb = pattern uo (kb * 1024) := by
  have hsum : uo + (kb * 1024 + (biggestBufSize + bufOffsetRange - uo - kb * 1024)) =
      biggestBufSize + bufOffsetRange := by omega
  rw [record, buildBiggestBuf_eq, ← hsum, ← pattern_append 0, Nat.zero_add, ← pattern_append uo,
    List.drop_left' (length_pattern 0 uo), List.take_left' (length_pattern uo _)]

/-- The slice of the buffer that a record is taken from is in range. -/
theorem slice_record {uo kb : ℕ} (huo : uo < bufOffsetRange) (hkb : kb * 1024 ≤ biggestBufSize) :
    slice buildBiggestBuf uo (uo + kb * 1024) = some (record uo kb) := by
  have hlen := length_buildBiggestBuf
  rw [slice_of (Nat.le_add_right _ _) (by omega), record, Nat.add_sub_cancel_left]

/-- **The records of a file make up the pattern**, whatever their sizes. -/
theorem recordsData_eq {uo : ℕ} {kbs : List ℕ} (huo : uo < bufOffsetRange)
    (hkbs : ∀ kb ∈ kbs, kb * 1024 ≤ biggestBufSize) :
    recordsData uo kbs = pattern uo (kbs.sum * 1024) := by
  induction kbs with
  | nil => rfl
  | cons kb kbs ih =>
    have hdvd : 128 ∣ kb * 1024 := Dvd.dvd.mul_left (by decide) kb
    have hrest : recordsData uo kbs = pattern uo (kbs.sum * 1024) :=
      ih fun kb h => hkbs kb (List.mem_cons_of_mem _ h)
    calc recordsData uo (kb :: kbs)
        = record uo kb ++ recordsData uo kbs := List.flatMap_cons
      _ = pattern uo (kb * 1024) ++ pattern (uo + kb * 1024) (kbs.sum * 1024) := by
          rw [record_eq huo (hkbs kb List.mem_cons_self), hrest, pattern_shift hdvd]
      _ = pattern uo ((kb :: kbs).sum * 1024) := by
          rw [pattern_append, List.sum_cons, Nat.add_mul]

namespace Worker

/-- What is in a file, by its number and its size only. -/
theorem written_eq_pattern (w : Worker) (n : ℕ) :
    w.written n = pattern (w.uniqueOffset n) (w.getNextFileSizeKb n * 1024) := by
  rw [written, recordsData_eq (w.uniqueOffset_lt n) fun kb h => mul_le_of_mem_fileRecords h,
    sum_fileRecords]

end Worker

/-! ## Invocations on the same files -/

/-- An invocation `v` works on the files of `w`: it has the same names and sizes for them. Its record
size, and all else, may be another one. -/
structure SameFiles (w v : Worker) : Prop where
  tid : v.tid = w.tid
  iterations : v.p.iterations ≤ w.p.iterations
  name : ∀ n, v.mkFileNm .src n = w.mkFileNm .src n
  size : ∀ n, v.getNextFileSizeKb n = w.getNextFileSizeKb n

theorem SameFiles.refl (w : Worker) : SameFiles w w := ⟨rfl, Nat.le_refl _, fun _ => rfl, fun _ => rfl⟩

/-- **What a reader compares a file with is what its writer has written.** -/
theorem SameFiles.written_eq {w v : Worker} (h : SameFiles w v) (n : ℕ) : v.written n = w.written n := by
  rw [Worker.written_eq_pattern, Worker.written_eq_pattern, h.size, Worker.uniqueOffset,
    Worker.uniqueOffset, h.tid]

namespace Worker

/-- `do_swift_get`, but for the attributes that it looks up behind the data and does not compare. -/
def doSwiftGet (w : Worker) : Thread Unit := w.eachFile fun filenum => do
  let fnm := w.mkFileNm .src filenum
  let _ ← sys (.openFile fnm false)
  readRecords w.p.verifyRead fnm (w.uniqueOffset filenum) 0 (w.fileRecords filenum)

/-- The files are there, and each begins with what its writer writes. -/
structure Begins (w : Worker) (t : NameTree Bytes) : Prop where
  rooted : Rooted t
  file : ∀ n, w.InRange n → ∃ more, t.lookup (w.mkFileNm .src n) = some (.leaf (w.written n ++ more))

/-- The directories of the files are there, and those with numbers above `k` are not. -/
structure Creates (w : Worker) (k : ℕ) (t : NameTree Bytes) : Prop where
  rooted : Rooted t
  parent : ∀ n, w.InRange n → IsDir t (w.mkFileNm .src n).dropLast
  file : ∀ n, w.InRange n →
    t.lookup (w.mkFileNm .src n) = if n ≤ k then some (.leaf (w.written n)) else none

variable {w v : Worker} {n k : ℕ} {s : Side} {t t' : NameTree Bytes} {o : Option (Node Bytes)}

theorem mkFileNm_injective (h : w.mkFileNm s n = w.mkFileNm s k) : n = k := by
  rw [mkFileNm_eq_root, mkFileNm_eq_root] at h
  exact fileName_injective (List.cons.inj (List.append_inj' h rfl).2).1

theorem mkFileNm_ne_nil (w : Worker) (s : Side) (n : ℕ) : w.mkFileNm s n ≠ [] := by
  rw [mkFileNm_eq_root]
  exact List.append_ne_nil_of_right_ne_nil _ (List.cons_ne_nil _ _)

theorem Creates.begins (h : w.Creates w.p.iterations t) : w.Begins t where
  rooted := h.rooted
  file n hn := ⟨[], by rw [h.file n hn, if_pos hn.2, List.append_nil]⟩

/-- A new file leaves the directories and the other files. -/
theorem Creates.next (h : w.Creates k t) (hk : w.InRange (k + 1))
    (hbec : Becomes t (w.mkFileNm .src (k + 1)) (some (.leaf (w.written (k + 1)))) t') :
    w.Creates (k + 1) t' where
  rooted := hbec.rooted
  parent n hn := by
    rcases h.parent n hn with hnil | hdir
    · exact .inl hnil
    · -- The directory is there already, and the new file is not.
      refine .inr ((hbec.lookup_ne fun heq => ?_).trans hdir)
      rw [heq, h.file (k + 1) hk, if_neg (by omega)] at hdir
      cases hdir
  file n hn := by
    by_cases heq : n = k + 1
    · rw [heq, hbec.lookup_self, if_pos (Nat.le_refl _)]
    · rw [hbec.lookup_ne fun hpath => heq (mkFileNm_injective hpath), h.file n hn]
      exact if_congr (by omega) rfl rfl

/-- A file that is written to leaves the others. -/
theorem Begins.becomes (h : w.Begins t) {more : Bytes}
    (hbec : Becomes t (w.mkFileNm .src n) (some (.leaf (w.written n ++ more))) t') : w.Begins t' where
  rooted := hbec.rooted
  file m hm := by
    by_cases heq : m = n
    · rw [heq, hbec.lookup_self]
      exact ⟨more, rfl⟩
    · rw [hbec.lookup_ne fun hpath => heq (mkFileNm_injective hpath)]
      exact h.file m hm

/-! ## Passes over the files -/

/-- All calls. -/
abbrev AnyCall (_ : Call) : Prop := True

theorem doCreate_creates (h : w.Creates 0 t) :
    ∃ t', Gives apply AnyCall w.doCreate t () t' ∧ w.Creates w.p.iterations t' := by
  refine eachFile_gives (I := w.Creates) (fun k t hk h => ?_) h
  have hin : w.InRange (k + 1) := ⟨Nat.succ_pos k, hk⟩
  have hnone : t.lookup (w.mkFileNm .src (k + 1)) = none :=
    (h.file _ hin).trans (if_neg (Nat.not_succ_le_self k))
  obtain ⟨t₁, hadd, hbec₁⟩ :=
    add_spec (.leaf []) h.rooted (w.mkFileNm_ne_nil .src _) (h.parent _ hin) hnone
  have happ : apply (.createNew (w.mkFileNm .src (k + 1))) t = (.ok .done, t₁) := by
    rw [apply, hadd]
    rfl
  obtain ⟨t₂, hwrites, hbec₂⟩ := writeRecords_gives (O := AnyCall) (w.uniqueOffset_lt (k + 1))
    (fun kb hkb => mul_le_of_mem_fileRecords hkb) (fun _ _ => trivial) hbec₁.rooted hbec₁.lookup_self
  exact ⟨t₂, (gives_sys trivial happ).bind hwrites, h.next hin (hbec₁.trans hbec₂)⟩

/-- The file that an invocation on the same files works on. -/
theorem Begins.file_of_same (h : w.Begins t) (hv : SameFiles w v) (hn : v.InRange n) :
    ∃ more, t.lookup (v.mkFileNm .src n) = some (.leaf (v.written n ++ more)) := by
  rw [hv.name, hv.written_eq]
  exact h.file n ⟨hn.1, hn.2.trans hv.iterations⟩

/-- After its open a file is empty, or as it was. -/
theorem openFile_becomes {p : Path} {f : Bytes} (truncate : Bool) (ht : Rooted t)
    (hf : t.lookup p = some (.leaf f)) : ∃ t', apply (.openFile p truncate) t = (.ok .done, t') ∧
      Becomes t p (some (.leaf (if truncate then [] else f))) t' := by
  cases truncate with
  | true =>
    rw [apply, onFile_spec ht hf]
    exact ⟨_, rfl, becomes_insert (rooted_insert_leaf ht hf)⟩
  | false => exact ⟨t, openFile_keeps ht hf, .refl ht hf⟩

/-- Where the records of a pass begin: at the end of the file, or at its start. -/
theorem position_gives {p : Path} {f : Bytes} {g : Answer → Thread Unit} (append : Bool) (ht : Rooted t)
    (hf : t.lookup p = some (.leaf f)) : ∃ a : Answer, (a.length = 0 ∨ a.length = f.length) ∧
      ∀ t', Gives apply AnyCall (g a) t () t' → Gives apply AnyCall (do
        let pos ← if append then sys (.seekEnd p) else pure (.size 0)
        g pos) t () t' := by
  cases append with
  | true => exact ⟨_, .inr rfl, fun t' h => (gives_sys trivial (seekEnd_spec ht hf)).bind h⟩
  | false => exact ⟨_, .inl rfl, fun t' h => Gives.pure.bind h⟩

/-- **A pass of writes, in any of its modes, leaves all files as they begin.** -/
theorem doWrite_begins (append truncate : Bool) (hv : SameFiles w v) (h : w.Begins t) :
    ∃ t', Gives apply AnyCall (v.doWrite append truncate) t () t' ∧ w.Begins t' := by
  refine eachFile_gives (I := fun _ => w.Begins) (fun k t hk h => ?_) h
  obtain ⟨more, hfile⟩ := h.file_of_same (n := k + 1) hv ⟨Nat.succ_pos k, hk⟩
  obtain ⟨t₁, hopen, hbec₁⟩ := openFile_becomes truncate h.rooted hfile
  obtain ⟨a, ha, hpos⟩ := position_gives append hbec₁.rooted hbec₁.lookup_self
  have hle : a.length ≤ (if truncate then [] else v.written (k + 1) ++ more).length := by
    rcases ha with ha | ha <;> omega
  obtain ⟨t₂, hwrites, hbec₂⟩ := writeRecords_overwrites (O := AnyCall) (v.uniqueOffset_lt (k + 1))
    (fun kb hkb => mul_le_of_mem_fileRecords hkb) (fun _ _ => trivial) hbec₁.rooted hbec₁.lookup_self hle
  refine ⟨t₂, (gives_sys trivial hopen).bind (hpos _ hwrites), ?_⟩
  have hcase : (if truncate then [] else v.written (k + 1) ++ more) = [] ∨
      (if truncate then [] else v.written (k + 1) ++ more) = v.written (k + 1) ++ more := by
    cases truncate
    · exact .inr rfl
    · exact .inl rfl
  obtain ⟨more', hdata⟩ := overwrite_begins hcase ha
  have hbec := hbec₁.trans hbec₂
  rw [← written, hdata, hv.name, hv.written_eq] at hbec
  exact h.becomes hbec

/-- A pass of reads finds in all files what it compares them with, and changes nothing. -/
theorem eachRead_gives {body : ℕ → Thread Unit} (hv : SameFiles w v) (h : w.Begins t)
    (hbody : ∀ n, body n = do
      let _ ← sys (.openFile (v.mkFileNm .src n) false)
      readRecords v.p.verifyRead (v.mkFileNm .src n) (v.uniqueOffset n) 0 (v.fileRecords n)) :
    Gives apply AnyCall (v.eachFile body) t () t := by
  have hround : ∀ k t', k < v.p.iterations → t' = t →
      ∃ t'', Gives apply AnyCall (body (k + 1)) t' () t'' ∧ t'' = t := by
    rintro k _ hk rfl
    obtain ⟨more, hfile⟩ := h.file_of_same (n := k + 1) hv ⟨Nat.succ_pos k, hk⟩
    have hreads := readRecords_gives (O := AnyCall) v.p.verifyRead (v.uniqueOffset_lt (k + 1))
      (fun kb hkb => mul_le_of_mem_fileRecords hkb) (fun _ _ => trivial) (a := []) h.rooted hfile
    refine ⟨_, ?_, rfl⟩
    rw [hbody]
    exact (gives_sys trivial (openFile_keeps h.rooted hfile)).bind hreads
  obtain ⟨t', hgives, rfl⟩ := eachFile_gives (I := fun _ t' => t' = t) hround rfl
  exact hgives

/-! ## What a reader finds -/

theorem sys_ok {c : Call} {a : Answer} (h : (sys c).run.exec apply t = (.ok a, t')) :
    apply c t = (.ok a, t') := by
  obtain ⟨r, t₁, hask, hrest⟩ := Prog.exec_bind_ok h
  rw [ask, Prog.exec_lift, show (Prog.ask c).exec apply t = apply c t from rfl] at hask
  cases hask
  cases hr : (apply c t).1 with
  | error e =>
    rw [hr] at hrest
    cases hrest
  | ok b =>
    rw [hr] at hrest
    cases hrest
    exact Prod.ext hr rfl

theorem onFile_ok {p : Path} {g : Bytes → Answer × NameTree Bytes} {a : Answer}
    (h : onFile t p g = (.ok a, t')) : ∃ f, leafAt t p = .ok f ∧ g f = (a, t') := by
  rw [onFile] at h
  split at h
  · rename_i f hf
    refine ⟨f, hf, ?_⟩
    cases h
    rfl
  · cases h

/-- A verifying reader that comes to its end has found the records. -/
theorem readRecords_ok {p : Path} {uo pos : ℕ} {kbs : List ℕ} {f : Bytes} (hf : leafAt t p = .ok f)
    (h : (readRecords true p uo pos kbs).run.exec apply t = (.ok (), t')) :
    t' = t ∧ recordsData uo kbs <+: f.drop pos := by
  induction kbs generalizing pos with
  | nil =>
    cases h
    exact ⟨rfl, List.nil_prefix⟩
  | cons kb kbs ih =>
    rw [readRecords] at h
    obtain ⟨a, t₁, hread, hrest⟩ := Prog.exec_bind_ok h
    obtain ⟨f', hf', hdata⟩ := onFile_ok (sys_ok hread)
    cases hf.symm.trans hf'
    cases hdata
    -- the record is all there, and it is the one of the buffer
    split at hrest
    · cases hrest
    · split at hrest
      · cases hrest
      · rename_i hlen hsame
        obtain ⟨ht, more, hmore⟩ := ih hrest
        rw [Answer.bytes] at hlen hsame
        have hrecord : (f.drop pos).take (kb * 1024) = record uo kb := by simpa using hsame
        refine ⟨ht, more, ?_⟩
        rw [recordsData, List.flatMap_cons, List.append_assoc, ← recordsData, hmore, ← hrecord,
          ← List.drop_drop, List.take_append_drop]

/-- **A verifying pass of reads ends without an error exactly if** each file begins with what is
compared with it. -/
theorem eachRead_ok_iff {body : ℕ → Thread Unit} (hverify : v.p.verifyRead = true) (ht : Rooted t)
    (hbody : ∀ n, body n = do
      let _ ← sys (.openFile (v.mkFileNm .src n) false)
      readRecords v.p.verifyRead (v.mkFileNm .src n) (v.uniqueOffset n) 0 (v.fileRecords n)) :
    ((v.eachFile body).run.exec apply t).1 = .ok () ↔ v.Begins t := by
  constructor
  · intro hok
    have hround : ∀ n s s', (body n).run.exec apply s = (.ok (), s') → s' = s ∧
        ∃ more, s.lookup (v.mkFileNm .src n) = some (.leaf (v.written n ++ more)) := by
      intro n s s' hexec
      rw [hbody, hverify] at hexec
      obtain ⟨a, s₁, hopen, hreads⟩ := Prog.exec_bind_ok hexec
      obtain ⟨f, hf, hopened⟩ := onFile_ok (sys_ok hopen)
      cases hopened
      obtain ⟨rfl, more, hmore⟩ := readRecords_ok hf hreads
      rw [List.drop_zero] at hmore
      exact ⟨rfl, more, by rw [leafAt_ok hf, ← hmore, written]⟩
    have hrounds := Prog.exec_forM_ok (fun n s s' hexec => (hround n s s' hexec).1) (Prod.ext hok rfl)
    refine { rooted := ht, file := fun n hn => (hround n t t (hrounds n ?_)).2 }
    exact List.mem_range'_1.mpr ⟨hn.1, Nat.lt_one_add_iff.mpr hn.2⟩
  · intro h
    exact congrArg Prod.fst (eachRead_gives (SameFiles.refl v) h hbody).exec

/-- Passes of writes, each with its modes. -/
theorem passes_begin {passes : List (Worker × Bool × Bool)} (hv : ∀ pass ∈ passes, SameFiles w pass.1)
    (h : w.Begins t) :
    ∃ t', Gives apply AnyCall (passes.forM fun pass => pass.1.doWrite pass.2.1 pass.2.2) t () t' ∧
      w.Begins t' := by
  induction passes generalizing t with
  | nil => exact ⟨t, Gives.pure, h⟩
  | cons pass passes ih =>
    obtain ⟨t₁, hpass, h₁⟩ := doWrite_begins pass.2.1 pass.2.2 (hv pass List.mem_cons_self) h
    obtain ⟨t₂, hrest, h₂⟩ := ih (fun pass hp => hv pass (List.mem_cons_of_mem _ hp)) h₁
    exact ⟨t₂, hpass.bind hrest, h₂⟩

end Worker

/-- **The data verifies, whatever the record sizes**: after a pass that creates the files, and any
passes that write to them in any mode, each file begins with its data, and a pass that reads finds what
it compares the files with; where a file begins with anything else, a verifying pass ends with an error.
All pieces of the buffer that are written or compared are in range. -/
theorem data_verifies {w r : Worker} {passes : List (Worker × Bool × Bool)} {t : NameTree Bytes}
    (hr : SameFiles w r) (hpasses : ∀ pass ∈ passes, SameFiles w pass.1) (h : w.Creates 0 t) :
    (∀ (v : Worker) n, ∀ kb ∈ v.fileRecords n, slice buildBiggestBuf (v.uniqueOffset n)
      (v.uniqueOffset n + kb * 1024) = some (record (v.uniqueOffset n) kb)) ∧
    (∀ n, r.written n = w.written n) ∧
    (r.p.verifyRead = true → ∀ t, Rooted t →
      ((r.doRead.run.exec apply t).1 = .ok () ↔ r.Begins t) ∧
      ((r.doSwiftGet.run.exec apply t).1 = .ok () ↔ r.Begins t)) ∧
    ∃ t₁ t₂, Gives apply Worker.AnyCall w.doCreate t () t₁ ∧ w.Begins t₁ ∧
      Gives apply Worker.AnyCall (passes.forM fun pass => pass.1.doWrite pass.2.1 pass.2.2) t₁ () t₂ ∧
      w.Begins t₂ ∧
      Gives apply Worker.AnyCall r.doRead t₂ () t₂ ∧ Gives apply Worker.AnyCall r.doSwiftGet t₂ () t₂ := by
  refine ⟨fun v n kb hkb => slice_record (v.uniqueOffset_lt n) (Worker.mul_le_of_mem_fileRecords hkb),
    hr.written_eq, fun hverify t ht => ?_, ?_⟩
  · exact ⟨Worker.eachRead_ok_iff hverify ht fun _ => rfl, Worker.eachRead_ok_iff hverify ht fun _ => rfl⟩
  · obtain ⟨t₁, hcreate, hmade⟩ := Worker.doCreate_creates h
    obtain ⟨t₂, hwrites, hbegins⟩ := Worker.passes_begin hpasses hmade.begins
    exact ⟨t₁, t₂, hcreate, hmade.begins, hwrites, hbegins, Worker.eachRead_gives hr hbegins fun _ => rfl,
      Worker.eachRead_gives hr hbegins fun _ => rfl⟩

/-- One thread and one file, with a record size. -/
def oneFile (recordSzKb : ℕ) (h : recordSzKb ≤ 64) : Worker where
  p := {
    opname := .create
    iterations := 1
    threads := 1
    filesPerDir := 1
    filePrefix := ""
    fileSuffix := ""
    hashToDir := false
    isSharedDir := true
    top := []
    host := "host"
    recordSzKb := recordSzKb
    totalSzKb := 64
    filesizeDistr := .fixed
    dirsPerDir := 10
    verifyRead := true
    draws := fun _ _ => 0
    iterations_pos := Nat.one_pos
    iterations_lt := one_lt_u32Size
    threads_pos := Nat.one_pos
    filesPerDir_pos := Nat.one_pos
    dirsPerDir_pos := defaultDirsPerDir_pos
    recordSzKb_le := .inl h
    filePrefix_name := defaultAffix_name
    fileSuffix_name := defaultAffix_name }
  tid := 0
  fileDirs := [["d_000"], ["d_001"]]

/-- The directory of the file is there, and nothing else. -/
def oneFileDir : NameTree Bytes :=
  (AList.insert ["file_srcdir"] .dir ∅).insert ["file_srcdir", "d_001"] .dir

theorem oneFile_same {m n : ℕ} (hm : m ≤ 64) (hn : n ≤ 64) : SameFiles (oneFile m hm) (oneFile n hn) where
  tid := rfl
  iterations := Nat.le_refl _
  name _ := rfl
  size _ := rfl

theorem oneFile_mkFileNm {m : ℕ} (hm : m ≤ 64) :
    (oneFile m hm).mkFileNm .src 1 = ["file_srcdir", "d_001", (oneFile m hm).fileName 1] := by
  rw [Worker.mkFileNm_eq_root]
  rfl

theorem oneFile_creates {m : ℕ} (hm : m ≤ 64) : (oneFile m hm).Creates 0 oneFileDir where
  rooted := by
    refine Rooted.insert (Rooted.insert rooted_empty ?_ ?_ ?_) ?_ ?_ ?_
    · exact List.cons_ne_nil _ _
    · exact .inl rfl
    · exact fun _ => rfl
    · exact List.cons_ne_nil _ _
    · exact .inr rfl
    · exact fun _ => rfl
  parent n hn := by
    obtain rfl : n = 1 := Nat.le_antisymm hn.2 hn.1
    rw [oneFile_mkFileNm]
    exact .inr (AList.lookup_insert _)
  file n hn := by
    obtain rfl : n = 1 := Nat.le_antisymm hn.2 hn.1
    rw [oneFile_mkFileNm, oneFileDir, AList.lookup_insert_ne (by simp), AList.lookup_insert_ne (by simp)]
    rfl

theorem data_verifies_records : ∃ t₁ t₂,
    Gives apply Worker.AnyCall (oneFile 3 (by decide)).doCreate oneFileDir () t₁ ∧
    (oneFile 3 (by decide)).Begins t₁ ∧
    Gives apply Worker.AnyCall
      ([(oneFile 5 (by decide), true, false), (oneFile 0 (by decide), false, false)].forM
        fun pass => pass.1.doWrite pass.2.1 pass.2.2) t₁ () t₂ ∧
    (oneFile 3 (by decide)).Begins t₂ ∧
    Gives apply Worker.AnyCall (oneFile 7 (by decide)).doRead t₂ () t₂ ∧
    Gives apply Worker.AnyCall (oneFile 7 (by decide)).doSwiftGet t₂ () t₂ :=
  (data_verifies (oneFile_same _ (by decide))
    (fun pass hpass => by
      rcases List.mem_pair.mp hpass with rfl | rfl
      · exact oneFile_same _ (by decide)
      · exact oneFile_same _ (by decide))
    (oneFile_creates (by decide))).2.2.2

end Fstest.Smallfile
