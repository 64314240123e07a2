import Fstest.Lib.Rely
import Fstest.Smallfile.Suite

/-!
# What a create phase leaves

The threads of a create phase may share one tree, so what one of them does alone says little. But they
only make directories and files, and remove nothing (`CreateCall`), so there is nothing below the top
directory but what they make (`OnlyCreated`), and what a thread has made stays (`HasFirst`). When all
threads have ended without an error, all files are there (`Created.of_phase`).
-/

namespace Fstest.Smallfile

open NameTree
open Threads (Stable Ensures Knows Knowing Reaches)

section

variable (p : SuiteParams) (dirs : List (List String))

/-- A base directory, one that is made in advance, or one on the way to those. -/
def DirSpot (q : Path) : Prop :=
  (∃ s : Side, q <+: s.base p.toParams) ∨
    ∃ (i : Fin p.threads) (s : Side), ∃ d ∈ (worker p dirs i).subdirs s, q <+: d

def FileSpot (q : Path) : Prop :=
  ∃ (i : Fin p.threads) (n : ℕ), (worker p dirs i).InRange n ∧ q = (worker p dirs i).mkFileNm .src n

def Spot (q : Path) : Node Bytes → Prop
  | .dir => DirSpot p dirs q
  | .leaf _ => FileSpot p dirs q

/-- The calls of the threads. -/
def CreateCall : Call → Prop
  | .mkdir q => DirSpot p dirs q
  | .stat _ => True
  | .createNew q | .write q _ _ => FileSpot p dirs q
  | _ => False

/-- Below the top directory there is nothing but what the threads make. -/
structure OnlyCreated (t : NameTree Bytes) : Prop where
  rooted : Rooted t
  spot : ∀ q node, p.top <+: q → q ≠ p.top → t.lookup q = some node → Spot p dirs q node

end

/-- The first `k` files of a thread are there. -/
def HasFirst (w : Worker) (k : ℕ) (t : NameTree Bytes) : Prop :=
  ∀ n, 1 ≤ n → n ≤ k → ∃ a, t.lookup (w.mkFileNm .src n) = some (.leaf a)

variable {p : SuiteParams} {dirs : List (List String)} {t t' : NameTree Bytes} {q d : Path} {c : Call}
  {w : Worker} {k : ℕ}

theorem DirSpot.of_prefix (hd : DirSpot p dirs d) (hq : q <+: d) : DirSpot p dirs q := by
  rcases hd with ⟨s, hs⟩ | ⟨i, s, d', hd', hpre⟩
  · exact .inl ⟨s, hq.trans hs⟩
  · exact .inr ⟨i, s, d', hd', hq.trans hpre⟩

/-! ## What the calls keep -/

/-- **What a call of the threads does**: nothing, or it puts something at its place, and nothing but a
file in the place of something else. -/
theorem apply_createCall (hc : CreateCall p dirs c) : (apply c t).2 = t ∨ ∃ q node,
    (apply c t).2 = t.insert q node ∧ Spot p dirs q node ∧
      (t.lookup q = none ∨ ∃ a, node = .leaf a) := by
  have hadd : ∀ q node, Spot p dirs q node → (settle t (add t q node)).2 = t ∨ ∃ q' node',
      (settle t (add t q node)).2 = t.insert q' node' ∧ Spot p dirs q' node' ∧
        (t.lookup q' = none ∨ ∃ a, node' = .leaf a) := by
    intro q node hspot
    cases hadd : add t q node with
    | error e => exact .inl rfl
    | ok t' =>
      obtain ⟨-, -, hnew, rfl⟩ := add_ok hadd
      exact .inr ⟨q, node, rfl, hspot, .inl (AList.lookup_eq_none.mpr hnew)⟩
  cases c with
  | mkdir q => exact hadd q .dir hc
  | createNew q => exact hadd q (.leaf []) hc
  | stat q =>
    refine .inl ?_
    rw [apply]
    split <;> rfl
  | write q pos data =>
    rw [apply, onFile]
    split
    · exact .inr ⟨q, _, rfl, hc, .inr ⟨_, rfl⟩⟩
    · exact .inl rfl
  | rmdir q => exact hc.elim
  | unlink q => exact hc.elim
  | rename src dest => exact hc.elim
  | openFile q truncate => exact hc.elim
  | seekEnd q => exact hc.elim
  | read q pos n => exact hc.elim

theorem stable_onlyCreated :
    Stable apply (CreateCall p dirs) (OnlyCreated p dirs) (OnlyCreated p dirs) := by
  intro c t hc ht _
  refine ⟨rooted_apply ht.rooted c, fun q node hge hne hq => ?_⟩
  rcases apply_createCall (t := t) hc with heq | ⟨q', node', heq, hspot, -⟩
  · exact ht.spot q node hge hne (heq ▸ hq)
  · rw [heq] at hq
    by_cases hqq : q = q'
    · rw [hqq, AList.lookup_insert] at hq
      exact hqq ▸ Option.some.inj hq ▸ hspot
    · exact ht.spot q node hge hne (by rwa [AList.lookup_insert_ne hqq] at hq)

/-- A file stays. -/
theorem stable_leaf (q : Path) : Stable apply (CreateCall p dirs) (OnlyCreated p dirs)
    fun t => ∃ a, t.lookup q = some (.leaf a) := by
  rintro c t hc ht ⟨a, ha⟩
  rcases apply_createCall (t := t) hc with heq | ⟨q', node', heq, -, hor⟩
  · exact ⟨a, by rw [heq, ha]⟩
  · rw [heq]
    by_cases hqq : q = q'
    · rcases hor with hnone | ⟨b, rfl⟩
      · rw [← hqq, ha] at hnone
        cases hnone
      · exact ⟨b, by rw [hqq, AList.lookup_insert]⟩
    · exact ⟨a, by rw [AList.lookup_insert_ne hqq, ha]⟩

theorem stable_hasFirst (w : Worker) (k : ℕ) :
    Stable apply (CreateCall p dirs) (OnlyCreated p dirs) (HasFirst w k) :=
  fun c t hc ht h n h1 hn => stable_leaf _ c t hc ht (h n h1 hn)

/-! ## What the programs know -/

abbrev KnowsHere (p : SuiteParams) (dirs : List (List String)) {α : Type} (K : NameTree Bytes → Prop)
    (x : Thread α) (Q : α → NameTree Bytes → Prop) : Prop :=
  Knows apply (CreateCall p dirs) (OnlyCreated p dirs) K x Q

abbrev StableHere (p : SuiteParams) (dirs : List (List String)) (K : NameTree Bytes → Prop) : Prop :=
  Stable apply (CreateCall p dirs) (OnlyCreated p dirs) K

variable {K Q : NameTree Bytes → Prop}

/-- A call that has to succeed. -/
theorem sys_knows (hc : CreateCall p dirs c) (hQ : StableHere p dirs Q)
    (hnext : ∀ t a, OnlyCreated p dirs t → K t → (apply c t).1 = .ok a → Q (apply c t).2) :
    KnowsHere p dirs K (sys c) fun _ => Q := by
  refine Knows.bind (Q := fun r t => ∀ a, r = .ok a → Q t) (.ask hc (fun r => ?_) ?_) fun r => ?_
  · exact fun c t hc ht h a ha => hQ c t hc ht (h a ha)
  · exact fun t ht hk a ha => hnext t a ht hk ha
  · cases r with
    | ok a => exact .pure fun t _ h => h a rfl
    | error e => exact .throw

theorem okIfDir_knows (hK : StableHere p dirs K) (d : Path) (e : FsError) :
    KnowsHere p dirs K (okIfDir d e) fun _ => K := by
  refine (Knows.ask_keep (c := .stat d) trivial hK).bind fun r => ?_
  split
  · exact .pure fun _ _ hk => hk
  · exact .throw

theorem createDirAll_knows (hK : StableHere p dirs K) (hd : DirSpot p dirs d) :
    KnowsHere p dirs K (createDirAll d) fun _ => K := by
  induction d using List.reverseRecOn with
  | nil =>
    rw [createDirAll]
    refine (Knows.ask_keep (c := .mkdir []) hd hK).bind fun r => ?_
    split
    · exact .pure fun _ _ hk => hk
    · exact .throw
    · exact okIfDir_knows hK _ _
  | append_singleton d n ih =>
    have hne : d ++ [n] ≠ [] := List.append_ne_nil_of_right_ne_nil _ (List.cons_ne_nil _ _)
    rw [createDirAll]
    refine (Knows.ask_keep (c := .mkdir (d ++ [n])) hd hK).bind fun r => ?_
    split
    · exact .pure fun _ _ hk => hk
    · -- The parent is made first.
      rw [dif_neg hne, List.dropLast_concat]
      refine (ih (hd.of_prefix (List.prefix_append d [n]))).bind fun _ => ?_
      refine (Knows.ask_keep (c := .mkdir (d ++ [n])) hd hK).bind fun r => ?_
      split
      · exact .pure fun _ _ hk => hk
      · exact okIfDir_knows hK _ _
    · exact okIfDir_knows hK _ _

theorem writeRecords_knows (hK : StableHere p dirs K) (hq : FileSpot p dirs q) (uo pos : ℕ) (kbs : List ℕ) :
    KnowsHere p dirs K (writeRecords q uo pos kbs) fun _ => K := by
  induction kbs generalizing pos with
  | nil => exact .pure fun _ _ hk => hk
  | cons kb kbs ih =>
    have hwrite : CreateCall p dirs (.write q pos (record uo kb)) := hq
    exact (sys_knows hwrite hK fun t _ ht hk _ => hK _ t hwrite ht hk).bind fun _ => ih _

section

variable {i : Fin p.threads}

/-- One round of `do_create`. -/
theorem createFile_knows (hk : k < p.iterations) : KnowsHere p dirs (HasFirst (worker p dirs i) k) (do
      let _ ← sys (.createNew ((worker p dirs i).mkFileNm .src (k + 1)))
      writeRecords ((worker p dirs i).mkFileNm .src (k + 1)) ((worker p dirs i).uniqueOffset (k + 1)) 0
        ((worker p dirs i).fileRecords (k + 1))) fun _ => HasFirst (worker p dirs i) (k + 1) := by
  have hspot : FileSpot p dirs ((worker p dirs i).mkFileNm .src (k + 1)) :=
    ⟨i, k + 1, ⟨Nat.succ_pos k, hk⟩, rfl⟩
  have hcall : CreateCall p dirs (.createNew ((worker p dirs i).mkFileNm .src (k + 1))) := hspot
  have hstable : Stable apply (CreateCall p dirs) (OnlyCreated p dirs) (HasFirst (worker p dirs i) (k + 1)) :=
    stable_hasFirst _ _
  refine (sys_knows hcall hstable fun t a ht hfirst hok n h1 hn => ?_).bind
    fun _ => writeRecords_knows hstable hspot _ _ _
  rcases Nat.lt_or_ge k n with hlt | hle
  · -- The new file.
    obtain rfl : n = k + 1 := Nat.le_antisymm hn hlt
    rw [apply] at hok ⊢
    cases hadd : add t ((worker p dirs i).mkFileNm .src (k + 1)) (.leaf []) with
    | error e =>
      rw [hadd] at hok
      cases hok
    | ok t' =>
      obtain ⟨-, -, -, rfl⟩ := add_ok hadd
      exact ⟨[], AList.lookup_insert _⟩
  · exact stable_leaf _ _ t hcall ht (hfirst n h1 hle)

theorem threadProgram_knows : KnowsHere p dirs (fun _ => True) ((worker p dirs i).threadProgram .create)
    fun _ => HasFirst (worker p dirs i) p.iterations := by
  have htrue : StableHere p dirs fun _ => True := fun _ _ _ _ _ => trivial
  have hsetup : KnowsHere p dirs (fun _ => True) ((worker p dirs i).setup .create) fun _ _ => True := by
    change KnowsHere p dirs _ (worker p dirs i).makeAllSubdirs _
    rw [Worker.makeAllSubdirs]
    split
    · exact .pure fun _ _ _ => trivial
    · refine Knows.forM fun d hd => createDirAll_knows htrue (.inr ?_)
      obtain ⟨s, hs⟩ := Worker.mem_dirset_subdirs.mp hd
      exact ⟨i, s, d, hs, List.prefix_refl d⟩
  have hloop : KnowsHere p dirs (HasFirst (worker p dirs i) 0) (worker p dirs i).doCreate
      fun _ => HasFirst (worker p dirs i) p.iterations :=
    Knows.range (I := HasFirst (worker p dirs i)) (fun _ hk => createFile_knows hk) (Nat.zero_add _)
  exact hsetup.bind fun _ => Knows.pause.bind fun _ =>
    hloop.weaken fun _ _ _ n h1 hn => absurd (h1.trans hn) (by decide)

end

/-! ## The phase -/

/-- A create phase goes from an empty top directory to the tree `t'`, with the threads in any order,
and all threads end without an error. -/
def CreatePhase (p : SuiteParams) (dirs : List (List String)) (t' : NameTree Bytes) : Prop :=
  p.fileDirs = some dirs ∧ ∃ t₀ t₁ s, SuiteRun.EmptyTop p t₀ ∧
    p.createBases.run.exec apply t₀ = (.ok (), t₁) ∧
    Reaches apply ⟨fun i => ((worker p dirs i).threadProgram .create).run, t₁⟩ s ∧
    (∀ i, (s.progs i).result? = some (.ok ())) ∧ s.mem = t'

variable (dirs) in
/-- With directories of their own, the threads complete the phase. -/
theorem exists_createPhase (hown : p.isSharedDir = false) (hdirs : p.fileDirs = some dirs)
    (h : SuiteRun.EmptyTop p t) : ∃ t', CreatePhase p dirs t' := by
  have hready : ∀ i, (worker p dirs i).Ready := fun _ => ⟨hown, hdirs⟩
  obtain ⟨t₁, hbases, h₁, hbase, hagree⟩ := createBases_exec h.between
  have hend := SuiteRun.threads_inevitable create_spec hready h₁ hbase fun i =>
    (h.fresh hready i).of_agree (hready i) (fun _ hq => hq.elim) (hagree _ rfl)
  obtain ⟨s, hrun, hok, -⟩ := Threads.reaches_of_inevitable hend
  exact ⟨s.mem, hdirs, t, t₁, s, h, hbases, hrun, hok, rfl⟩

/-- All files are there, and nothing that the threads do not make. -/
structure Created (p : SuiteParams) (dirs : List (List String)) (t : NameTree Bytes) : Prop
    extends OnlyCreated p dirs t where
  file : ∀ i, HasFirst (worker p dirs i) p.iterations t

theorem onlyCreated_of_emptyTop (h : SuiteRun.EmptyTop p t) : OnlyCreated p dirs t where
  rooted := h.rooted
  spot q node hge hne hq := by
    rw [h.empty q hge hne] at hq
    cases hq

/-- **What a complete create phase leaves.** -/
theorem Created.of_phase (h : CreatePhase p dirs t) : Created p dirs t := by
  obtain ⟨-, t₀, t₁, s, hempty, hbases, hrun, hok, rfl⟩ := h
  have htrue : StableHere p dirs fun _ => True := fun _ _ _ _ _ => trivial
  have hmain : KnowsHere p dirs (fun _ => True) p.createBases fun _ _ => True := by
    refine Knows.forM fun d hd => createDirAll_knows htrue (.inl ?_)
    rcases List.mem_pair.mp hd with rfl | rfl
    exacts [⟨.src, List.prefix_refl _⟩, ⟨.dest, List.prefix_refl _⟩]
  have h₁ := (hmain.exec stable_onlyCreated (onlyCreated_of_emptyTop hempty) trivial).1
  rw [hbases] at h₁
  have hstart : Knowing apply (CreateCall p dirs) (OnlyCreated p dirs)
      (fun i r t => ∀ a, r = Except.ok a → HasFirst (worker p dirs i) p.iterations t)
      ⟨fun i => ((worker p dirs i).threadProgram .create).run, t₁⟩ :=
    ⟨h₁, fun i => ⟨_, htrue, trivial, threadProgram_knows⟩⟩
  have hend := hstart.run stable_onlyCreated hrun
  exact ⟨hend.inv, fun i => hend.finished (hok i) () rfl⟩

end Fstest.Smallfile
