import Fstest.Smallfile.Cleaning

/-!
# The smallfile suite

From an empty top directory the suite goes through its phases, whatever the threads of a phase do
first: no run gets stuck or goes on for ever, all threads of all phases end without an error, and at
the end there are no files, and no directories below those of the threads. This holds exactly if the
names of the directories fit into machine words (`SuiteRun.succeeds_iff`). The build is one with overflow
checks; without them the numbers of `mk_seq_dir_name` would wrap around instead.

`Between` is what holds of the paths of no thread between two phases, and `phase_inevitable` takes the
lone runs of the threads of one phase to all runs of that phase.
-/

namespace Fstest.Smallfile

open NameTree
open Threads (Gives Solo Ended)

variable {p : SuiteParams} {t t' : NameTree Bytes} {q : Path} {dirs : List (List String)}

/-- The thread `i` of a suite. -/
abbrev worker (p : SuiteParams) (dirs : List (List String)) (i : Fin p.threads) : Worker :=
  ⟨p, i, dirs⟩

/-- A path of no thread. -/
def Outside (p : SuiteParams) (q : Path) : Prop := ∀ i : Fin p.threads, ¬ (worker p [] i).Owns q

theorem length_of_owns {w : Worker} (h : w.Owns q) : w.p.top.length + 3 ≤ q.length := by
  obtain ⟨s, hs⟩ := h
  rw [← Worker.length_tree w s]
  exact hs.length_le

theorem outside_of_length (h : q.length < p.top.length + 3) : Outside p q := fun i hown => by
  have hlen : p.top.length + 3 ≤ q.length := length_of_owns hown
  omega

theorem length_base_of_prefix {s : Side} (h : q <+: s.base p.toParams) : q.length ≤ p.top.length + 2 := by
  rw [← Worker.length_base p.toParams s]
  exact h.length_le

/-- Below the top directory, and not at the paths of a thread, there is nothing but base
directories. -/
structure Between (p : SuiteParams) (t : NameTree Bytes) : Prop where
  rooted : Rooted t
  top : IsDir t p.top
  outside : ∀ q, p.top <+: q → q ≠ p.top → Outside p q →
    t.lookup q = none ∨ t.lookup q = some .dir ∧ ∃ s : Side, q <+: s.base p.toParams

/-! ## The base directories -/

theorem top_prefix_base (p : Params) (s : Side) : p.top <+: s.base p := by
  cases s <;> exact List.prefix_append _ _

theorem Between.no_leaf (h : Between p t) {s : Side} (hq : q <+: s.base p.toParams) (hne : q ≠ [])
    (a : Bytes) : t.lookup q ≠ some (.leaf a) := by
  intro hleaf
  have hnot : t.lookup q ≠ some .dir := by
    rw [hleaf]
    exact nofun
  rcases List.prefix_or_prefix_of_prefix hq (top_prefix_base p.toParams s) with hle | hge
  · exact hnot ((h.rooted.isDir_prefix h.top hle).resolve_left hne)
  · by_cases htop : q = p.top
    · exact hnot ((htop ▸ h.top).resolve_left hne)
    · have hlen := length_base_of_prefix hq
      rcases h.outside q hge htop (outside_of_length (by omega)) with hnone | hdir
      · rw [hnone] at hleaf
        cases hleaf
      · exact hnot hdir.1

theorem Between.wayMade {s : Side} (h : Between p t) (hmade : WayMade t (s.base p.toParams) t') :
    Between p t' where
  rooted := hmade.rooted
  top := hmade.isDir_of h.top
  outside q hge hne hout := by
    rw [hmade.lookup]
    split
    · rename_i hq
      exact .inr ⟨rfl, s, hq.2⟩
    · exact h.outside q hge hne hout

theorem WayMade.agree_owns {w : Worker} {s : Side} (hw : w.p = p) (hmade : WayMade t (s.base p.toParams) t') :
    Agree w.Owns t t' := fun q hq => by
  rw [hmade.lookup, if_neg fun hpre => ?_]
  have hlen := length_of_owns hq
  have hbase := length_base_of_prefix hpre.2
  rw [hw] at hlen
  omega

theorem makeBase_gives (h : Between p t) (s : Side) :
    ∃ t', Gives apply (fun _ => True) (createDirAll (s.base p.toParams)) t () t' ∧
      WayMade t (s.base p.toParams) t' :=
  createDirAll_gives h.rooted h.top (top_prefix_base p.toParams s)
    (fun _ hne hq a => h.no_leaf hq hne a) fun _ _ _ _ => ⟨trivial, trivial⟩

/-- **The main thread makes the base directories**, and changes nothing at the paths of the threads. -/
theorem createBases_exec (h : Between p t) : ∃ t', p.createBases.run.exec apply t = (.ok (), t') ∧
    Between p t' ∧ (∀ s : Side, IsDir t' (s.base p.toParams)) ∧
      ∀ w : Worker, w.p = p → Agree w.Owns t t' := by
  obtain ⟨t₁, hsrc, hmade₁⟩ := makeBase_gives h .src
  have h₁ := h.wayMade hmade₁
  obtain ⟨t₂, hdest, hmade₂⟩ := makeBase_gives h₁ .dest
  have hboth : Gives apply (fun _ => True) p.createBases t () t₂ := hsrc.bind (hdest.bind Gives.pure)
  refine ⟨t₂, hboth.exec, h₁.wayMade hmade₂, fun s => ?_, fun w hw q hq => ?_⟩
  · cases s
    · exact hmade₂.isDir_of hmade₁.isDir
    · exact hmade₂.isDir
  · rw [hmade₁.agree_owns hw q hq, hmade₂.agree_owns hw q hq]

/-! ## What the phases need and give -/

/-- From the directories `D` and the contents `c`, a thread that is alone goes through the phase
without an error, and `Post` holds after it. -/
structure PhaseSpec (op : SuiteOp) (D : Worker → Path → Prop) (c : Worker → Side → ℕ → Option Bytes)
    (Post : Worker → NameTree Bytes → Prop) : Prop where
  owns : ∀ w q, D w q → w.Owns q
  alone : ∀ (w : Worker) t, w.Ready → Rooted t → w.Holds (D w) (c w) t →
    ∃ t', (∃ n, Solo apply w.OwnCall (w.threadProgram op).run t n 1 (.ok ()) t') ∧ Post w t'
  stable : ∀ w t t', w.Ready → Agree w.Owns t t' → Post w t → Post w t'

/-- The thread has made nothing yet. -/
def Fresh (w : Worker) (t : NameTree Bytes) : Prop := w.Has (fun _ => False) (fun _ _ => none) t

/-- The thread has its directories, and its files on one side. -/
def HasFiles (s : Side) (data : Worker → ℕ → Bytes) (w : Worker) (t : NameTree Bytes) : Prop :=
  w.Has w.Made (Worker.filesAt s (data w)) t

/-- There is nothing left but the directories of the thread itself. -/
def Cleaned (w : Worker) (t : NameTree Bytes) : Prop :=
  ∃ D, w.Has D (fun _ _ => none) t ∧ ∀ q, D q → ∃ s, q = w.tree s

theorem solo_threadProgram {w : Worker} {op : SuiteOp} {t₁ : NameTree Bytes}
    (hsetup : Gives apply w.OwnCall (w.setup op) t () t₁) (hop : Gives apply w.OwnCall (w.runOp op) t₁ () t') :
    ∃ n, Solo apply w.OwnCall (w.threadProgram op).run t n 1 (.ok ()) t' :=
  hsetup.around_wait hop

/-- A phase whose files stay in the directories that are there. -/
theorem phaseSpec_of_gives {op : SuiteOp} {c c' : Worker → Side → ℕ → Option Bytes}
    (hsetup : needsSetup op.opname = false)
    (hop : ∀ (w : Worker) t, w.Ready → Rooted t → w.Holds w.Made (c w) t →
      ∃ t', Gives apply w.OwnCall (w.runOp op) t () t' ∧ Rooted t' ∧ w.Holds w.Made (c' w) t') :
    PhaseSpec op Worker.Made c fun w t => w.Has w.Made (c' w) t where
  owns w q hq := hq.1
  alone w t hw ht h := by
    obtain ⟨t', hgives, -, h'⟩ := hop w t hw ht h
    have hnone : Gives apply w.OwnCall (w.setup op) t () t := by
      rw [Worker.setup, hsetup]
      exact Gives.pure
    exact ⟨t', solo_threadProgram hnone hgives, h'.toHas⟩
  stable w t t' hw ht h := h.of_agree hw (fun q hq => hq.1) ht

theorem create_spec : PhaseSpec .create (fun _ _ => False) (fun _ _ _ => none)
    (HasFiles .src Worker.written) where
  owns w q hq := hq.elim
  alone w t hw ht h := by
    obtain ⟨t₁, hmake, ht₁, h₁⟩ := Worker.makeAllSubdirs_gives hw ht h
    obtain ⟨t₂, hcreate, -, h₂⟩ := Worker.doCreate_gives hw ht₁ h₁
    exact ⟨t₂, solo_threadProgram hmake hcreate, h₂.toHas⟩
  stable w t t' hw ht h := h.of_agree hw (fun q hq => hq.1) ht

theorem read_spec : PhaseSpec .read Worker.Made (fun w => Worker.filesAt .src w.written)
    (HasFiles .src Worker.written) := by
  refine phaseSpec_of_gives rfl fun w t hw ht h => ?_
  have hnil : w.written = fun n => w.written n ++ [] := by
    funext n
    exact (List.append_nil _).symm
  rw [hnil] at h ⊢
  exact Worker.doRead_gives hw ht h

/-- The file after its append. -/
def twice (w : Worker) (n : ℕ) : Bytes := w.written n ++ w.written n

theorem append_spec : PhaseSpec .append Worker.Made (fun w => Worker.filesAt .src w.written)
    (HasFiles .src twice) :=
  phaseSpec_of_gives rfl fun _ _ hw ht h => Worker.doAppend_gives hw ht h

theorem rename_spec : PhaseSpec .rename Worker.Made (fun w => Worker.filesAt .src (twice w))
    (HasFiles .dest twice) :=
  phaseSpec_of_gives rfl fun _ _ hw ht h => Worker.doRename_gives hw ht h

theorem deleteRenamed_spec : PhaseSpec .deleteRenamed Worker.Made
    (fun w => Worker.filesAt .dest (twice w)) fun w t => w.Has w.Made (fun _ _ => none) t :=
  phaseSpec_of_gives rfl fun _ _ hw ht h => Worker.doDeleteRenamed_gives hw ht h

/-- A cleanup where nothing has been made finds nothing. -/
theorem cleanup_fresh_spec : PhaseSpec .cleanup (fun _ _ => False) (fun _ _ _ => none) Fresh where
  owns w q hq := hq.elim
  alone w t hw ht h := by
    obtain ⟨t', D', hclean, -, h', hsub, -⟩ := Worker.doCleanup_gives hw (fun _ hq => hq.elim) ht h
    have heq : D' = fun _ => False := by
      funext q
      exact propext ⟨hsub q, False.elim⟩
    subst heq
    exact ⟨t', solo_threadProgram Gives.pure hclean, h'.toHas⟩
  stable w t t' hw ht h := h.of_agree hw (fun q hq => hq.elim) ht

theorem cleanup_spec : PhaseSpec .cleanup Worker.Made (fun _ _ _ => none) Cleaned where
  owns w q hq := hq.1
  alone w t hw ht h := by
    obtain ⟨t', D', hclean, -, h', -, hall⟩ := Worker.doCleanup_gives hw (fun _ hq => hq) ht h
    exact ⟨t', solo_threadProgram Gives.pure hclean, D', h'.toHas, hall⟩
  stable w t t' hw ht h := by
    obtain ⟨D, h, hall⟩ := h
    refine ⟨D, h.of_agree hw (fun q hq => ?_) ht, hall⟩
    obtain ⟨s, rfl⟩ := hall q hq
    exact ⟨s, List.prefix_refl _⟩

/-! ## One phase -/

namespace SuiteRun

variable {R : SuiteRun p → Prop} {op : SuiteOp} {todo : List SuiteOp} {outcomes : List (PhaseOutcomes p)}

instance (p : SuiteParams) : Nonempty (Fin p.threads) := ⟨⟨0, p.threads_pos⟩⟩

/-- All threads have ended without an error. -/
abbrev allOk (p : SuiteParams) : PhaseOutcomes p := fun _ => some (.ok ())

theorem step_done {s : Threads.State (Fin p.threads) Call Reply Status (NameTree Bytes)}
    (h : ∀ i, (s.progs i).result?.isSome) (a : Option (Fin p.threads)) : Threads.step apply s a = none := by
  cases a with
  | some i =>
    have hi := h i
    rw [Threads.step]
    cases hp : s.progs i with
    | call c k =>
      rw [hp] at hi
      cases hi
    | done b => rfl
    | wait k => rfl
  | none =>
    rw [Threads.step, if_neg fun hwait => ?_]
    have i : Fin p.threads := ⟨0, p.threads_pos⟩
    have hi := h i
    have hw := hwait i
    cases hp : s.progs i with
    | call c k =>
      rw [hp] at hi
      cases hi
    | done b =>
      rw [hp] at hw
      cases hw
    | wait k =>
      rw [hp] at hi
      cases hi

/-- The threads of a phase come to their ends, and the main thread goes on. -/
theorem phase_lift {Q : Threads.State (Fin p.threads) Call Reply Status (NameTree Bytes) → Prop}
    {s : Threads.State (Fin p.threads) Call Reply Status (NameTree Bytes)}
    (h : Inevitable (Threads.step apply) Q s)
    (hQ : ∀ s, Q s → (∀ i, (s.progs i).result? = some (.ok ())) ∧
      Inevitable step R (.main todo (outcomes ++ [allOk p]) s.mem)) :
    Inevitable step R (.phase todo outcomes s) := by
  refine h.lift (f := SuiteRun.phase todo outcomes) (fun s hs => ?_) (fun s a s' hs => ?_)
    (fun s a s' b r hs hr => ?_)
  · obtain ⟨hall, hmain⟩ := hQ s hs
    have hsome : ∀ i, (s.progs i).result?.isSome := fun i => by
      rw [hall i]
      rfl
    have hjoin : step (.phase todo outcomes s) none = some (.main todo (outcomes ++ [allOk p]) s.mem) := by
      rw [step, if_pos hsome]
      have heq : (fun i => (s.progs i).result?) = allOk p := funext hall
      rw [heq]
    refine Inevitable.of_step hjoin (fun b s'' hb => ?_) hmain
    cases b with
    | none =>
      rw [hjoin] at hb
      exact (Option.some.inj hb).symm
    | some a =>
      rw [step, step_done hsome a] at hb
      cases hb
  · exact ⟨some a, by rw [step, hs]; rfl⟩
  · cases b with
    | none =>
      rw [step] at hr
      split at hr
      · rename_i hall
        rw [step_done hall a] at hs
        cases hs
      · cases hr
    | some a' =>
      rw [step] at hr
      obtain ⟨s'', hs'', rfl⟩ := Option.map_eq_some_iff.mp hr
      exact ⟨a', s'', hs'', rfl⟩

section

/-- A thread that is alone goes through the phase without an error, and `P` holds after it. -/
def GoesThrough (op : SuiteOp) (t : NameTree Bytes) (dirs : List (List String))
    (P : Worker → NameTree Bytes → Prop) (i : Fin p.threads) : Prop :=
  ∃ t', (∃ n, Solo apply (worker p dirs i).OwnCall
    ((worker p dirs i).threadProgram op).run t n 1 (.ok ()) t') ∧ P (worker p dirs i) t'

variable {P : Worker → NameTree Bytes → Prop}

/-- **The threads of a phase** come to their ends, from what each of them does alone. -/
theorem threads_of_solo (h : Between p t) (hsolo : ∀ i : Fin p.threads, GoesThrough op t dirs P i)
    (hstable : ∀ i t t', Agree (worker p dirs i).Owns t t' → P (worker p dirs i) t →
      P (worker p dirs i) t') :
    Inevitable (Threads.step apply) (fun s => (∀ i, (s.progs i).result? = some (.ok ())) ∧
      Between p s.mem ∧ ∀ i, P (worker p dirs i) s.mem)
      ⟨fun i => ((worker p dirs i).threadProgram op).run, t⟩ := by
  choose t₂ hn hp using hsolo
  have hI := Worker.independent (w := worker p dirs) (fun _ _ => rfl) fun _ _ heq => Fin.ext heq
  -- Nothing changes at the paths of no thread.
  let J : NameTree Bytes → Prop := fun t' => Rooted t' ∧ Agree (Outside p) t' t
  have hJ : ∀ i c t', (worker p dirs i).OwnCall c → J t' → J (apply c t').2 := fun i c t' hc hj =>
    ⟨rooted_apply hj.1 c, fun q hq =>
      (lookup_apply fun hmem => hq i (hc q hmem)).trans (hj.2 q hq)⟩
  have hend := Threads.inevitable_of_solo hI hJ hn ⟨h.rooted, fun _ _ => rfl⟩
  refine hend.trans fun s hs => .now ?_
  obtain ⟨hall, hroot, hout⟩ := hs
  refine ⟨fun i => (hall i).1, ⟨hroot, ?_, fun q hge hne hq => ?_⟩, fun i => ?_⟩
  · rw [IsDir, hout p.top (outside_of_length (by omega))]
    exact h.top
  · rw [hout q hq]
    exact h.outside q hge hne hq
  · exact hstable i _ _ (fun q hq => (hall i).2 q (.inr hq)) (hp i)

/-- **A phase**, from what each thread does alone once the base directories are made. -/
theorem phase_of_solo (hdirs : p.fileDirs = some dirs) (h : Between p t)
    (hsolo : ∀ t', Between p t' → (∀ s : Side, IsDir t' (s.base p.toParams)) →
      (∀ i, Agree (worker p dirs i).Owns t t') → ∀ i : Fin p.threads, GoesThrough op t' dirs P i)
    (hstable : ∀ i t t', Agree (worker p dirs i).Owns t t' → P (worker p dirs i) t →
      P (worker p dirs i) t')
    (hnext : ∀ t', Between p t' → (∀ i, P (worker p dirs i) t') →
      Inevitable step R (.main todo (outcomes ++ [allOk p]) t')) :
    Inevitable step R (.main (op :: todo) outcomes t) := by
  obtain ⟨t₁, hbases, h₁, hbase, hagree⟩ := createBases_exec h
  have hstart : step (.main (op :: todo) outcomes t) none =
      some (.phase todo outcomes ⟨fun i => ((worker p dirs i).threadProgram op).run, t₁⟩) := by
    rw [step, hbases]
    simp only [hdirs]
  refine Inevitable.of_step hstart (fun b s'' hb => ?_) ?_
  · cases b with
    | none =>
      rw [hstart] at hb
      exact (Option.some.inj hb).symm
    | some a => cases hb
  have hend := threads_of_solo h₁ (hsolo t₁ h₁ hbase fun i => hagree _ rfl) hstable
  exact phase_lift hend fun s hs => ⟨hs.1, hnext s.mem hs.2.1 hs.2.2⟩

end

/-- The threads of a phase whose directories and contents are known. -/
theorem threads_inevitable {D : Worker → Path → Prop} {c : Worker → Side → ℕ → Option Bytes}
    {Post : Worker → NameTree Bytes → Prop} (hspec : PhaseSpec op D c Post)
    (hready : ∀ i, (worker p dirs i).Ready) (h : Between p t) (hbase : ∀ s : Side, IsDir t
      (s.base p.toParams))
    (hhas : ∀ i, (worker p dirs i).Has (D (worker p dirs i)) (c (worker p dirs i)) t) :
    Inevitable (Threads.step apply) (fun s => (∀ i, (s.progs i).result? = some (.ok ())) ∧
      Between p s.mem ∧ ∀ i, Post (worker p dirs i) s.mem)
      ⟨fun i => ((worker p dirs i).threadProgram op).run, t⟩ :=
  threads_of_solo h (fun i => hspec.alone _ t (hready i) h.rooted { hhas i with base := hbase })
    fun i _ _ => hspec.stable _ _ _ (hready i)

theorem phase_inevitable {D : Worker → Path → Prop} {c : Worker → Side → ℕ → Option Bytes}
    {Post : Worker → NameTree Bytes → Prop} (hspec : PhaseSpec op D c Post)
    (hdirs : p.fileDirs = some dirs) (hready : ∀ i, (worker p dirs i).Ready) (h : Between p t)
    (hhas : ∀ i, (worker p dirs i).Has (D (worker p dirs i)) (c (worker p dirs i)) t)
    (hnext : ∀ t', Between p t' → (∀ i, Post (worker p dirs i) t') →
      Inevitable step R (.main todo (outcomes ++ [allOk p]) t')) :
    Inevitable step R (.main (op :: todo) outcomes t) := by
  refine phase_of_solo hdirs h (fun t₁ h₁ hbase hagree i => ?_) (fun i _ _ => hspec.stable _ _ _ (hready i))
    hnext
  exact hspec.alone _ t₁ (hready i) h₁.rooted
    { (hhas i).of_agree (hready i) (hspec.owns _) (hagree i) with base := hbase }

/-! ## The whole suite -/

/-- What is left below the top directory at the end: no file, and no directory below one of a
thread. -/
structure CleanedUp (p : SuiteParams) (t : NameTree Bytes) : Prop where
  noFile : ∀ q a, p.top <+: q → t.lookup q ≠ some (.leaf a)
  noDir : ∀ (s : Side) (label : String) (q : Path), s.base p.toParams ++ ["thrd_" ++ label] <+: q →
    q ≠ s.base p.toParams ++ ["thrd_" ++ label] → t.lookup q ≠ some .dir

/-- The suite has gone through all phases, all threads have ended with status 0, and all is cleaned
up. -/
def Succeeded (r : SuiteRun p) : Prop :=
  ∃ t, r = returned (.ok (defaultPhases.map fun _ => allOk p)) t ∧ CleanedUp p t

/-- The top directory exists and is empty. -/
structure EmptyTop (p : SuiteParams) (t : NameTree Bytes) : Prop where
  rooted : Rooted t
  top : IsDir t p.top
  empty : ∀ q, p.top <+: q → q ≠ p.top → t.lookup q = none

theorem EmptyTop.between (h : EmptyTop p t) : Between p t where
  rooted := h.rooted
  top := h.top
  outside q hge hne _ := .inl (h.empty q hge hne)

theorem cleanedUp (h : Between p t) (hclean : ∀ i, Cleaned (worker p dirs i) t) : CleanedUp p t := by
  -- A path is one of a thread, of which there is little left, or of none.
  have hcases : ∀ q, p.top <+: q → q ≠ p.top → t.lookup q = none ∨ t.lookup q = some .dir ∧
      (q.length ≤ p.top.length + 3) := by
    intro q hge hne
    by_cases hout : Outside p q
    · refine (h.outside q hge hne hout).imp_right fun ⟨hdir, s, hs⟩ => ⟨hdir, ?_⟩
      have := length_base_of_prefix hs
      omega
    · obtain ⟨i, hi⟩ := not_forall.mp hout
      obtain ⟨D, hD, hall⟩ := hclean i
      by_cases hnone : t.lookup q = none
      · exact .inl hnone
      · obtain ⟨hq, hdir⟩ := hD.only_dirs (not_not.mp hi) hnone
        obtain ⟨s, rfl⟩ := hall q hq
        exact .inr ⟨hdir, (Worker.length_tree _ s).le⟩
  refine ⟨fun q a hge hleaf => ?_, fun s label q hge hne hdir => ?_⟩
  · by_cases htop : q = p.top
    · rcases htop ▸ h.top with hnil | hdir
      · exact absurd hnil (h.rooted q (mem_of_lookup hleaf)).1
      · rw [hleaf] at hdir
        cases hdir
    · rcases hcases q hge htop with hnone | ⟨hdir, -⟩
      · rw [hnone] at hleaf
        cases hleaf
      · rw [hleaf] at hdir
        cases hdir
  · have hlen : p.top.length + 3 < q.length := by
      have hlt : (s.base p.toParams ++ ["thrd_" ++ label]).length < q.length :=
        lt_of_le_of_ne hge.length_le fun heq => hne (hge.eq_of_length heq).symm
      rw [List.length_append, Worker.length_base] at hlt
      exact hlt
    have htop : p.top <+: q := ((top_prefix_base p.toParams s).trans (List.prefix_append _ _)).trans hge
    rcases hcases q htop (fun heq => by rw [heq] at hlen; omega) with hnone | ⟨-, hle⟩
    · rw [hnone] at hdir
      cases hdir
    · omega

/-- In an empty top directory no thread has made anything. -/
theorem EmptyTop.fresh (h : EmptyTop p t) (hready : ∀ i, (worker p dirs i).Ready) (i : Fin p.threads) :
    Fresh (worker p dirs i) t := by
  have hnone : ∀ q, (worker p dirs i).Owns q → t.lookup q = none := fun q hq => by
    have hlen : p.top.length + 3 ≤ q.length := length_of_owns hq
    obtain ⟨s, hs⟩ := hq
    have htop : p.top <+: q := ((top_prefix_base p.toParams s).trans (List.prefix_append _ _)).trans hs
    exact h.empty q htop fun heq => by rw [heq] at hlen; omega
  exact ⟨fun _ hq => hq.elim, fun s n _ => hnone _ ((hready i).fileLike_mkFileNm s n).owns,
    fun q hq _ _ => hnone q hq⟩

theorem suite_inevitable (hown : p.isSharedDir = false) (hdirs : p.fileDirs = some dirs)
    (h : EmptyTop p t) : Inevitable step Succeeded (start p t) := by
  have hready : ∀ i, (worker p dirs i).Ready := fun _ => ⟨hown, hdirs⟩
  refine phase_inevitable cleanup_fresh_spec hdirs hready h.between (h.fresh hready) fun t₁ h₁ hp₁ => ?_
  refine phase_inevitable create_spec hdirs hready h₁ hp₁ fun t₂ h₂ hp₂ => ?_
  refine phase_inevitable read_spec hdirs hready h₂ hp₂ fun t₃ h₃ hp₃ => ?_
  refine phase_inevitable append_spec hdirs hready h₃ hp₃ fun t₄ h₄ hp₄ => ?_
  refine phase_inevitable rename_spec hdirs hready h₄ hp₄ fun t₅ h₅ hp₅ => ?_
  refine phase_inevitable deleteRenamed_spec hdirs hready h₅ hp₅ fun t₆ h₆ hp₆ => ?_
  refine phase_inevitable cleanup_spec hdirs hready h₆ hp₆ fun t₇ h₇ hp₇ => ?_
  refine Inevitable.of_step (a := none) rfl (fun b s hb => ?_) (.now ⟨t₇, rfl, cleanedUp h₇ hp₇⟩)
  cases b with
  | none => exact (Option.some.inj hb).symm
  | some a => cases hb

/-- Without the names, the first phase panics. -/
theorem not_inevitable_of_panic (hdirs : p.fileDirs = none) (h : EmptyTop p t) :
    ¬ Inevitable step Succeeded (start p t) := by
  intro hinev
  obtain ⟨t', hbases, -⟩ := createBases_exec h.between
  have hpanic : step (start p t) none = some panicked := by
    rw [start, defaultPhases, step, hbases]
    simp only [hdirs]
  have hstart : ¬ Succeeded (start p t) := by
    rintro ⟨_, heq, -⟩
    cases heq
  obtain ⟨_, heq, -⟩ := (hinev.next hstart hpanic).of_stuck fun a => by cases a <;> rfl
  cases heq

/-- **The suite succeeds under every interleaving exactly if the names of its directories fit.** -/
theorem succeeds_iff (p : SuiteParams) (t : NameTree Bytes) (hradix : 2 ≤ p.dirsPerDir)
    (hown : p.isSharedDir = false) (h : EmptyTop p t) :
    Inevitable step Succeeded (start p t) ↔ p.Fits := by
  rw [← fileDirs_isSome_iff hradix]
  cases hdirs : p.fileDirs with
  | none => exact iff_of_false (not_inevitable_of_panic hdirs h) Bool.false_ne_true
  | some dirs => exact iff_of_true (suite_inevitable hown hdirs h) rfl

/-- A suite in a file system of its own, with the defaults of the other parameters. -/
def sample (threads files filesPerDir : ℕ) (hthreads : 0 < threads) (hfiles : 0 < files)
    (hlt : files < u32Size) (hfpd : 0 < filesPerDir) : SuiteParams where
  opname := .create
  iterations := files
  threads := threads
  filesPerDir := filesPerDir
  filePrefix := ""
  fileSuffix := ""
  hashToDir := false
  isSharedDir := false
  top := []
  host := "host"
  recordSzKb := 0
  totalSzKb := 64
  filesizeDistr := .fixed
  dirsPerDir := 10
  verifyRead := true
  draws := fun _ _ => 0
  iterations_pos := hfiles
  iterations_lt := hlt
  threads_pos := hthreads
  filesPerDir_pos := hfpd
  dirsPerDir_pos := defaultDirsPerDir_pos
  recordSzKb_le := defaultRecordSz_le
  filePrefix_name := defaultAffix_name
  fileSuffix_name := defaultAffix_name

theorem sample_emptyTop (threads files filesPerDir : ℕ) (hthreads : 0 < threads) (hfiles : 0 < files)
    (hlt : files < u32Size) (hfpd : 0 < filesPerDir) :
    EmptyTop (sample threads files filesPerDir hthreads hfiles hlt hfpd) ∅ where
  rooted := rooted_empty
  top := .inl rfl
  empty _ _ _ := AList.lookup_empty _

/-- Two threads with 200 files each, by default 100 in a directory. -/
theorem default_sample_succeeds :
    Inevitable step Succeeded (start (sample 2 200 100 (by decide) (by decide) (by decide) (by decide)) ∅) := by
  refine (succeeds_iff _ ∅ (by decide) rfl (sample_emptyTop ..)).mpr ⟨by decide, fun _ k hle => ?_⟩
  have hpow : 10 ^ (k + 1) ≤ 2 := hle
  have := Nat.pow_le_pow_right (show 0 < 10 by decide) (Nat.le_add_left 1 k)
  omega

/-- With `2 ^ 32 - 1` files in a directory, the range of the names of one file overflows. -/
theorem huge_sample_fails : ¬ Inevitable step Succeeded
    (start (sample 1 1 (2 ^ 32 - 1) (by decide) (by decide) (by decide) (by decide)) ∅) :=
  not_inevitable_of_panic rfl (sample_emptyTop ..)

end SuiteRun

end Fstest.Smallfile
