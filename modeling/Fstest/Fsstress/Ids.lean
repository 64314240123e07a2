import Fstest.Fsstress.Agreement

/-!
# The ids of a thread, whatever the others do

To a thread the other threads and the file system are the answers to its calls (`turn`); `thread_turns` says
that a thread among others makes such turns. Whatever the answers are, no id is used twice and a parent is
older than its entry. So the recursion of `fent_to_name` ends, also on an entry whose parent has been
removed, and no name is made up twice (`run_named`).
-/

namespace Fstest.Fsstress

/-- `fent_to_name`, given up if it is more than `n` calls deep. -/
def Lists.fentToNameWithin (l : Lists) : ℕ → Ft → Fent → Option Path
  | 0, _, _ => none
  | n + 1, ft, fent => do
    let path ←
      if 0 ≤ fent.parent then
        match l.dirById fent.parent.toNat with
        | some p => fentToNameWithin l n .dir p
        | none => some []
      else some []
    return path ++ [Lists.name ft fent.id]

/-- The recursion is no deeper than the id of the entry. -/
theorem Lists.fentToNameWithin_eq (l : Lists) {n : ℕ} (ft : Ft) {fent : Fent} (h : fent.id < n) :
    l.fentToNameWithin n ft fent = some (l.fentToName ft fent) := by
  induction n generalizing ft fent with
  | zero => exact absurd h (Nat.not_lt_zero _)
  | succ n ih =>
    rw [fentToNameWithin]
    by_cases hparent : 0 ≤ fent.parent
    · rw [if_pos hparent]
      cases hp : l.dirById fent.parent.toNat with
      | none =>
        rw [fentToName_lost hp]
        rfl
      | some p =>
        have hid := id_of_dirById hp
        have hlt := fent.parent_lt
        dsimp only
        rw [ih .dir (by omega), fentToName_child hparent hp]
        rfl
    · rw [if_neg hparent, fentToName_base (by omega)]
      rfl

namespace ThreadState

variable {linux : Bool} {table : List Op} {st st' : ThreadState} {parent : Option st.lists.Picked} {ft : Ft}
  {g : Generated} {req : Request}

/-- A turn of the loop of a thread, with the answer to its call. -/
def turn (linux : Bool) (table : List Op) (st : ThreadState) (a : Bool × Quiet) :
    Option (ThreadState × Unit) :=
  match st.nextOp linux a.2 table with
  | none => none
  | some (.quiet st') => some (st', ())
  | some (.request req) => some (if a.1 then req.ok else req.failed, ())

/-- A name is none of those that the entries have. -/
theorem generateName_fresh (h : st.generateName parent ft = some g) {e : Ft × Fent}
    (he : e ∈ st.lists.entries) : st.lists.fentToName e.1 e.2 ≠ g.path := by
  have hlast : ∃ d, g.path = d ++ [Lists.name ft st.nameseq] := by
    unfold generateName at h
    split at h
    · cases h
      cases parent with
      | none => exact ⟨[], rfl⟩
      | some fep => exact ⟨_, rfl⟩
    · cases h
  obtain ⟨d, hd⟩ := hlast
  obtain ⟨d', hd'⟩ := st.lists.fentToName_last e.1 e.2
  rw [hd, hd']
  intro heq
  have hname := List.singleton_inj.mp (List.append_inj_right' heq rfl)
  have hlt := st.ids_lt _ _ (Lists.mem_entries.mp he)
  exact absurd (Lists.name_injective hname).2 (Nat.ne_of_lt hlt)

theorem addFent_idsDiffer (hg : st.generateName parent ft = some g) (st₁ : ThreadState) {ft' : Ft}
    (hid : g.id < st₁.nameseq) (hsub : ∀ ft, ∀ f ∈ st₁.lists ft, f ∈ st.lists ft) (h : st₁.lists.IdsDiffer) :
    (st₁.addFent ft' g hid).lists.IdsDiffer := by
  refine Lists.IdsDiffer.push h fun ft f hf => ?_
  dsimp only
  rw [(generateName_some hg).1]
  exact st.ids_lt ft f (hsub ft f hf)

end ThreadState

variable {linux : Bool} {table : List Op} {st st' : ThreadState} {req : Request}

/-- What a request makes of the lists. -/
theorem Makes.idsDiffer (hreq : Makes st req) (h : st.lists.IdsDiffer) : req.ok.lists.IdsDiffer := by
  cases hreq with
  | new hdir hg hnew =>
    have hlists := (ThreadState.generateName_some hg).2.2
    exact ThreadState.addFent_idsDiffer hg _ (ThreadState.Generated.id_lt _) (fun ft f hf => hlists ▸ hf)
      (hlists ▸ h)
  | link src hsrc hdir hg =>
    have hlists := (ThreadState.generateName_some hg).2.2
    exact ThreadState.addFent_idsDiffer hg _ (ThreadState.Generated.id_lt _) (fun ft f hf => hlists ▸ hf)
      (hlists ▸ h)
  | unlink e he => exact h.without _ _
  | rmdir e he => exact h.without _ _
  | @rename parent g e he hdir hg =>
    have hlists := (ThreadState.generateName_some hg).2.2
    have hremoved : (g.st.removeFent e.ft e.fent.id).lists.IdsDiffer := by
      change (g.st.lists.without e.ft e.fent.id).IdsDiffer
      rw [hlists]
      exact h.without _ _
    have hsub : ∀ ft, ∀ f ∈ (g.st.removeFent e.ft e.fent.id).lists ft, f ∈ st.lists ft :=
      fun ft f hf => hlists ▸ (Lists.mem_without.mp hf).1
    exact ThreadState.addFent_idsDiffer hg (g.st.removeFent e.ft e.fent.id) g.id_lt hsub hremoved

/-- **A turn uses no id twice**, whatever the answer is. -/
theorem ThreadState.turn_idsDiffer {a : Bool × Quiet} {u : Unit} (h : st.lists.IdsDiffer)
    (hturn : st.turn linux table a = some (st', u)) : st'.lists.IdsDiffer := by
  rw [turn] at hturn
  split at hturn
  · cases hturn
  · rename_i st₁ hop
    cases hturn
    rw [(comes_nextOp hop).1]
    exact h
  · rename_i req hop
    cases hturn
    obtain ⟨st₁, hst, hreq⟩ := comes_nextOp hop
    rw [← hst.1] at h
    split
    · exact hreq.idsDiffer h
    · rw [(failed_lists hreq).1]
      exact h

/-- What a thread can rely on. -/
structure Named (st : ThreadState) : Prop where
  ids : (st.lists.entries.map fun e => e.2.id).Nodup
  parents : ∀ e ∈ st.lists.entries, e.2.parent = -1 ∨ e.2.parent < e.2.id
  ends : ∀ e ∈ st.lists.entries,
    st.lists.fentToNameWithin (e.2.id + 1) e.1 e.2 = some (st.lists.fentToName e.1 e.2)
  fresh : ∀ parent ft g, st.generateName parent ft = some g →
    ∀ e ∈ st.lists.entries, st.lists.fentToName e.1 e.2 ≠ g.path

/-- **In every state of every run of a thread** the ids differ, a parent is older than its entry, the path of
an entry is found within as many calls as its id says, and a name that is made up is new. -/
theorem run_named {rng : ℕ → UInt32} {tr : List Unit}
    (hrun : Labelled.Run (ThreadState.turn linux table) (fun _ _ => True) (.new rng) tr st) : Named st where
  ids := hrun.invariant (I := fun _ st => st.lists.IdsDiffer) List.nodup_nil
    fun _ _ _ _ _ _ h _ hturn => ThreadState.turn_idsDiffer h hturn
  parents := fun e _ => .inr e.2.parent_lt
  ends := fun e _ => st.lists.fentToNameWithin_eq e.1 (Nat.lt_succ_self _)
  fresh := fun _ _ _ hg _ he => ThreadState.generateName_fresh hg he

/-- Two directories, one in the other, of which the outer one is gone: the inner one is taken to be in the
base. -/
theorem named_without_parent : ∃ tr, ∃ st : ThreadState,
    Labelled.Run (ThreadState.turn true [.mkdir, .rmDir]) (fun _ _ => True)
      (.new fun n => if n = 4 then 1 else 0) tr st ∧
    (∃ e ∈ st.lists.entries, e.2.parent = 0 ∧ st.lists.fentToName e.1 e.2 = ["d1"]) ∧ Named st := by
  have hrun : (Labelled.execute (ThreadState.turn true [.mkdir, .rmDir]) (fun _ _ => True)
      [(true, ⟨0, 0⟩), (true, ⟨0, 0⟩), (true, ⟨0, 0⟩)]
      (.new fun n => if n = 4 then 1 else 0)).map (fun r =>
        decide (∃ e ∈ r.2.lists.entries, e.2.parent = 0 ∧ r.2.lists.fentToNameWithin (e.2.id + 1) e.1 e.2 =
          some ["d1"])) = some true := by
    decide +kernel
  obtain ⟨⟨tr, st⟩, hexec, heq⟩ := Option.map_eq_some_iff.mp hrun
  obtain ⟨e, he, hparent, hpath⟩ := of_decide_eq_true heq
  have h := Labelled.Run.of_execute hexec
  have hnamed := run_named h
  refine ⟨tr, st, h, ⟨e, he, hparent, ?_⟩, hnamed⟩
  exact Option.some.inj ((hnamed.ends e he).symm.trans hpath)

/-! ## A thread among others -/

section Others

variable {n : ℕ} {s s' : Sys n} {t u : Fin n}

theorem Sys.st_answer (s : Sys n) (t : Fin n) (ok : Bool) (req : Request) :
    ∃ b : Bool, ((s.answer t ok req).threads t).st = (if b then req.ok else req.failed) ∧
      ∀ u, u ≠ t → (s.answer t ok req).threads u = s.threads u := by
  have hother : ∀ th u, u ≠ t → (s.withThread t th).threads u = s.threads u :=
    fun th u hu => Function.update_of_ne hu ..
  have hself : ∀ th, (s.withThread t th).threads t = th := fun th => Function.update_self ..
  rw [Sys.answer]
  split
  · split
    · exact ⟨true, congrArg Thread.st (hself _), hother _⟩
    · exact ⟨false, congrArg Thread.st (hself _), hother _⟩
  · exact ⟨false, congrArg Thread.st (hself _), hother _⟩

/-- A step of a system is a turn of a thread, or leaves it as it is. -/
theorem Sys.turn_of_step {a : Fin n × Act} {b : Bool} (hs : s.step linux table a = some (s', b)) (u : Fin n) :
    (s'.threads u).st = (s.threads u).st ∨
      ∃ c, (s.threads u).st.turn linux table c = some ((s'.threads u).st, ()) := by
  obtain ⟨t, act⟩ := a
  have hother : ∀ th, u ≠ t → (s.withThread t th).threads u = s.threads u :=
    fun th hu => Function.update_of_ne hu ..
  cases act with
  | op ok q =>
    cases hp : (s.threads t).pending with
    | some p => simp only [Sys.step, hp, reduceCtorEq] at hs
    | none =>
      simp only [Sys.step, hp] at hs
      split at hs
      · cases hs
      · rename_i st hop
        cases hs
        by_cases hu : u = t
        · subst hu
          refine .inr ⟨(true, q), ?_⟩
          rw [ThreadState.turn, hop, Sys.withThread]
          simp only [Function.update_self]
        · exact .inl (congrArg Thread.st (hother _ hu))
      · rename_i req hop
        cases hs
        obtain ⟨b, hself, hrest⟩ := s.st_answer t ok req
        by_cases hu : u = t
        · subst hu
          refine .inr ⟨(b, q), ?_⟩
          rw [ThreadState.turn, hop, hself]
        · exact .inl (congrArg Thread.st (hrest u hu))
  | note =>
    cases hp : (s.threads t).pending with
    | none => simp only [Sys.step, hp, reduceCtorEq] at hs
    | some p =>
      simp only [Sys.step, hp] at hs
      cases hs
      refine .inl ?_
      by_cases hu : u = t
      · subst hu
        rw [Sys.noteCreated, Sys.withThread]
        simp only [Function.update_self]
      · exact congrArg Thread.st (hother _ hu)

/-- **A thread of a system makes turns**: whatever the others do to the file system, it is an answer. -/
theorem thread_turns {rngs : Fin n → ℕ → UInt32} {tr : List Bool}
    (hrun : Labelled.Run (Sys.step linux table) (fun _ _ => True) (Sys.start rngs) tr s) (t : Fin n) :
    ∃ tr', Labelled.Run (ThreadState.turn linux table) (fun _ _ => True) (.new (rngs t)) tr'
      (s.threads t).st := by
  refine hrun.invariant (I := fun _ s => ∃ tr', Labelled.Run (ThreadState.turn linux table)
    (fun _ _ => True) (.new (rngs t)) tr' (s.threads t).st) ⟨[], .nil⟩ ?_
  intro _ s a s' b _ ih _ hs
  obtain ⟨tr', hturns⟩ := ih
  rcases Sys.turn_of_step hs t with hsame | ⟨c, hturn⟩
  · exact ⟨tr', hsame ▸ hturns⟩
  · exact ⟨tr' ++ [()], hturns.snoc trivial hturn⟩

end Others

end Fstest.Fsstress
