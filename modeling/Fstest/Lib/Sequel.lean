import Fstest.Lib.Barrier

/-!
# Programs one after the other

The threads run `P` and then `Q`. A run of both programs is a run of `P` to its end and a run of `Q` from
what it leaves (`reachable_append`), and every run that finishes can be taken apart so if `P` ends at a
barrier (`exists_split`). The only difference is that a thread may still sleep at the last barrier of `P`
while others are in `Q`.
-/

namespace Fstest.Barrier

variable {n : ℕ} {σ α : Type} {exec : Fin n → α → σ → σ} {P Q : Fin n → List (Instr α)} {x : σ}
  {s s' : State n σ α}

/-! ## A run with more to do -/

/-- The state, with `Q` to be done after the rest. -/
def followed (Q : Fin n → List (Instr α)) (s : State n σ α) : State n σ α :=
  { s with rest := fun t => s.rest t ++ Q t }

theorem update_append (f : Fin n → List (Instr α)) (t : Fin n) (r : List (Instr α)) :
    (fun u => Function.update f t r u ++ Q u) = Function.update (fun u => f u ++ Q u) t (r ++ Q t) := by
  funext u
  by_cases hut : u = t
  · subst hut
    rw [Function.update_self, Function.update_self]
  · rw [Function.update_of_ne hut, Function.update_of_ne hut]

theorem step_followed (h : Step exec s s') : Step exec (followed Q s) (followed Q s') := by
  cases h with
  | op t a r hb hr =>
    have hstep : Step exec (followed Q s) _ := .op t a (r ++ Q t) hb (congrArg (· ++ Q t) hr)
    simpa only [followed, update_append] using hstep
  | arrive t r hb hr hc =>
    have hstep : Step exec (followed Q s) _ := .arrive t (r ++ Q t) hb (congrArg (· ++ Q t) hr) hc
    simpa only [followed, update_append] using hstep
  | release t r hb hr hc =>
    have hstep : Step exec (followed Q s) _ := .release t (r ++ Q t) hb (congrArg (· ++ Q t) hr) hc
    simpa only [followed, update_append] using hstep
  | wake t g hb hg => exact .wake (s := followed Q s) t g hb hg

/-- The state, `g` generations later. -/
def later (g : ℕ) (s : State n σ α) : State n σ α :=
  { s with
    blocked := fun t => (s.blocked t).map (· + g)
    generation := s.generation + g }

theorem update_map (g : ℕ) (f : Fin n → Option ℕ) (t : Fin n) (o : Option ℕ) :
    (fun u => (Function.update f t o u).map (· + g)) =
      Function.update (fun u => (f u).map (· + g)) t (o.map (· + g)) := by
  funext u
  by_cases hut : u = t
  · subst hut
    rw [Function.update_self, Function.update_self]
  · rw [Function.update_of_ne hut, Function.update_of_ne hut]

theorem step_later (g : ℕ) (h : Step exec s s') : Step exec (later g s) (later g s') := by
  cases h with
  | op t a r hb hr => exact .op (s := later g s) t a r (by simp [later, hb]) hr
  | arrive t r hb hr hc =>
    have hstep : Step exec (later g s) _ := .arrive t r (by simp [later, hb]) hr hc
    simpa only [later, update_map, Option.map_some] using hstep
  | release t r hb hr hc =>
    have hstep : Step exec (later g s) _ := .release t r (by simp [later, hb]) hr hc
    simpa only [later, Nat.add_right_comm s.generation 1 g] using hstep
  | wake t g' hb hg =>
    have hstep : Step exec (later g s) _ := .wake t (g' + g) (by simp [later, hb])
      fun h => hg (Nat.add_right_cancel h)
    simpa only [later, update_map, Option.map_none] using hstep

theorem Finished.count (h : Finished s) (hsync : Synced P s) : s.count = 0 := by
  rw [hsync.count, Finset.card_eq_zero, Finset.filter_eq_empty_iff]
  intro t _ hc
  rw [Counted, (h t).2] at hc
  cases hc

/-- **A run of both programs**, put together. -/
theorem reachable_append (hn : 0 < n) (h : Reachable exec P x s) (hfin : Finished s)
    (h' : Reachable exec Q s.shared s') :
    Reachable exec (fun t => P t ++ Q t) x (later s.generation s') := by
  have hfirst : Reachable exec (fun t => P t ++ Q t) x (followed Q s) :=
    Relation.ReflTransGen.lift (followed Q) (fun _ _ hs => step_followed hs) _ _ h
  have hsecond : Relation.ReflTransGen (Step exec) (later s.generation (init Q s.shared))
      (later s.generation s') :=
    Relation.ReflTransGen.lift (later s.generation) (fun _ _ hs => step_later s.generation hs) _ _ h'
  have hmiddle : followed Q s = later s.generation (init Q s.shared) := by
    have hrest : (fun t => s.rest t ++ Q t) = Q := by
      funext t
      rw [(hfin t).1, List.nil_append]
    have hblocked : s.blocked = fun _ => none := by
      funext t
      exact (hfin t).2
    rw [followed, hrest, later, init, hblocked, hfin.count (Reachable.synced hn h), Nat.zero_add]
    rfl
  rw [← hmiddle] at hsecond
  exact hfirst.trans hsecond

/-! ## A run taken apart -/

/-- Nothing comes after the last wait. -/
def Closed (l : List (Instr α)) : Prop := ∀ r, r <:+ l → waits r = 0 → r = []

theorem Reachable.suffix (h : Reachable exec P x s) (t : Fin n) : s.rest t <:+ P t := by
  induction h with
  | refl => exact List.suffix_refl _
  | tail _ hs ih =>
    have hcons : ∀ {u : Fin n} {i : Instr α} {r : List (Instr α)} {f : Fin n → List (Instr α)}, f u = i :: r →
        f t <:+ P t → Function.update f u r t <:+ P t := by
      intro u i r f hr hf
      by_cases htu : t = u
      · subst htu
        rw [hr] at hf
        rw [Function.update_self]
        exact (List.suffix_cons i r).trans hf
      · rwa [Function.update_of_ne htu]
    cases hs with
    | op u a r hb hr => exact hcons hr ih
    | arrive u r hb hr hc => exact hcons hr ih
    | release u r hb hr hc => exact hcons hr ih
    | wake u g hb hg => exact ih

/-- Threads with nothing left to do only have to wake up. -/
theorem exists_finished (hwaits : ∀ t u, waits (P t) = waits (P u)) (h : Reachable exec P x s)
    (hrest : ∀ t, s.rest t = []) : ∃ s', Reachable exec P x s' ∧ Finished s' ∧ s'.shared = s.shared := by
  obtain ⟨s', hreach, hstop⟩ := exists_stopped exec s
  have hkept : (∀ t, s'.rest t = []) ∧ s'.shared = s.shared := by
    refine Relation.ReflTransGen.head_induction_on (motive := fun s _ => (∀ t, s.rest t = []) →
      (∀ t, s'.rest t = []) ∧ s'.shared = s.shared) hreach (fun h => ⟨h, rfl⟩) ?_ hrest
    intro s₁ s₂ hs _ ih hnil
    cases hs with
    | op t a r hb hr => simp [hnil t] at hr
    | arrive t r hb hr hc => simp [hnil t] at hr
    | release t r hb hr hc => simp [hnil t] at hr
    | wake t g hb hg => exact ih hnil
  have hreach' : Reachable exec P x s' := Relation.ReflTransGen.trans h hreach
  exact ⟨s', hreach', ((deadlockFree_iff exec P x).mpr hwaits s' hreach').resolve_right hstop, hkept.2⟩

/-- A state of `Q` in which some threads still sleep at the last barrier of `P`, after `W` generations. -/
structure Drowsy (W : ℕ) (s s₂ : State n σ α) : Prop where
  shared : s.shared = s₂.shared
  rest : s.rest = s₂.rest
  count : s.count = s₂.count
  generation : s.generation = s₂.generation + W
  blocked : ∀ t, s.blocked t = (s₂.blocked t).map (· + W) ∨
    s₂.blocked t = none ∧ ∃ g < W, s.blocked t = some g

theorem Drowsy.awake {W : ℕ} {s₂ : State n σ α} (h : Drowsy W s s₂) {t : Fin n} (hb : s.blocked t = none) :
    s₂.blocked t = none := by
  rcases h.blocked t with heq | ⟨hnone, -⟩
  · rw [hb] at heq
    exact Option.map_eq_none_iff.mp heq.symm
  · exact hnone

/-- A step is one of `Q`, or a thread wakes up at last. -/
theorem Drowsy.step {W : ℕ} {s₂ : State n σ α} (h : Drowsy W s s₂) (hs : Step exec s s') :
    ∃ s₂', Relation.ReflTransGen (Step exec) s₂ s₂' ∧ Drowsy W s' s₂' := by
  obtain ⟨hshared, hrest, hcount, hgen, hblocked⟩ := h
  cases hs with
  | op t a r hb hr =>
    have hb₂ := Drowsy.awake ⟨hshared, hrest, hcount, hgen, hblocked⟩ hb
    exact ⟨_, .single (.op t a r hb₂ (hrest ▸ hr)),
      ⟨congrArg (exec t a) hshared, congrArg (Function.update · t r) hrest, hcount, hgen, hblocked⟩⟩
  | arrive t r hb hr hc =>
    have hb₂ := Drowsy.awake ⟨hshared, hrest, hcount, hgen, hblocked⟩ hb
    refine ⟨_, .single (.arrive t r hb₂ (hrest ▸ hr) (hcount ▸ hc)),
      ⟨hshared, congrArg (Function.update · t r) hrest, congrArg (· + 1) hcount, hgen, fun u => ?_⟩⟩
    by_cases hut : u = t
    · subst hut
      simp [hgen]
    · simpa only [Function.update_of_ne hut] using hblocked u
  | release t r hb hr hc =>
    have hb₂ := Drowsy.awake ⟨hshared, hrest, hcount, hgen, hblocked⟩ hb
    exact ⟨_, .single (.release t r hb₂ (hrest ▸ hr) (hcount ▸ hc)),
      ⟨hshared, congrArg (Function.update · t r) hrest, rfl, by simp only [hgen]; omega, hblocked⟩⟩
  | wake t g hb hg =>
    rcases hblocked t with heq | ⟨hnone, g', hg', heq⟩
    · rw [hb] at heq
      obtain ⟨g₂, hb₂, hg₂⟩ := Option.map_eq_some_iff.mp heq.symm
      refine ⟨_, .single (.wake t g₂ hb₂ fun h => hg (by omega)), ⟨hshared, hrest, hcount, hgen, fun u => ?_⟩⟩
      by_cases hut : u = t
      · subst hut
        simp
      · simpa only [Function.update_of_ne hut] using hblocked u
    · refine ⟨s₂, .refl, ⟨hshared, hrest, hcount, hgen, fun u => ?_⟩⟩
      by_cases hut : u = t
      · subst hut
        simp [hnone]
      · simpa only [Function.update_of_ne hut] using hblocked u

/-- A thread that is awake before the last barrier of `P` has to do with `P`. -/
theorem step_of_followed (hne : ∀ t, s.blocked t = none → s.rest t ≠ [])
    (h : Step exec (followed Q s) s') : ∃ s₁, Step exec s s₁ ∧ s' = followed Q s₁ := by
  have hrest : ∀ {t : Fin n} {i : Instr α} {r : List (Instr α)}, s.blocked t = none →
      s.rest t ++ Q t = i :: r → ∃ r₁, s.rest t = i :: r₁ ∧ r = r₁ ++ Q t := by
    intro t i r hb hr
    obtain ⟨j, r₁, hcons⟩ := List.exists_cons_of_ne_nil (hne t hb)
    rw [hcons, List.cons_append] at hr
    obtain ⟨rfl, rfl⟩ := List.cons.inj hr
    exact ⟨r₁, hcons, rfl⟩
  cases h with
  | op t a r hb hr =>
    obtain ⟨r₁, hr₁, rfl⟩ := hrest hb hr
    exact ⟨_, .op t a r₁ hb hr₁, by simp only [followed, update_append]⟩
  | arrive t r hb hr hc =>
    obtain ⟨r₁, hr₁, rfl⟩ := hrest hb hr
    exact ⟨_, .arrive t r₁ hb hr₁ hc, by simp only [followed, update_append]⟩
  | release t r hb hr hc =>
    obtain ⟨r₁, hr₁, rfl⟩ := hrest hb hr
    exact ⟨_, .release t r₁ hb hr₁ hc, by simp only [followed, update_append]⟩
  | wake t g hb hg => exact ⟨_, .wake t g hb hg, rfl⟩

section

variable {W : ℕ}

/-- After the last barrier of `P` all threads are at the start of `Q`, awake or not. -/
theorem exists_drowsy (hn : 0 < n) (hwaits : ∀ t, waits (P t) = W) (hclosed : ∀ t, Closed (P t))
    (h : Reachable exec P x s) (hgen : s.generation = W) :
    ∃ f, Reachable exec P x f ∧ Finished f ∧ Drowsy W (followed Q s) (init Q f.shared) := by
  have hsync := Reachable.synced hn h
  have hpassed : ∀ t, waits (s.rest t) = 0 ∧ ¬ Counted s t := by
    intro t
    have ht := hsync.arrived t
    rw [hwaits t] at ht
    split at ht
    · omega
    · rename_i hc
      exact ⟨by omega, hc⟩
  have hrest : ∀ t, s.rest t = [] := fun t => hclosed t _ (h.suffix t) (hpassed t).1
  obtain ⟨f, hreach, hfin, hshared⟩ :=
    exists_finished (fun t u => (hwaits t).trans (hwaits u).symm) h hrest
  refine ⟨f, hreach, hfin, hshared.symm, ?_, ?_, ?_, fun t => ?_⟩
  · funext t
    change s.rest t ++ Q t = Q t
    rw [hrest t, List.nil_append]
  · change s.count = 0
    rw [hsync.count, Finset.card_eq_zero, Finset.filter_eq_empty_iff]
    exact fun t _ => (hpassed t).2
  · exact hgen.trans (Nat.zero_add W).symm
  · cases hb : s.blocked t with
    | none => exact .inl hb
    | some g =>
      have hold := hsync.old t g hb
      have hne : g ≠ s.generation := fun h => (hpassed t).2 (hb.trans (congrArg some h))
      exact .inr ⟨rfl, g, by omega, hb⟩

/-- In a run of both programs, the threads are in `P`, or `P` has come to its end. -/
theorem Reachable.before_or_after (hn : 0 < n) (hwaits : ∀ t, waits (P t) = W)
    (hclosed : ∀ t, Closed (P t)) (h : Reachable exec (fun t => P t ++ Q t) x s) :
    (∃ s₁, Reachable exec P x s₁ ∧ s₁.generation < W ∧ s = followed Q s₁) ∨
      ∃ s₁ s₂, Reachable exec P x s₁ ∧ Finished s₁ ∧ Reachable exec Q s₁.shared s₂ ∧ Drowsy W s s₂ := by
  have hplace : ∀ s₁ : State n σ α, Reachable exec P x s₁ → s₁.generation ≤ W →
      (∃ s₁', Reachable exec P x s₁' ∧ s₁'.generation < W ∧ followed Q s₁ = followed Q s₁') ∨
      ∃ s₁' s₂, Reachable exec P x s₁' ∧ Finished s₁' ∧ Reachable exec Q s₁'.shared s₂ ∧
        Drowsy W (followed Q s₁) s₂ := by
    intro s₁ hreach hle
    rcases Nat.lt_or_eq_of_le hle with hlt | heq
    · exact .inl ⟨s₁, hreach, hlt, rfl⟩
    · obtain ⟨f, hf, hfin, hdrowsy⟩ := exists_drowsy (Q := Q) hn hwaits hclosed hreach heq
      exact .inr ⟨f, _, hf, hfin, .refl, hdrowsy⟩
  induction h with
  | refl => exact hplace (init P x) .refl (Nat.zero_le W)
  | @tail s s' _ hs ih =>
    rcases ih with ⟨s₁, hreach, hlt, rfl⟩ | ⟨s₁, s₂, hreach, hfin, hreach₂, hdrowsy⟩
    · have hsync := Reachable.synced hn hreach
      have hne : ∀ t, s₁.blocked t = none → s₁.rest t ≠ [] := by
        intro t hb hnil
        have ht := hsync.arrived t
        rw [hwaits t, hnil, waits, if_neg (by simp [Counted, hb])] at ht
        omega
      obtain ⟨s₁', hs₁, rfl⟩ := step_of_followed hne hs
      have hreach' : Reachable exec P x s₁' := hreach.tail hs₁
      have hgen : s₁'.generation ≤ W := by
        cases hs₁ with
        | op | arrive | wake => exact hlt.le
        | release => exact hlt
      exact hplace s₁' hreach' hgen
    · obtain ⟨s₂', hs₂, hdrowsy'⟩ := hdrowsy.step hs
      exact .inr ⟨s₁, s₂', hreach, hfin, Relation.ReflTransGen.trans hreach₂ hs₂, hdrowsy'⟩

/-- **A run of both programs, taken apart.** -/
theorem exists_split (hn : 0 < n) (hwaits : ∀ t, waits (P t) = W) (hclosed : ∀ t, Closed (P t))
    (h : Reachable exec (fun t => P t ++ Q t) x s) (hfin : Finished s) :
    ∃ s₁ s₂, Reachable exec P x s₁ ∧ Finished s₁ ∧ Reachable exec Q s₁.shared s₂ ∧ Finished s₂ ∧
      s₂.shared = s.shared := by
  rcases h.before_or_after hn hwaits hclosed with ⟨s₁, hreach, hlt, rfl⟩ | ⟨s₁, s₂, hreach, hfin₁, hreach₂, hdrowsy⟩
  · have hfin₁ : Finished s₁ := fun t => ⟨(List.append_eq_nil_iff.mp (hfin t).1).1, (hfin t).2⟩
    have hpassed := (Reachable.synced hn hreach).waits_eq hfin₁ ⟨0, hn⟩
    rw [hwaits] at hpassed
    omega
  · exact ⟨s₁, s₂, hreach, hfin₁, hreach₂, fun t => ⟨hdrowsy.rest ▸ (hfin t).1, hdrowsy.awake (hfin t).2⟩,
      hdrowsy.shared.symm⟩

end

/-! ## Rounds -/

theorem waits_pos_of_mem {l : List (Instr α)} (h : .wait ∈ l) : 0 < waits l := by
  induction l with
  | nil => cases h
  | cons i l ih =>
    cases i with
    | wait => exact Nat.succ_pos _
    | op a => exact ih ((List.mem_cons.mp h).resolve_left fun h => by cases h)

/-- Programs of rounds end at a barrier. -/
theorem closed_rounds (bodies : List (List α)) : Closed (bodies.flatMap round) := by
  intro r hr hzero
  rcases List.eq_nil_or_concat' bodies with rfl | ⟨bs, b, rfl⟩
  · exact List.suffix_nil.mp hr
  · have hlast : (bs ++ [b]).flatMap round = (bs.flatMap round ++ (.wait :: b.map .op)) ++ [.wait] := by
      rw [List.flatMap_append, List.flatMap_singleton, round, List.append_assoc]
    rw [hlast, List.suffix_concat_iff] at hr
    rcases hr with rfl | ⟨r', rfl, -⟩
    · rfl
    · have hpos := waits_pos_of_mem (List.mem_append_right r' (List.mem_singleton_self (Instr.wait (α := α))))
      omega

/-- All threads can be awake after the first barrier before anything is done. -/
theorem exists_after_wait (exec : Fin n → α → σ → σ) (hn : 0 < n) (x : σ) :
    ∃ s, Reachable exec (fun t => .wait :: Q t) x s ∧ s.shared = x ∧ s.rest = Q ∧ ∀ t, s.blocked t = none := by
  obtain ⟨s, hreach, hstop⟩ := exists_stopped exec (init (fun _ : Fin n => [Instr.wait]) x)
  have hfin := ((deadlockFree_iff exec _ x).mpr (fun _ _ => rfl) s hreach).resolve_right hstop
  have hshared : s.shared = x := by
    clear hstop hfin
    induction hreach with
    | refl => rfl
    | @tail s _ hreach hs ih =>
      cases hs with
      | op t a r hb hr =>
        have hmem := (Reachable.suffix hreach t).subset (hr ▸ List.mem_cons_self)
        cases List.mem_singleton.mp hmem
      | arrive | release | wake => exact ih
  refine ⟨_, reachable_append hn hreach hfin .refl, hshared, rfl, fun t => rfl⟩

/-- A thread that is awake can do its next operation. -/
theorem Reachable.exists_op {prog : Fin n → List (Instr α)} {x : σ} {t : Fin n} {a : α}
    {r : List (Instr α)} (h : Reachable exec prog x s) (hawake : s.blocked t = none)
    (hr : s.rest t = .op a :: r) : ∃ s', Reachable exec prog x s' ∧ s'.shared = exec t a s.shared ∧
      s'.blocked t = none ∧ s'.rest t = r :=
  ⟨_, Relation.ReflTransGen.tail h (.op t a r hawake hr), rfl, hawake, Function.update_self ..⟩

/-! ## The same programs on another store -/

variable {σ' : Type} {exec' : Fin n → α → σ' → σ'} {x' : σ'}
  {R : (Fin n → List (Instr α)) → σ → σ' → Prop}

/-- **A simulation of stores** that each operation keeps, whatever the threads have still to do. -/
theorem Reachable.simulate (h : Reachable exec P x s) (hinit : R P x x')
    (hop : ∀ f y y' t a r, R f y y' → f t = .op a :: r →
      R (Function.update f t r) (exec t a y) (exec' t a y'))
    (hwait : ∀ f y y' t r, R f y y' → f t = .wait :: r → R (Function.update f t r) y y') :
    ∃ y', Reachable exec' P x'
        { shared := y', rest := s.rest, blocked := s.blocked, count := s.count, generation := s.generation } ∧
      R s.rest s.shared y' := by
  induction h with
  | refl => exact ⟨x', .refl, hinit⟩
  | tail _ hs ih =>
    obtain ⟨y', hreach, hR⟩ := ih
    cases hs with
    | op t a r hb hr => exact ⟨exec' t a y', hreach.tail (.op t a r hb hr), hop _ _ _ t a r hR hr⟩
    | arrive t r hb hr hc => exact ⟨y', hreach.tail (.arrive t r hb hr hc), hwait _ _ _ t r hR hr⟩
    | release t r hb hr hc => exact ⟨y', hreach.tail (.release t r hb hr hc), hwait _ _ _ t r hR hr⟩
    | wake t g hb hg => exact ⟨y', hreach.tail (.wake t g hb hg), hR⟩

end Fstest.Barrier
