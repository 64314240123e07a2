import Mathlib.Algebra.BigOperators.Group.List.Basic
import Mathlib.Algebra.GroupWithZero.Nat
import Mathlib.Algebra.Order.Group.Nat
import Mathlib.Data.Multiset.Basic
import Mathlib.Data.Multiset.Filter
import Mathlib.Order.Bounds.Basic
import Mathlib.Order.Lattice.Nat
import Mathlib.Order.WithBot

/-!
# What fsmark keeps of the times of a call

A `Stat` has the least and the longest time and the total. `merge` combines two of them, and takes a least
time 0 for an unset one on both sides; with it they are a commutative monoid. `add` puts in one sample, and
takes it for the least if it is 0. That is what `merge` does only if no sample is 0 or all are
(`orderFree_iff`).
-/

namespace Fstest.Fsmark

@[ext] structure Stat where
  min : ℕ := 0
  max : ℕ := 0
  total : ℕ := 0
  deriving DecidableEq, Repr

namespace Stat

def add (s : Stat) (v : ℕ) : Stat where
  total := s.total + v
  max := if s.max < v then v else s.max
  min := if s.min = 0 ∨ v < s.min then v else s.min

def merge (s o : Stat) : Stat where
  total := s.total + o.total
  max := if s.max < o.max then o.max else s.max
  min := if s.min = 0 ∨ (0 < o.min ∧ o.min < s.min) then o.min else s.min

/-- The samples of a thread, one after the other. -/
def collect (l : List ℕ) : Stat := l.foldl add {}

/-- The threads of an iteration, as `aggregate` combines them. -/
def combine (ts : List (List ℕ)) : Stat := (ts.map collect).foldl merge {}

end Stat

open Stat

/-- The least time that a `min` stands for. -/
def low (v : ℕ) : WithTop ℕ := if v = 0 then ⊤ else .some v

theorem low_injective : Function.Injective low := by
  intro v w h
  simp only [low] at h
  split at h <;> split at h
  · omega
  · exact absurd h (by simp)
  · exact absurd h (by simp)
  · exact WithTop.coe_injective h

variable {s o : Stat} {v : ℕ} {l : List ℕ} {ts : List (List ℕ)}

theorem low_merge (s o : Stat) : low (s.merge o).min = low s.min ⊓ low o.min := by
  simp only [merge, low]
  by_cases hs : s.min = 0
  · simp [hs]
  · by_cases ho : o.min = 0
    · simp [hs, ho]
    · by_cases hlt : o.min < s.min
      · simp [hs, ho, hlt, Nat.pos_of_ne_zero ho, hlt.le]
      · simp [hs, ho, hlt, not_lt.mp hlt]

theorem max_merge (s o : Stat) : (s.merge o).max = s.max ⊔ o.max := by
  simp only [merge]
  split <;> omega

/-- Two values are the same if their parts are. -/
theorem Stat.ext_low (hmin : low s.min = low o.min) (hmax : s.max = o.max) (htotal : s.total = o.total) :
    s = o :=
  Stat.ext (low_injective hmin) hmax htotal

instance : Add Stat := ⟨merge⟩

instance : Zero Stat := ⟨{}⟩

instance : AddCommMonoid Stat where
  add_assoc a b c := by
    apply ext_low
    · change low ((a.merge b).merge c).min = low (a.merge (b.merge c)).min
      rw [low_merge, low_merge, low_merge, low_merge, inf_assoc]
    · change ((a.merge b).merge c).max = (a.merge (b.merge c)).max
      rw [max_merge, max_merge, max_merge, max_merge, sup_assoc]
    · exact Nat.add_assoc a.total b.total c.total
  zero_add a := by
    apply ext_low
    · exact (low_merge {} a).trans (top_inf_eq _)
    · exact (max_merge {} a).trans (Nat.zero_max _)
    · exact Nat.zero_add a.total
  add_zero a := by
    apply ext_low
    · exact (low_merge a {}).trans (inf_top_eq _)
    · exact (max_merge a {}).trans (Nat.max_zero _)
    · exact Nat.add_zero a.total
  add_comm a b := by
    apply ext_low
    · change low (a.merge b).min = low (b.merge a).min
      rw [low_merge, low_merge, inf_comm]
    · change (a.merge b).max = (b.merge a).max
      rw [max_merge, max_merge, sup_comm]
    · exact Nat.add_comm a.total b.total
  nsmul := nsmulRec

theorem add_eq_merge (s o : Stat) : s + o = s.merge o := rfl

@[simp] theorem low_add (s o : Stat) : low (s + o).min = low s.min ⊓ low o.min := low_merge s o

@[simp] theorem max_add (s o : Stat) : (s + o).max = s.max ⊔ o.max := max_merge s o

@[simp] theorem total_add (s o : Stat) : (s + o).total = s.total + o.total := rfl

/-- One sample. -/
def single (v : ℕ) : Stat := ⟨v, v, v⟩

/-- **Where `add` and `merge` agree**: unless a sample 0 comes after one that is not. -/
theorem add_eq_add_single (h : v ≠ 0 ∨ s.min = 0) : s.add v = s + single v := by
  have hmin : (s.min = 0 ∨ v < s.min) ↔ s.min = 0 ∨ (0 < v ∧ v < s.min) := by omega
  exact Stat.ext (if_congr hmin rfl rfl) rfl rfl

/-- The samples have no 0, or are all 0. -/
def Uniform (l : List ℕ) : Prop := 0 ∉ l ∨ ∀ v ∈ l, v = 0

theorem foldl_add_eq (hl : Uniform l) (hs : 0 ∉ l ∨ s.min = 0) : l.foldl add s = s + (l.map single).sum := by
  induction l generalizing s with
  | nil => exact (add_zero s).symm
  | cons v l ih =>
    have hv : v ≠ 0 ∨ s.min = 0 := by
      refine hs.imp_left fun h hzero => h ?_
      rw [hzero]
      exact List.mem_cons_self ..
    have htail : Uniform l :=
      hl.imp (fun h hmem => h (List.mem_cons_of_mem _ hmem)) fun h w hw => h w (List.mem_cons_of_mem _ hw)
    have hnext : 0 ∉ l ∨ (s + single v).min = 0 := by
      rcases hl with hfree | hzero
      · exact .inl fun hmem => hfree (List.mem_cons_of_mem _ hmem)
      · have hv0 : v = 0 := hzero v (List.mem_cons_self ..)
        refine hs.imp (fun h => absurd (hv0 ▸ List.mem_cons_self ..) h) fun hs0 => ?_
        apply low_injective
        rw [low_add, hs0, hv0]
        exact inf_idem _
    rw [List.foldl_cons, add_eq_add_single hv, ih htail hnext, List.map_cons, List.sum_cons, add_assoc]

theorem collect_eq (hl : Uniform l) : collect l = (l.map single).sum :=
  (foldl_add_eq hl (.inr rfl)).trans (zero_add _)

theorem foldl_merge_eq (l : List Stat) (s : Stat) : l.foldl merge s = s + l.sum := by
  induction l generalizing s with
  | nil => exact (add_zero s).symm
  | cons o l ih => rw [List.foldl_cons, ih, ← add_eq_merge, List.sum_cons, add_assoc]

theorem Uniform.of_mem_flatten (h : Uniform ts.flatten) (hl : l ∈ ts) : Uniform l :=
  h.imp (fun h hmem => h (List.mem_flatten_of_mem hl hmem)) fun h v hv => h v (List.mem_flatten_of_mem hl hv)

/-- What the threads' samples come to if `add` does what `merge` does. -/
theorem combine_eq (h : Uniform ts.flatten) : combine ts = (ts.flatten.map single).sum := by
  have hcollect : ts.map collect = ts.map fun l => (l.map single).sum :=
    List.map_congr_left fun l hl => collect_eq (h.of_mem_flatten hl)
  rw [combine, foldl_merge_eq, hcollect]
  change 0 + _ = _
  rw [zero_add, List.map_flatten, List.sum_flatten, List.map_map]
  rfl

/-! ## Positive samples -/

/-- `s` has the extremes of the samples, which are not 0. -/
structure Extremes (l : List ℕ) (s : Stat) : Prop where
  isLeast : IsLeast {v | v ∈ l} s.min
  isGreatest : IsGreatest {v | v ∈ l} s.max

theorem Extremes.single (v : ℕ) : Extremes [v] (single v) where
  isLeast := by simp [Fsmark.single]
  isGreatest := by simp [Fsmark.single]

theorem min_add (hs : 0 < s.min) (ho : 0 < o.min) : (s + o).min = s.min ⊓ o.min := by
  rw [add_eq_merge, merge]
  dsimp only
  split <;> omega

theorem Extremes.add {l' : List ℕ} (hs : Extremes l s) (ho : Extremes l' o) (hl : ∀ v ∈ l, 0 < v)
    (hl' : ∀ v ∈ l', 0 < v) : Extremes (l ++ l') (s + o) where
  isLeast := by
    rw [min_add (hl _ hs.isLeast.1) (hl' _ ho.isLeast.1)]
    simpa [Set.union_def] using hs.isLeast.union ho.isLeast
  isGreatest := by
    rw [max_add]
    simpa [Set.union_def] using hs.isGreatest.union ho.isGreatest

theorem extremes_sum (hne : l ≠ []) (hl : ∀ v ∈ l, 0 < v) : Extremes l (l.map single).sum := by
  induction l with
  | nil => exact absurd rfl hne
  | cons v l ih =>
    rw [List.map_cons, List.sum_cons]
    by_cases hnil : l = []
    · subst hnil
      rw [List.map_nil, List.sum_nil, add_zero]
      exact Extremes.single v
    · exact (Extremes.single v).add (ih hnil fun w hw => hl w (List.mem_cons_of_mem _ hw))
        (fun w hw => hl w (List.mem_cons.mpr (.inl (List.mem_singleton.mp hw))))
        fun w hw => hl w (List.mem_cons_of_mem _ hw)

theorem total_sum (l : List ℕ) : (l.map single).sum.total = l.sum := by
  induction l with
  | nil => rfl
  | cons v l ih => rw [List.map_cons, List.sum_cons, List.sum_cons, total_add, ih, single]

/-- What the threads' samples come to if no call has taken less than a microsecond. -/
theorem combine_extremes (hne : ts.flatten ≠ []) (hpos : ∀ v ∈ ts.flatten, 0 < v) :
    Extremes ts.flatten (combine ts) ∧ (combine ts).total = ts.flatten.sum := by
  rw [combine_eq (.inl fun hzero => absurd (hpos 0 hzero) (lt_irrefl 0))]
  exact ⟨extremes_sum hne hpos, total_sum _⟩

/-! ## The order of the samples -/

/-- All ways to split the samples among threads and to order them give the same. -/
def OrderFree (M : Multiset ℕ) : Prop :=
  ∀ ts ts' : List (List ℕ), (ts.flatten : Multiset ℕ) = M → (ts'.flatten : Multiset ℕ) = M →
    combine ts = combine ts'

theorem OrderFree.of_uniform {M : Multiset ℕ} (h : 0 ∉ M ∨ ∀ v ∈ M, v = 0) : OrderFree M := by
  intro ts ts' hts hts'
  subst hts
  have hperm : ts'.flatten.Perm ts.flatten := Multiset.coe_eq_coe.mp hts'
  have huniform : Uniform ts.flatten := by simpa [Uniform] using h
  have huniform' : Uniform ts'.flatten := by simpa [Uniform, hperm.mem_iff] using h
  rw [combine_eq huniform, combine_eq huniform']
  exact ((hperm.map single).sum_eq).symm

theorem combine_singleton (l : List ℕ) : combine [l] = collect l := by
  rw [combine, foldl_merge_eq, List.map_singleton, List.sum_singleton]
  exact zero_add _

/-- A sample 0 at the end. -/
theorem min_collect_snoc_zero (l : List ℕ) : (collect (l ++ [0])).min = 0 := by
  rw [collect, List.foldl_append, List.foldl_cons, List.foldl_nil]
  change (if _ ∨ 0 < _ then 0 else _) = 0
  split <;> omega

/-- A sample that is not 0 at the end. -/
theorem min_collect_snoc (l : List ℕ) (hv : v ≠ 0) : (collect (l ++ [v])).min ≠ 0 := by
  rw [collect, List.foldl_append, List.foldl_cons, List.foldl_nil]
  change (if _ then v else _) ≠ 0
  split <;> omega

/-- **The statistics are independent of the order and of the threads** if no call has taken less than a
microsecond, or all have, and in no other case. -/
theorem orderFree_iff (M : Multiset ℕ) : OrderFree M ↔ 0 ∉ M ∨ ∀ v ∈ M, v = 0 := by
  refine ⟨fun hfree => ?_, OrderFree.of_uniform⟩
  by_contra hmixed
  rw [not_or, not_not, not_forall] at hmixed
  obtain ⟨hzero, v, hv⟩ := hmixed
  obtain ⟨hmem, hv0⟩ := Classical.not_imp.mp hv
  -- the same samples, with the one at the end and with the other
  have hends : ∀ w ∈ M, ∃ l : List ℕ, ((l ++ [w] : List ℕ) : Multiset ℕ) = M := by
    intro w hw
    obtain ⟨l, hl⟩ := Quot.exists_rep (M.erase w)
    refine ⟨l, ?_⟩
    rw [← Multiset.cons_erase hw, ← hl]
    exact Multiset.coe_eq_coe.mpr (List.perm_append_singleton w l)
  obtain ⟨l, hl⟩ := hends 0 hzero
  obtain ⟨l', hl'⟩ := hends v hmem
  have heq := hfree [l ++ [0]] [l' ++ [v]] (by simpa using hl) (by simpa using hl')
  rw [combine_singleton, combine_singleton] at heq
  exact min_collect_snoc l' hv0 (by rw [← heq, min_collect_snoc_zero])

/-- The samples 0 and 5. -/
theorem order_matters :
    ¬ OrderFree (([0, 5] : List ℕ) : Multiset ℕ) ∧ combine [[0, 5]] = ⟨5, 5, 5⟩ ∧
      combine [[5, 0]] = ⟨0, 5, 5⟩ ∧ combine [[5], [0]] = ⟨5, 5, 5⟩ := by
  refine ⟨fun hfree => ?_, rfl, rfl, rfl⟩
  have heq := hfree [[0, 5]] [[5, 0]] rfl (Multiset.coe_eq_coe.mpr (List.Perm.swap 0 5 []))
  exact absurd heq (by decide)

end Fstest.Fsmark
