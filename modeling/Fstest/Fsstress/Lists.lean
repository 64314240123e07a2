import Fstest.Lib.Checked
import Fstest.Lib.Path
import Mathlib.Algebra.Group.Int.Defs
import Mathlib.Algebra.GroupWithZero.Nat
import Mathlib.Data.Int.Notation
import Mathlib.Logic.Function.Basic

/-!
# The entry lists of an fsstress thread

A thread keeps what it has made in six lists, one for each type. An entry has the id that its name is
made of and the id of its parent directory, which is negative if that is the base directory. Paths are
relative to the base. That the id of a parent is smaller than that of the entry, and both smaller than
the next one, is part of the data, so the path of an entry (`fentToName`) is a recursion that ends.
-/

namespace Fstest.Fsstress

inductive Ft where
  | dir
  | reg
  | sym
  | chr
  | blk
  | sock
  deriving DecidableEq, Repr

/-- The first letter of the names of a type. -/
def Ft.tag : Ft → Char
  | .dir => 'd'
  | .reg => 'f'
  | .sym => 'l'
  | .chr => 'c'
  | .blk => 'r'
  | .sock => 's'

def ftTypes : List Ft := [.dir, .reg, .sym, .chr, .blk, .sock]

/-- Everything that is no directory. -/
def leafTypes : List Ft := [.reg, .sym, .chr, .blk, .sock]

/-- `id as i64`. -/
def asI64 (id : ℕ) : ℤ := (id : ℤ).bmod (2 ^ 64)

theorem asI64_le (id : ℕ) : asI64 id ≤ id := by
  unfold asI64
  rw [Int.bmod_def]
  omega

theorem asI64_of_lt {id : ℕ} (h : id < 2 ^ 63) : asI64 id = id := by
  unfold asI64
  rw [Int.bmod_def]
  omega

structure Fent where
  id : ℕ
  parent : ℤ
  parent_lt : parent < id

abbrev Lists := Ft → List Fent

namespace Lists

variable (l : Lists)

def dirById (id : ℕ) : Option Fent := (l .dir).find? (·.id == id)

theorem id_of_dirById {l : Lists} {id : ℕ} {p : Fent} (h : l.dirById id = some p) : p.id = id := by
  have := List.find?_some h
  exact beq_iff_eq.mp this

/-- `format!("{tag}{id:x}")`. -/
def name (ft : Ft) (id : ℕ) : String := String.ofList (ft.tag :: Nat.toDigits 16 id)

theorem name_injective {ft ft' : Ft} {id id' : ℕ} (h : name ft id = name ft' id') :
    ft = ft' ∧ id = id' := by
  obtain ⟨htag, hdigits⟩ := List.cons.inj (String.ofList_injective h)
  refine ⟨?_, toDigits_injective (by decide) (by decide) hdigits⟩
  cases ft <;> cases ft' <;> first | rfl | cases htag

theorem name_ne_empty (ft : Ft) (id : ℕ) : name ft id ≠ "" := by
  intro h
  exact absurd (congrArg String.toList h) (by rw [name, String.toList_ofList]; exact nofun)

/-- The path of an entry. An entry whose parent is not in the list is taken to be in the base. -/
def fentToName (ft : Ft) (fent : Fent) : Path :=
  if _hp : 0 ≤ fent.parent then
    match _hd : l.dirById fent.parent.toNat with
    | some p => fentToName .dir p ++ [name ft fent.id]
    | none => [name ft fent.id]
  else [name ft fent.id]
termination_by fent.id
decreasing_by
  have hid := id_of_dirById _hd
  have hlt := fent.parent_lt
  omega

theorem fentToName_base {l : Lists} {ft : Ft} {fent : Fent} (h : fent.parent < 0) :
    l.fentToName ft fent = [name ft fent.id] := by
  rw [fentToName, dif_neg (by omega)]

theorem fentToName_child {l : Lists} {ft : Ft} {fent p : Fent} (h : 0 ≤ fent.parent)
    (hp : l.dirById fent.parent.toNat = some p) :
    l.fentToName ft fent = l.fentToName .dir p ++ [name ft fent.id] := by
  rw [fentToName, dif_pos h]
  split
  · rename_i q hq
    rw [hp] at hq
    cases hq
    rfl
  · rename_i hq
    rw [hp] at hq
    cases hq

theorem fentToName_lost {l : Lists} {ft : Ft} {fent : Fent}
    (hp : l.dirById fent.parent.toNat = none) : l.fentToName ft fent = [name ft fent.id] := by
  rw [fentToName]
  split
  · split
    · rename_i q hq
      rw [hp] at hq
      cases hq
    · rfl
  · rfl

/-- The last component of a path has the type and the id of the entry. -/
theorem fentToName_last (l : Lists) (ft : Ft) (fent : Fent) :
    ∃ d, l.fentToName ft fent = d ++ [name ft fent.id] := by
  by_cases h : 0 ≤ fent.parent
  · cases hp : l.dirById fent.parent.toNat with
    | none => exact ⟨[], fentToName_lost hp⟩
    | some p => exact ⟨_, fentToName_child h hp⟩
  · exact ⟨[], fentToName_base (by omega)⟩

/-- An entry of the lists. -/
structure Picked where
  ft : Ft
  fent : Fent
  mem : fent ∈ l ft

/-- Entry `x` of the lists of the given types, one list after the other. -/
def pick : List Ft → ℕ → Option (Picked l)
  | [], _ => none
  | ft :: types, x =>
    if h : x < (l ft).length then some ⟨ft, (l ft)[x], List.getElem_mem h⟩
    else pick types (x - (l ft).length)

def getFent (types : List Ft) (r : ℕ) : Option (Picked l) :=
  let totalsum := (types.map fun ft => (l ft).length).sum
  if totalsum = 0 then none else l.pick types (r % totalsum)

theorem pick_ft {l : Lists} {types : List Ft} {x : ℕ} {e : l.Picked}
    (h : l.pick types x = some e) : e.ft ∈ types := by
  induction types generalizing x with
  | nil => cases h
  | cons ft types ih =>
    rw [pick] at h
    split at h
    · cases h
      exact List.mem_cons_self
    · exact List.mem_cons_of_mem _ (ih h)

theorem getFent_ft {l : Lists} {types : List Ft} {r : ℕ} {e : l.Picked}
    (h : l.getFent types r = some e) : e.ft ∈ types := by
  rw [getFent] at h
  split at h
  · cases h
  · exact pick_ft h

/-- The lists with one more entry. -/
def push (ft : Ft) (fent : Fent) : Lists := Function.update l ft (l ft ++ [fent])

/-- The lists without the entries of an id. -/
def without (ft : Ft) (id : ℕ) : Lists := Function.update l ft ((l ft).filter (·.id != id))

/-- All entries with their types. -/
def entries : List (Ft × Fent) := ftTypes.flatMap fun ft => (l ft).map (ft, ·)

end Lists

structure ThreadState where
  /-- What the generator is going to return. -/
  rng : ℕ → UInt32
  nameseq : ℕ
  lists : Lists
  errors : ℕ
  ids_lt : ∀ ft, ∀ f ∈ lists ft, f.id < nameseq

namespace ThreadState

variable (st : ThreadState)

def new (rng : ℕ → UInt32) : ThreadState where
  rng := rng
  nameseq := 0
  lists := fun _ => []
  errors := 0
  ids_lt := nofun

def draw : ℕ × ThreadState := ((st.rng 0).toNat, { st with rng := fun n => st.rng (n + 1) })

def reportErr : ThreadState := { st with errors := st.errors + 1 }

/-- A name that `generate_name` has made up, and the state after it. -/
structure Generated where
  path : Path
  id : ℕ
  parid : ℤ
  parid_lt : parid < id
  st : ThreadState
  id_lt : id < st.nameseq

/-- The name is in the directory `parent`, or in the base. It panics if the ids have run out. -/
def generateName (parent : Option st.lists.Picked) (ft : Ft) : Option Generated :=
  if st.nameseq + 1 < u64Size then
    some {
      path := match parent with
        | some fep => (if fep.ft = .dir then st.lists.fentToName .dir fep.fent else []) ++
            [Lists.name ft st.nameseq]
        | none => [Lists.name ft st.nameseq]
      id := st.nameseq
      parid := match parent with
        | some fep => asI64 fep.fent.id
        | none => -1
      parid_lt := match parent with
        | some fep => Int.lt_of_le_of_lt (asI64_le _) (Int.ofNat_lt.mpr (st.ids_lt _ _ fep.mem))
        | none => Int.lt_of_lt_of_le (Int.negSucc_lt_zero 0) (Int.natCast_nonneg _)
      st := { st with
        nameseq := st.nameseq + 1
        ids_lt := fun ft f hf => Nat.lt_succ_of_lt (st.ids_lt ft f hf) }
      id_lt := Nat.lt_succ_self _ }
  else none

end ThreadState

namespace ThreadState

variable {st : ThreadState} {parent : Option st.lists.Picked} {ft : Ft} {g : Generated}

/-- A name is made of the next id. -/
theorem generateName_some (h : st.generateName parent ft = some g) :
    g.id = st.nameseq ∧ g.st.nameseq = st.nameseq + 1 ∧ g.st.lists = st.lists := by
  unfold generateName at h
  split at h
  · cases h
    exact ⟨rfl, rfl, rfl⟩
  · cases h

theorem generateName_base (h : st.generateName none ft = some g) :
    g.path = [Lists.name ft g.id] ∧ g.parid = -1 := by
  unfold generateName at h
  split at h
  · cases h
    exact ⟨rfl, rfl⟩
  · cases h

theorem generateName_in {e : st.lists.Picked} (he : e.ft = .dir)
    (h : st.generateName (some e) ft = some g) :
    g.path = st.lists.fentToName .dir e.fent ++ [Lists.name ft g.id] ∧
      g.parid = asI64 e.fent.id := by
  unfold generateName at h
  split at h
  · cases h
    dsimp only
    rw [if_pos he]
    exact ⟨rfl, rfl⟩
  · cases h

theorem generateName_last (hdir : ∀ e, parent = some e → e.ft = .dir)
    (h : st.generateName parent ft = some g) : ∃ d, g.path = d ++ [Lists.name ft g.id] := by
  cases parent with
  | none => exact ⟨[], (generateName_base h).1⟩
  | some e => exact ⟨_, (generateName_in (hdir e rfl) h).1⟩

end ThreadState

/-- `add_fent` with what `generate_name` returned, in a state that has not lost ids since. -/
def ThreadState.addFent (st : ThreadState) (ft : Ft) (g : Generated) (h : g.id < st.nameseq) :
    ThreadState :=
  { st with
    lists := st.lists.push ft ⟨g.id, g.parid, g.parid_lt⟩
    ids_lt := by
      intro ft' f hf
      unfold Lists.push at hf
      by_cases heq : ft' = ft
      · subst heq
        rw [Function.update_self, List.mem_append, List.mem_singleton] at hf
        rcases hf with hf | rfl
        · exact st.ids_lt _ _ hf
        · exact h
      · rw [Function.update_of_ne heq] at hf
        exact st.ids_lt _ _ hf }

/-- The entries of an id leave their list. -/
def ThreadState.removeFent (st : ThreadState) (ft : Ft) (id : ℕ) : ThreadState :=
  { st with
    lists := st.lists.without ft id
    ids_lt := by
      intro ft' f hf
      unfold Lists.without at hf
      by_cases heq : ft' = ft
      · subst heq
        rw [Function.update_self] at hf
        exact st.ids_lt _ _ (List.mem_of_mem_filter hf)
      · rw [Function.update_of_ne heq] at hf
        exact st.ids_lt _ _ hf }

end Fstest.Fsstress
