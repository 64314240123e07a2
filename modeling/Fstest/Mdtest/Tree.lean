import Fstest.Mdtest.Params

/-!
# The walks of mdtest over its tree

`createRemoveTree` makes (or removes) the directories of the skeleton, `createRemoveItems` makes
(or removes) the items of a rank in them. Each is the list of the paths it comes to, in order.
`itemRange` looks at the stonewall timer after every item; the answers come from a clock, one for
each look.
-/

namespace Fstest.Mdtest

/-- The answers to the looks at the stonewall timer: whether it has expired. -/
abbrev Clock := ℕ → Bool

structure Progress where
  itemsStart : ℕ
  itemsDone : ℕ
  itemsPerDir : ℕ
  stoneWallTimer : ℕ
  /-- The number of looks at the timer so far. -/
  looks : ℕ

namespace Params

variable (p : Params)

def treeDir (n : ℕ) : String := "mdtest_tree." ++ toString n

/-- The loop of `item_range`, with `left` items to go from item `i` of the directory on. -/
def itemLoop (clock : Clock) (item : ℕ → Path) : ℕ → ℕ → Progress → List Path × Progress
  | 0, _, pr => ([], { pr with itemsDone := pr.itemsPerDir })
  | left + 1, i, pr =>
    let pr := { pr with itemsDone := i + 1 }
    if 0 < pr.stoneWallTimer then
      if clock pr.looks then ([item i], { pr with looks := pr.looks + 1 })
      else
        let (rest, pr') := itemLoop clock item left (i + 1) { pr with looks := pr.looks + 1 }
        (item i :: rest, pr')
    else
      let (rest, pr') := itemLoop clock item left (i + 1) pr
      (item i :: rest, pr')

def itemRange (clock : Clock) (rank : ℕ) (dirs create : Bool) (path : Path) (start : ℕ)
    (pr : Progress) : List Path × Progress :=
  let namePrefix := if create then p.itemPrefix rank 0 else p.itemPrefix rank 3
  itemLoop clock (fun i => path ++ [itemName dirs namePrefix (start + i)])
    (pr.itemsPerDir - pr.itemsStart) pr.itemsStart pr

/-- `create_remove_items` below the root, where `left` levels are left: the depth is
`p.depth + 1 - left`. -/
def createRemoveBelow (clock : Clock) (rank : ℕ) (dirs create : Bool) :
    ℕ → Path → ℕ → Progress → List Path × Progress
  | 0, _, _, pr => ([], pr)
  | left + 1, path, dirNum, pr =>
    (List.range p.branchFactor).foldl (fun (acc, pr) i =>
      let sub := path ++ [treeDir (dirNum + i)]
      let (here, pr) :=
        if !p.leafOnly || left == 0 then
          p.itemRange clock rank dirs create sub ((dirNum + i) * pr.itemsPerDir) pr
        else ([], pr)
      let (below, pr) := createRemoveBelow clock rank dirs create left sub
        ((dirNum + i) * p.branchFactor + 1) pr
      (acc ++ here ++ below, pr)) ([], pr)

/-- `create_remove_items` at depth 0, as its callers call it. -/
def createRemoveItems (clock : Clock) (rank : ℕ) (dirs create : Bool) (path : Path)
    (pr : Progress) : List Path × Progress :=
  let (here, pr) :=
    if !p.leafOnly || p.depth == 0 then p.itemRange clock rank dirs create path 0 pr else ([], pr)
  let (below, pr) :=
    if 0 < p.depth then p.createRemoveBelow clock rank dirs create p.depth path 1 pr else ([], pr)
  (here ++ below, pr)

/-- `create_remove_tree` below the root: a directory comes before those in it when they are
made, and after them when they are removed. -/
def treeBelow (create : Bool) : ℕ → Path → ℕ → List Path
  | 0, _, _ => []
  | left + 1, parent, dirNum => (List.range p.branchFactor).flatMap fun i =>
      let sub := parent ++ [treeDir (dirNum + i)]
      let below := treeBelow create left sub (p.branchFactor * (dirNum + i) + 1)
      if create then sub :: below else below ++ [sub]

/-- `create_remove_tree` at depth 0, as its callers call it. -/
def createRemoveTree (create : Bool) (parent : Path) : List Path :=
  let root := parent ++ [treeDir 0]
  let below := p.treeBelow create p.depth root 1
  if create then root :: below else below ++ [root]

/-! ## The phases of a rank -/

/-- `shuffled(n, seed)`: the swaps of the shuffle, from the last place down. -/
def shuffleLoop : ℕ → ℕ → Array ℕ → Array ℕ
  | 0, _, arr => arr
  | i + 1, state, arr =>
    if i = 0 then arr
    else
      let state := (state * 6364136223846793005 + 1442695040888963407) % 2 ^ 64
      let k := state / 2 ^ 33 % (i + 1)
      shuffleLoop i state (arr.swapIfInBounds k i)

def shuffled (n seed : ℕ) : Array ℕ := shuffleLoop n (seed ||| 1) (Array.range n)

/-- The order in which a rank visits its items in the stat phase. -/
def randOrder (rank : ℕ) : Option (Array ℕ) :=
  if p.random then some (shuffled p.items ((p.randomSeed + rank) % 2 ^ 64)) else none

/-- The items that `stat_phase` visits in one test directory. -/
def statPhase (rank : ℕ) (dirs : Bool) (root : Path) (base : String) : List Path :=
  (List.range p.stopItems).map fun i =>
    let k := match p.randOrder rank with
      | some arr => arr[i]?.getD 0
      | none => i
    root ++ p.itemPath base dirs (p.itemPrefix rank 1) (k + p.leafOffset)

/-- The items that `read_phase` visits in one test directory. -/
def readPhase (rank : ℕ) (root : Path) (base : String) : List Path :=
  (List.range p.stopItems).map fun i =>
    root ++ p.itemPath base false (p.itemPrefix rank 2) (i + p.leafOffset)

/-- The root of the tree that a rank uses in a phase. -/
def root (iteration rank phase dirIter : ℕ) : Path :=
  p.treeRoot iteration dirIter (p.shifted rank phase)

def base (rank phase : ℕ) : String := p.baseTreeName (p.shifted rank phase)

/-- The progress that an iteration of `run_rank` starts with. -/
def startProgress : Progress where
  itemsStart := 0
  itemsDone := 0
  itemsPerDir := p.itemsPerDir
  stoneWallTimer := 0
  looks := 0

/-- The items a rank creates in one kind of phase. Only files look at the stonewall timer, and
only they start a further test directory where the one before ended. -/
def createPhase (clock : Clock) (iteration rank : ℕ) (dirs : Bool) : List Path × Progress :=
  let timer := if dirs then 0 else p.stonewall
  (List.range p.directoryLoops).foldl (fun (acc, pr) dirIter =>
    let start := if dirs || dirIter == 0 then 0 else pr.itemsDone
    let (items, pr) := p.createRemoveItems clock rank dirs true (p.root iteration rank 0 dirIter)
      { pr with itemsStart := start }
    (acc ++ items, pr)) ([], { p.startProgress with stoneWallTimer := timer })

/-- The items a rank looks up in the stat phase. -/
def statAll (iteration rank : ℕ) (dirs : Bool) : List Path :=
  (List.range p.directoryLoops).flatMap fun dirIter =>
    p.statPhase rank dirs (p.root iteration rank 1 dirIter) (p.base rank 1)

/-- The items a rank looks up in the read phase. -/
def readAll (iteration rank : ℕ) : List Path :=
  (List.range p.directoryLoops).flatMap fun dirIter =>
    p.readPhase rank (p.root iteration rank 2 dirIter) (p.base rank 2)

/-- The items a rank removes. The timer is off. -/
def removePhase (iteration rank : ℕ) (dirs : Bool) : List Path :=
  (List.range p.directoryLoops).flatMap fun dirIter =>
    (p.createRemoveItems (fun _ => false) rank dirs false (p.root iteration rank 3 dirIter)
      p.startProgress).1

end Params

end Fstest.Mdtest
