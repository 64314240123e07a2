import Fstest.Fsx.Ops

/-!
# The main loop of fsx

One iteration of the loop draws an operation with its offset and size (`chooseOp`), draws what the
operation needs besides (`refine`), and performs it (`dispatch`). `iteration` is the loop body,
`runFor` the loop. `start` is the state that `run` enters the loop with, on a file it has just
created or emptied.
-/

namespace Fstest.Fsx

variable {σ : Type}

structure Args where
  flen : Nat
  oplen : Nat
  readbdy : Nat := 1
  writebdy : Nat := 1
  truncbdy : Nat := 1
  style : Int := 0
  closeprob : Int := 0
  lite : Bool := false
  fixedOplen : Bool := false
  noMappedReads : Bool := false
  noMappedWrites : Bool := false
  noKeepSize : Bool := false
  noSizeChecks : Bool := false
  checkContents : Bool := false
  fsyncWrites : Bool := false
  polluteEof : Bool := false
  beginOp : Nat := 0
  injectFailureAt : Option Nat := none

/-- What the loop draws first: the operation with its raw offset and size. -/
structure Choice where
  op : Op
  offset : Nat
  size : Nat

/-- The operation with all its arguments, before they are trimmed. -/
structure Call where
  op : Op
  offset : Nat
  size : Nat
  offset2 : Nat := 0
  keepSize : Bool := false
  unshare : Bool := false

def opMax (lite integrityFsync : Bool) : Nat :=
  if lite then 4 else if integrityFsync then 14 else 13

def opOfIndex : Nat → Op
  | 0 => .read
  | 1 => .write
  | 2 => .mapRead
  | 3 => .mapWrite
  | 4 => .truncate
  | 5 => .fallocate
  | 6 => .punchHole
  | 7 => .zeroRange
  | 8 => .writeZeroes
  | 9 => .collapseRange
  | 10 => .insertRange
  | 11 => .cloneRange
  | 12 => .copyRange
  | _ => .fsync

/-! ## Trimming -/

def trimOff (off size : Nat) : Nat := if size = 0 then 0 else off % size

def trimOffLen (off len size : Nat) : Option (Nat × Nat) := do
  let off := trimOff off size
  let e ← addU64 off len
  if size < e then
    let len ← subU64 size off
    return (off, len)
  return (off, len)

/-- The tries of `gen_dest_range`; the number of tries left is the first argument. The result is
the size (0 when no try succeeds) and the destination offset. -/
def destTries (maxRangeEnd wbdy src size dst : Nat) : Nat → Fsx σ → Option (Nat × Nat × Fsx σ)
  | 0, s => some (0, dst, s)
  | tries + 1, s => do
    let (d, s) := s.rnd
    let d := if maxRangeEnd = 0 then 0 else d % maxRangeEnd
    let d := rounddown d wbdy
    let overlap := decide (((d : Int) - src).natAbs < size)
    let fits ← (if overlap then some false else (addU64 d size).map (decide <| · ≤ maxRangeEnd))
    if fits then
      return (size, d, s)
    destTries maxRangeEnd wbdy src size dst tries s

/-- `gen_dest_range`: the trimmed source offset, the size and the destination offset. -/
def genDestRange (s : Fsx σ) (bdyAlign : Bool) (maxRangeEnd src size dst : Nat) :
    Option (Nat × Nat × Nat × Fsx σ) := do
  let (src, size) ← trimOffLen src size s.fileSize
  let bdy := if bdyAlign then max s.a.readbdy 1 else 4096
  let src := rounddown src bdy
  let size := rounddown size bdy
  let wbdy := if bdyAlign then max s.a.writebdy 1 else 4096
  let (size, dst, s) ← destTries maxRangeEnd wbdy src size dst 29 s
  return (src, size, dst, s)

/-! ## One iteration -/

/-- The size of the next operation, before trimming. -/
def drawSize (a : Args) (s : Fsx σ) : Option (Nat × Fsx σ) :=
  if a.fixedOplen then some (a.oplen, s)
  else do
    let (r, s) := s.rnd
    let m ← addU64 a.oplen 1
    let size ← modU64 r m
    return (size, s)

/-- Whether the operation is logged with the close-open flag. -/
def drawCloseopen (a : Args) (s : Fsx σ) : Fsx σ :=
  if 0 < a.closeprob then
    let (rv, s) := s.rnd
    { s with closeopen := decide (rv / 8 < 2 ^ 28 / a.closeprob.toNat) }
  else { s with closeopen := false }

def chooseOp (a : Args) (s : Fsx σ) : Option (Choice × Fsx σ) := do
  let s := drawCloseopen a { s with testcalls := s.testcalls + 1 }
  let (offset, s) := s.rnd
  let (size, s) ← drawSize a s
  let (rv, s) := s.rnd
  return ({ op := opOfIndex (rv % opMax a.lite false), offset, size }, s)

/-- The further draws of an operation. On Linux `gen_dest_range` aligns to 4096 bytes. -/
def refine (a : Args) (s : Fsx σ) (c : Choice) : Option (Call × Fsx σ) :=
  match c.op with
  | .truncate =>
    if a.style = 0 then do
      let (r, s) := s.rnd
      let size ← modU64 r s.maxfilelen
      return ({ op := c.op, offset := c.offset, size }, s)
    else some ({ op := c.op, offset := c.offset, size := c.size }, s)
  | .fallocate =>
    if c.size ≠ 0 then
      let (keepSize, s) :=
        if a.noKeepSize then (false, s)
        else
          let (r, s) := s.rnd
          (decide (r % 2 = 0), s)
      let (r, s) := s.rnd
      some ({ op := c.op, offset := c.offset, size := c.size, keepSize,
              unshare := decide (r % 2 = 0) }, s)
    else some ({ op := c.op, offset := c.offset, size := c.size }, s)
  | .zeroRange =>
    if c.size ≠ 0 ∧ !a.noKeepSize then
      let (r, s) := s.rnd
      some ({ op := c.op, offset := c.offset, size := c.size, keepSize := decide (r % 2 = 0) }, s)
    else some ({ op := c.op, offset := c.offset, size := c.size }, s)
  | .cloneRange | .copyRange => do
    let (offset, size, offset2, s) ← genDestRange s false s.maxfilelen c.offset c.size 0
    return ({ op := c.op, offset, size, offset2 }, s)
  | _ => some ({ op := c.op, offset := c.offset, size := c.size }, s)

/-- The operations that the loop performs even where `enabled` is off. -/
def alwaysOn : Op → Bool
  | .read | .write | .mapRead | .mapWrite | .truncate => true
  | _ => false

/-- The arms of the loop. `fileSize0` is the local `file_size`, the size at the start of the run. -/
def dispatch (a : Args) (K : Kernel σ) (fileSize0 : Nat) (s : Fsx σ) (c : Call) :
    Option (Fsx σ) :=
  match c.op with
  | .read => do
    let (offset, size) ← trimOffLen c.offset c.size s.fileSize
    s.doread K offset size
  | .write => do
    let (offset, size) ← trimOffLen c.offset c.size s.maxfilelen
    s.dowrite K offset size
  | .mapRead => do
    let (offset, size) ← trimOffLen c.offset c.size s.fileSize
    if a.noMappedReads then s.doread K offset size else s.domapread K offset size
  | .mapWrite => do
    let (offset, size) ← trimOffLen c.offset c.size s.maxfilelen
    if a.noMappedWrites then s.dowrite K offset size else s.domapwrite K offset size
  | .truncate => s.dotruncate K c.size
  | .fallocate => do
    let (offset, size) ← trimOffLen c.offset c.size s.maxfilelen
    s.doPreallocate K offset size c.keepSize c.unshare
  | .punchHole => do
    let (offset, size) ← trimOffLen c.offset c.size s.fileSize
    s.doPunchHole K offset size
  | .zeroRange => do
    let (offset, size) ← trimOffLen c.offset c.size s.maxfilelen
    s.doZeroRange K offset size c.keepSize
  | .writeZeroes => do
    let (offset, size) ← trimOffLen c.offset c.size s.maxfilelen
    s.doWriteZeroes K offset size
  | .collapseRange => do
    let (offset, size) ← trimOffLen c.offset c.size (s.fileSize - 1)
    let offset := rounddown offset 4096
    let size := rounddown size 4096
    if size = 0 then
      return s.log4 .collapseRange offset size true
    s.doCollapseRange K offset size
  | .insertRange => do
    let offset := trimOff c.offset s.fileSize
    let e ← addU64 offset c.size
    let size ← (if s.maxfilelen < e then subU64 s.maxfilelen offset else some c.size)
    let offset := rounddown offset 4096
    let size := rounddown size 4096
    if size = 0 then
      return s.log4 .insertRange offset size true
    let grown ← addU64 fileSize0 size
    if s.maxfilelen < grown then
      return s.log4 .insertRange offset size true
    s.doInsertRange K offset size
  | .cloneRange =>
    if c.size = 0 then some (s.log5 .cloneRange c.offset c.size c.offset2 true)
    else do
      let e ← addU64 c.offset2 c.size
      if s.maxfilelen < e then
        return s.log5 .cloneRange c.offset c.size c.offset2 true
      s.doCloneRange K c.offset c.size c.offset2
  | .copyRange =>
    if c.size = 0 then some (s.log5 .copyRange c.offset c.size c.offset2 true)
    else do
      let e ← addU64 c.offset2 c.size
      if s.maxfilelen < e then
        return s.log5 .copyRange c.offset c.size c.offset2 true
      s.doCopyRange K c.offset c.size c.offset2
  | .fsync => some s

/-- The checks at the end of an iteration. -/
def checks (a : Args) (K : Kernel σ) (s : Fsx σ) : Option (Fsx σ) := do
  if s.failure.isSome then
    return s
  let s ← (if a.checkContents then s.checkContents K else some s)
  return if !a.noSizeChecks && s.failure.isNone then s.checkSize K else s

/-- The iteration after its choice. A disabled operation is logged as skipped. -/
def performOp (a : Args) (K : Kernel σ) (fileSize0 : Nat) (s : Fsx σ) (c : Choice) :
    Option (Fsx σ) := do
  let (call, s) ← refine a s c
  if !s.enabled call.op && !alwaysOn call.op then
    return s.log5 call.op call.offset call.size call.offset2 true
  let s ← dispatch a K fileSize0 s call
  checks a K s

def iteration (a : Args) (K : Kernel σ) (fileSize0 : Nat) (s : Fsx σ) : Option (Fsx σ) := do
  let (c, s) ← chooseOp a s
  performOp a K fileSize0 s c

/-- `n` rounds of the loop, which ends early at a failure. -/
def runFor (a : Args) (K : Kernel σ) (fileSize0 : Nat) : Nat → Fsx σ → Option (Fsx σ)
  | 0, s => some s
  | n + 1, s => if s.failure.isSome then some s else do
    let s ← iteration a K fileSize0 s
    runFor a K fileSize0 n s

/-- The part of the shadow that `run` saves after a failure. -/
def goodDump (s : Fsx σ) : Option Bytes := slice s.goodBuf 0 s.fileSize

/-! ## The start of the loop -/

/-- `vec![0u8; n]`: an allocation above `isize::MAX` bytes panics. -/
def vecZero (n : Nat) : Option Bytes := if n ≤ isizeMax then some (List.replicate n 0) else none

/-- The state with which `run` enters the loop on an empty file. The fill of `originalBuf` and the
draws of the loop come from two generators with one seed. -/
def initial (a : Args) (fd : σ) (pageSize : Nat) (rng : Nat → UInt32) (enabled : Op → Bool)
    (goodBuf : Bytes) : Fsx σ where
  a := {
    readbdy := a.readbdy, writebdy := a.writebdy, truncbdy := a.truncbdy
    polluteEof := a.polluteEof, doFsync := a.fsyncWrites, simulatedopcount := a.beginOp
    injectFailureAt := a.injectFailureAt }
  fd := fd
  goodBuf := goodBuf
  originalBuf := (List.range a.flen).map fun i => UInt8.ofNat ((rng i).toNat % 256)
  fileSize := 0
  biggest := 0
  maxfilelen := a.flen
  pageSize := pageSize
  pageMask := pageSize - 1
  testcalls := 0
  rng := rng
  log := Vector.replicate logSize
    { op := .read, args := (0, 0, 0), skipped := false, keepSize := false, unshare := false,
      closeOpen := false }
  logptr := ⟨0, logSize_pos⟩
  logcount := 0
  badoff := -1
  closeopen := false
  enabled := enabled
  failure := none

/-- The buffers that `run` allocates before the loop. -/
def start (a : Args) (fd : σ) (pageSize : Nat) (rng : Nat → UInt32) (enabled : Op → Bool) :
    Option (Fsx σ) := do
  let goodLen ← addU64 a.flen a.writebdy
  let goodLen ← addU64 goodLen 8
  let goodBuf ← vecZero goodLen
  let tempLen ← addU64 a.oplen a.readbdy
  let tempLen ← addU64 tempLen 8
  let _ ← vecZero tempLen
  let checkLen ← addU64 a.flen 8
  let _ ← vecZero checkLen
  return initial a fd pageSize rng enabled goodBuf

end Fstest.Fsx
