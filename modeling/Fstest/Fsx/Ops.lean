import Fstest.Lib.Checked
import Fstest.Fsx.Kernel

/-!
# The operations of fsx

The state of the fuzzer (`Fsx`) and its operations, each as the source computes it: the shadow
buffer `goodBuf` with its `fileSize`, the operation log, the first failure, and the open file `fd`.
Every slice, remainder and `u64` operation that can panic is partial, so an operation returns
`none` exactly when the program panics there.
-/

namespace Fstest

namespace Fsx

inductive Op where
  | read | write | mapRead | mapWrite | truncate | fallocate | punchHole | zeroRange | writeZeroes
  | collapseRange | insertRange | cloneRange | copyRange | fsync
  deriving DecidableEq, Repr

def logSize : Nat := 10000

theorem logSize_pos : 0 < logSize := by decide

structure LogEntry where
  op : Op
  args : Nat × Nat × Nat
  skipped : Bool
  keepSize : Bool
  unshare : Bool
  closeOpen : Bool
  deriving DecidableEq, Repr

structure Cfg where
  readbdy : Nat
  writebdy : Nat
  truncbdy : Nat
  polluteEof : Bool
  doFsync : Bool
  simulatedopcount : Nat
  injectFailureAt : Option Nat

end Fsx

open Fsx in
/-- The fuzzer. The log is a ring of `logSize` entries, so its write position stays inside it. -/
structure Fsx (σ : Type) where
  a : Cfg
  fd : σ
  goodBuf : Bytes
  originalBuf : Bytes
  fileSize : Nat
  biggest : Nat
  maxfilelen : Nat
  pageSize : Nat
  pageMask : Nat
  testcalls : Nat
  rng : Nat → UInt32
  log : Vector LogEntry logSize
  logptr : Fin logSize
  logcount : Nat
  badoff : Int
  closeopen : Bool
  enabled : Op → Bool
  failure : Option String

namespace Fsx

variable {σ : Type}

/-- The value of `{n:x}`. -/
def hex (n : Nat) : String := String.ofList (Nat.toDigits 16 n)

def rounddown (v bdy : Nat) : Nat := if bdy = 0 then v else v - v % bdy

/-- The next random number. The stream is a parameter: `random()` of a seed, or any other. -/
def rnd (s : Fsx σ) : Nat × Fsx σ :=
  ((s.rng 0).toNat, { s with rng := fun n => s.rng (n + 1) })

def logptrNext (p : Fin logSize) : Fin logSize := ⟨(p.1 + 1) % logSize, Nat.mod_lt _ (by decide)⟩

def log5 (s : Fsx σ) (op : Op) (a0 a1 a2 : Nat) (skipped : Bool) : Fsx σ :=
  { s with
    log := s.log.set s.logptr
      { op, args := (a0, a1, a2), skipped, keepSize := false, unshare := false,
        closeOpen := s.closeopen }
    logptr := logptrNext s.logptr
    logcount := s.logcount + 1 }

def log4 (s : Fsx σ) (op : Op) (a0 a1 : Nat) (skipped : Bool) : Fsx σ :=
  s.log5 op a0 a1 s.fileSize skipped

def fail (s : Fsx σ) (msg : String) : Fsx σ :=
  if s.failure.isNone then { s with failure := some msg, badoff := -1 } else s

/-- The largest end of an operation so far. -/
def raiseBiggest (s : Fsx σ) (fin : Nat) : Fsx σ :=
  if s.biggest < fin then { s with biggest := fin } else s

/-- Byte `i` of the pattern of operation `tc`: odd bytes add the original fill. -/
def genByte (tc : UInt8) (original : Bytes) (i : Nat) : Option UInt8 :=
  if i % 2 = 1 then (original[i]?).map (tc + ·) else some tc

def gendata (s : Fsx σ) (offset size : Nat) : Option (Fsx σ) := do
  let tc := UInt8.ofNat (s.testcalls % 256)
  let data ← (List.range size).mapM fun i => genByte tc s.originalBuf (offset + i)
  let goodBuf ← copyIn s.goodBuf offset data
  return { s with goodBuf }

/-- `pread_all`: `need` more bytes from `off` on. -/
def preadAll (K : Kernel σ) (fd : σ) (need off : Nat) : Except IoError Bytes :=
  if need = 0 then .ok []
  else
    match K.pread fd need off with
    | .error e => .error e
    | .ok c =>
      if c.1.length = 0 then .error "short read"
      else
        match preadAll K fd (need - c.1.length) (off + c.1.length) with
        | .error e => .error e
        | .ok rest => .ok (c.1 ++ rest)
termination_by need
decreasing_by omega

/-- `pwrite_all`: the rest of `data` from `off` on. -/
def pwriteAll (K : Kernel σ) (fd : σ) (data : Bytes) (off : Nat) : Except IoError σ :=
  if data.length = 0 then .ok fd
  else
    match K.pwrite fd data off with
    | .error e => .error e
    | .ok (n, fd') => pwriteAll K fd' (data.drop n.1) (off + n.1)
termination_by data.length
decreasing_by
  have := n.2
  simp only [List.length_drop]
  omega

def checkBuffers (s : Fsx σ) (buf : Bytes) (offset size : Nat) : Option (Fsx σ) := do
  let got ← slice buf 0 size
  let good ← slice s.goodBuf offset (offset + size)
  if got = good then
    return s
  let bad := (List.range size).filter fun i => byteAt got i ≠ byteAt good i
  let s := { s with badoff := (offset + bad.getLastD 0 : Nat) }
  return s.fail s!"READ BAD DATA: offset = 0x{hex offset}, size = 0x{hex size}, mismatches = {bad.length}"

def checkSize (K : Kernel σ) (s : Fsx σ) : Fsx σ :=
  match K.fstatSize s.fd with
  | .error _ => s.fail "check_size: fstat failed"
  | .ok stSize =>
    let seekEnd := K.lseekEnd s.fd
    if s.fileSize ≠ stSize ∨ s.fileSize ≠ seekEnd then
      s.fail s!"Size error: expected 0x{hex s.fileSize} stat 0x{hex stSize} seek 0x{hex seekEnd}"
    else s

def updateFileSize (s : Fsx σ) (offset size : Nat) : Option (Fsx σ) := do
  let goodBuf ←
    (if s.fileSize < offset then fillRange s.goodBuf s.fileSize offset 0 else some s.goodBuf)
  let fileSize ← addU64 offset size
  return { s with goodBuf, fileSize }

/-- `update_file_size` where the operation ends at `e`, past the end of the file. -/
def growTo (s : Fsx σ) (offset size e : Nat) : Option (Fsx σ) :=
  if s.fileSize < e then s.updateFileSize offset size else some s

/-- `pollute_eofpage`: data after the end of the file, up to `maxoff`, in its last page. -/
def polluteEofpage (K : Kernel σ) (s : Fsx σ) (maxoff : Nat) : Option (Fsx σ) := do
  if !s.a.polluteEof || s.testcalls ≤ s.a.simulatedopcount then
    return s
  let offset := s.fileSize
  let pgOffset := offset &&& s.pageMask
  if pgOffset = 0 then
    return s
  let writeSize := min (s.pageSize - pgOffset) (maxoff - offset)
  if writeSize = 0 then
    return s
  match K.mmap s.fd s.pageSize (offset - pgOffset) with
  | .error _ => return s
  | .ok () =>
    let tc := UInt8.ofNat (s.testcalls % 256)
    let data ← (List.range writeSize).mapM fun i => genByte tc s.originalBuf (pgOffset + i)
    return { s with fd := K.store s.fd offset data }

/-- What `doread` compares: the bytes read, or with byte 7 spoiled where a failure is injected. -/
def injected (s : Fsx σ) (tmp : Bytes) (size : Nat) : Bytes :=
  if s.a.injectFailureAt = some s.testcalls ∧ 8 < size then tmp.modify 7 (· ^^^ 0xff) else tmp

def doread (K : Kernel σ) (s : Fsx σ) (offset size : Nat) : Option (Fsx σ) := do
  let offset := offset - offset % max s.a.readbdy 1
  if size = 0 then
    return s.log4 .read offset size true
  let e ← addU64 offset size
  if s.fileSize < e then
    return s.log4 .read offset size true
  let s := s.log4 .read offset size false
  match preadAll K s.fd size offset with
  | .error e => return s.fail s!"doread: {e}"
  | .ok tmp => s.checkBuffers (s.injected tmp size) offset size

def dowrite (K : Kernel σ) (s : Fsx σ) (offset size : Nat) : Option (Fsx σ) := do
  let offset := offset - offset % max s.a.writebdy 1
  if size = 0 then
    return s.log4 .write offset size true
  let s := s.log4 .write offset size false
  let s ← s.gendata offset size
  let e ← addU64 offset size
  let s ← s.growTo offset size e
  let data ← slice s.goodBuf offset e
  match pwriteAll K s.fd data offset with
  | .error e => return s.fail s!"dowrite: {e}"
  | .ok fd =>
    return { s with fd := if s.a.doFsync then K.fsync fd else fd }

/-- The scan of `domapread` for a non-zero byte past the end of the file: `i` runs over the
mapping, from the page offset of the end of the file on. -/
def checkPastEof (K : Kernel σ) (s : Fsx σ) (base mapSize : Nat) : Fsx σ :=
  let dirt := ((List.range mapSize).drop (s.fileSize &&& s.pageMask)).find? fun i =>
    s.fileSize - base ≤ i && K.load s.fd (base + i) != 0
  match dirt with
  | some i =>
    let b := K.load s.fd (base + i)
    s.fail s!"Mapped Read: non-zero data past EOF (page offset 0x{hex i}) is 0x{hex b.toNat}"
  | none => s

def domapread (K : Kernel σ) (s : Fsx σ) (offset size : Nat) : Option (Fsx σ) := do
  let offset := offset - offset % max s.a.readbdy 1
  if size = 0 then
    return s.log4 .mapRead offset size true
  let e ← addU64 offset size
  if s.fileSize < e then
    return s.log4 .mapRead offset size true
  let s := s.log4 .mapRead offset size false
  let pgOffset := offset &&& s.pageMask
  let mapSize := pgOffset + size
  let base := offset - pgOffset
  match K.mmap s.fd mapSize base with
  | .error e => return s.fail s!"domapread: mmap {e}"
  | .ok () =>
    let tmp := (List.range size).map fun i => K.load s.fd (base + pgOffset + i)
    let eofPageStart := (s.fileSize - base) - ((s.fileSize - base) &&& s.pageMask)
    let s := if eofPageStart < base + size then s.checkPastEof K base mapSize else s
    s.checkBuffers tmp offset size

/-- `ftruncate` where the write grew the shadow file past its size `cur`. -/
def growFile (K : Kernel σ) (fd : σ) (cur fileSize : Nat) : Except IoError σ :=
  if cur < fileSize then K.ftruncate fd fileSize else .ok fd

def domapwrite (K : Kernel σ) (s : Fsx σ) (offset size : Nat) : Option (Fsx σ) := do
  let offset := offset - offset % max s.a.writebdy 1
  if size = 0 then
    return s.log4 .mapWrite offset size true
  let cur := s.fileSize
  let s := s.log4 .mapWrite offset size false
  let s ← s.gendata offset size
  let e ← addU64 offset size
  let s ← s.growTo offset size e
  match growFile K s.fd cur s.fileSize with
  | .error e => return s.fail s!"domapwrite: ftruncate {e}"
  | .ok fd =>
    let s := { s with fd }
    let pgOffset := offset &&& s.pageMask
    let mapSize := pgOffset + size
    match K.mmap s.fd mapSize (offset - pgOffset) with
    | .error e => return s.fail s!"domapwrite: mmap {e}"
    | .ok () =>
      let data ← slice s.goodBuf offset e
      let s := { s with fd := K.store s.fd offset data }
      match K.msync s.fd with
      | .error e => return s.fail s!"domapwrite: msync {e}"
      | .ok () => return s

def dotruncate (K : Kernel σ) (s : Fsx σ) (size : Nat) : Option (Fsx σ) := do
  let size := size - size % max s.a.truncbdy 1
  let s := s.raiseBiggest size
  let s := s.log4 .truncate 0 size false
  let s ← (if size < s.fileSize then s.polluteEofpage K s.maxfilelen else some s)
  let s ← s.updateFileSize size 0
  match K.ftruncate s.fd size with
  | .error e => return s.fail s!"dotruncate: {e}"
  | .ok fd => return { s with fd }

def doPreallocate (K : Kernel σ) (s : Fsx σ) (offset size : Nat) (keepSize unshare : Bool) :
    Option (Fsx σ) := do
  let offset := min offset s.maxfilelen
  let size := min size (s.maxfilelen - offset)
  if size = 0 then
    return s.log4 .fallocate offset 0 true
  let e ← addU64 offset size
  let fin := if keepSize then 0 else e
  let s := s.raiseBiggest fin
  let mode := (if keepSize then fallocFlKeepSize else 0) ||| (if unshare then fallocFlUnshareRange else 0)
  let s := s.log4 .fallocate offset size false
  let s ←
    (if s.fileSize < e then do
      let goodBuf ← fillRange s.goodBuf s.fileSize e 0
      { s with goodBuf }.updateFileSize offset size
    else some s)
  if s.testcalls ≤ s.a.simulatedopcount then
    return s
  match K.fallocate s.fd mode offset size with
  | .error e => return s.fail s!"do_preallocate: {e}"
  | .ok fd => return { s with fd }

def doPunchHole (K : Kernel σ) (s : Fsx σ) (offset length : Nat) : Option (Fsx σ) := do
  if length = 0 ∨ s.fileSize ≤ offset then
    return s.log4 .punchHole offset length true
  let s := s.log4 .punchHole offset length false
  let length := min length (s.fileSize - offset)
  if length = 0 ∨ s.fileSize ≤ offset then
    return s
  match K.fallocate s.fd (fallocFlPunchHole ||| fallocFlKeepSize) offset length with
  | .error e => return s.fail s!"do_punch_hole: {e}"
  | .ok fd =>
    let maxOffset := min offset s.fileSize
    let e ← addU64 maxOffset length
    let maxLen := if e ≤ s.fileSize then length else s.fileSize - maxOffset
    let goodBuf ← fillRange s.goodBuf maxOffset (maxOffset + maxLen) 0
    return { s with fd, goodBuf }

def doZeroRange (K : Kernel σ) (s : Fsx σ) (offset length : Nat) (keepSize : Bool) :
    Option (Fsx σ) := do
  if length = 0 then
    return s.log4 .zeroRange offset length true
  let e ← addU64 offset length
  let fin := if keepSize then 0 else e
  let s := s.raiseBiggest fin
  let s := s.log4 .zeroRange offset length false
  let s ← (if keepSize then some s else s.growTo offset length e)
  let mode := if keepSize then fallocFlZeroRange ||| fallocFlKeepSize else fallocFlZeroRange
  match K.fallocate s.fd mode offset length with
  | .error e => return s.fail s!"do_zero_range: {e}"
  | .ok fd =>
    let goodBuf ← fillRange s.goodBuf offset e 0
    return { s with fd, goodBuf }

def doWriteZeroes (K : Kernel σ) (s : Fsx σ) (offset length : Nat) : Option (Fsx σ) := do
  if length = 0 then
    return s.log4 .writeZeroes offset length true
  let fin ← addU64 offset length
  let s := s.raiseBiggest fin
  let s := s.log4 .writeZeroes offset length false
  let s ← s.growTo offset length fin
  match K.fallocate s.fd fallocFlWriteZeroes offset length with
  | .error e => return s.fail s!"do_write_zeroes: {e}"
  | .ok fd =>
    let goodBuf ← fillRange s.goodBuf offset fin 0
    return { s with fd, goodBuf }

def doCollapseRange (K : Kernel σ) (s : Fsx σ) (offset length : Nat) : Option (Fsx σ) := do
  if length = 0 then
    return s.log4 .collapseRange offset length true
  let e ← addU64 offset length
  if s.fileSize ≤ e then
    return s.log4 .collapseRange offset length true
  let s := s.log4 .collapseRange offset length false
  let s ← s.polluteEofpage K s.maxfilelen
  match K.fallocate s.fd fallocFlCollapseRange offset length with
  | .error e => return s.fail s!"do_collapse_range: {e}"
  | .ok fd =>
    let goodBuf ← copyWithin s.goodBuf e s.fileSize offset
    let fileSize ← subU64 s.fileSize length
    return { s with fd, goodBuf, fileSize }

def doInsertRange (K : Kernel σ) (s : Fsx σ) (offset length : Nat) : Option (Fsx σ) := do
  if length = 0 ∨ s.fileSize ≤ offset then
    return s.log4 .insertRange offset length true
  let s := s.log4 .insertRange offset length false
  let s ← s.polluteEofpage K s.maxfilelen
  match K.fallocate s.fd fallocFlInsertRange offset length with
  | .error e => return s.fail s!"do_insert_range: {e}"
  | .ok fd =>
    let e ← addU64 offset length
    let last ← subU64 s.fileSize length
    let goodBuf ← copyWithin s.goodBuf offset last e
    let goodBuf ← fillRange goodBuf offset e 0
    let fileSize ← addU64 s.fileSize length
    return { s with fd, goodBuf, fileSize }

def doCloneRange (K : Kernel σ) (s : Fsx σ) (offset length dest : Nat) : Option (Fsx σ) := do
  if length = 0 ∨ s.fileSize ≤ offset then
    return s.log5 .cloneRange offset length dest true
  let e ← addU64 dest length
  let s := s.raiseBiggest e
  let s := s.log5 .cloneRange offset length dest false
  let s ← s.growTo dest length e
  match K.ficlonerange s.fd offset length dest with
  | .error e => return s.fail s!"do_clone_range: FICLONERANGE {e}"
  | .ok fd =>
    let goodBuf ← copyWithin s.goodBuf offset (offset + length) dest
    return { s with fd, goodBuf }

/-- The loop of `do_copy_range`: `left` more bytes from `o1` to `o2`. -/
def copyAll (K : Kernel σ) (fd : σ) (o1 o2 left : Nat) : Except IoError σ :=
  if left = 0 then .ok fd
  else
    match K.copyFileRange fd o1 o2 left with
    | .error e => .error e
    | .ok (n, fd') =>
      if n.1 = 0 then .error "Success (os error 0)"
      else copyAll K fd' (o1 + n.1) (o2 + n.1) (left - n.1)
termination_by left
decreasing_by omega

def doCopyRange (K : Kernel σ) (s : Fsx σ) (offset length dest : Nat) : Option (Fsx σ) := do
  if length = 0 ∨ s.fileSize ≤ offset then
    return s.log5 .copyRange offset length dest true
  let e ← addU64 dest length
  let s := s.raiseBiggest e
  let s := s.log5 .copyRange offset length dest false
  let s ← s.growTo dest length e
  match copyAll K s.fd offset dest length with
  | .error e => return s.fail s!"do_copy_range: copy_file_range {e}"
  | .ok fd =>
    let goodBuf ← copyWithin s.goodBuf offset (offset + length) dest
    return { s with fd, goodBuf }

def checkContents (K : Kernel σ) (s : Fsx σ) : Option (Fsx σ) :=
  if s.fileSize = 0 then some s
  else
    match preadAll K s.fd s.fileSize 0 with
    | .error e => some (s.fail s!"check_contents: {e}")
    | .ok buf => s.checkBuffers buf 0 buf.length

end Fsx

end Fstest
