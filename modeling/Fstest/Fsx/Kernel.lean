import Fstest.Lib.Bytes

/-!
# The file system under test, as fsx sees it

`Kernel σ` is the interface of the calls fsx makes on its one open file; `σ` is the state of the
file. The calls are code outside the repository, so they are parameters. A call may fail with an
error text and may move fewer bytes than asked; a `Chunk` carries that it never returns more than
asked, a `Count` that a write that succeeds makes progress.

`ByteSemantics K contents` says that the calls succeed and have the documented effect on the
contents of the file. Each field asks for it only for the arguments the documentation allows
(aligned, disjoint ranges for a clone, a collapse that ends before the end of the file).
-/

namespace Fstest.Fsx

/-- The text of an `io::Error`. -/
abbrev IoError := String

/-- The bytes that one `pread` of `len` bytes returned. -/
abbrev Chunk (len : Nat) := { bs : Bytes // bs.length ≤ len }

/-- The number of bytes that one `pwrite` of `len` bytes wrote. -/
abbrev Count (len : Nat) := { n : Nat // 0 < n ∧ n ≤ len }

/-- The number of bytes that one `copy_file_range` of `len` bytes copied. -/
abbrev Copied (len : Nat) := { n : Nat // n ≤ len }

/-! ## `fallocate(2)` mode flags -/

def fallocFlKeepSize : Nat := 0x01
def fallocFlPunchHole : Nat := 0x02
def fallocFlCollapseRange : Nat := 0x08
def fallocFlZeroRange : Nat := 0x10
def fallocFlInsertRange : Nat := 0x20
def fallocFlUnshareRange : Nat := 0x40
def fallocFlWriteZeroes : Nat := 0x80

/-- The calls on the open file. `load` and `store` access a shared mapping of it. -/
structure Kernel (σ : Type) where
  pread : σ → (len off : Nat) → Except IoError (Chunk len)
  pwrite : σ → (data : Bytes) → (off : Nat) → Except IoError (Count data.length × σ)
  ftruncate : σ → (size : Nat) → Except IoError σ
  fallocate : σ → (mode off len : Nat) → Except IoError σ
  ficlonerange : σ → (srcOffset srcLength destOffset : Nat) → Except IoError σ
  copyFileRange : σ → (off dest len : Nat) → Except IoError (Copied len × σ)
  mmap : σ → (len off : Nat) → Except IoError Unit
  load : σ → (off : Nat) → UInt8
  store : σ → (off : Nat) → (data : Bytes) → σ
  msync : σ → Except IoError Unit
  fsync : σ → σ
  fstatSize : σ → Except IoError Nat
  lseekEnd : σ → Nat

/-- The block size that collapse and clone ranges are aligned to. -/
def blockSize : Nat := 4096

/-- The calls succeed and act on the contents of the file as documented. -/
structure ByteSemantics {σ : Type} (K : Kernel σ) (contents : σ → Bytes) : Prop where
  /-- A read returns the bytes at its offset, and at least one before the end of the file. -/
  pread : ∀ fd len off, ∃ c, K.pread fd len off = .ok c ∧
    c.1 = ((contents fd).drop off).take c.1.length ∧
    (0 < len → off < (contents fd).length → 0 < c.1.length)
  pwrite : ∀ fd data off, 0 < data.length → ∃ n fd', K.pwrite fd data off = .ok (n, fd') ∧
    contents fd' = overwrite (contents fd) off (data.take n)
  ftruncate : ∀ fd size, ∃ fd', K.ftruncate fd size = .ok fd' ∧
    contents fd' = resize (contents fd) size
  punchHole : ∀ fd off len, 0 < len →
    ∃ fd', K.fallocate fd (fallocFlPunchHole ||| fallocFlKeepSize) off len = .ok fd' ∧
      contents fd' = Fstest.zeroRange (contents fd) off len
  zeroRangeKeep : ∀ fd off len, 0 < len →
    ∃ fd', K.fallocate fd (fallocFlZeroRange ||| fallocFlKeepSize) off len = .ok fd' ∧
      contents fd' = Fstest.zeroRange (contents fd) off len
  zeroRange : ∀ fd off len, 0 < len →
    ∃ fd', K.fallocate fd fallocFlZeroRange off len = .ok fd' ∧
      contents fd' = overwrite (contents fd) off (List.replicate len 0)
  writeZeroes : ∀ fd off len, 0 < len →
    ∃ fd', K.fallocate fd fallocFlWriteZeroes off len = .ok fd' ∧
      contents fd' = overwrite (contents fd) off (List.replicate len 0)
  collapseRange : ∀ fd off len, 0 < len → blockSize ∣ off → blockSize ∣ len →
    off + len < (contents fd).length →
    ∃ fd', K.fallocate fd fallocFlCollapseRange off len = .ok fd' ∧
      contents fd' = removeRange (contents fd) off len
  ficlonerange : ∀ fd src len dest, 0 < len → blockSize ∣ src → blockSize ∣ len →
    blockSize ∣ dest → src + len ≤ (contents fd).length → src + len ≤ dest ∨ dest + len ≤ src →
    ∃ fd', K.ficlonerange fd src len dest = .ok fd' ∧
      contents fd' = overwrite (contents fd) dest (((contents fd).drop src).take len)
  /-- A copy before the end of the file moves at least one byte. -/
  copyFileRange : ∀ fd src dest len, 0 < len → src + len ≤ (contents fd).length →
    src + len ≤ dest ∨ dest + len ≤ src →
    ∃ n fd', K.copyFileRange fd src dest len = .ok (n, fd') ∧ 0 < n.1 ∧
      contents fd' = overwrite (contents fd) dest (((contents fd).drop src).take n)
  mmap : ∀ fd len off, 0 < len → K.mmap fd len off = .ok ()
  load : ∀ fd off, off < (contents fd).length → K.load fd off = byteAt (contents fd) off
  store : ∀ fd off data, off + data.length ≤ (contents fd).length →
    contents (K.store fd off data) = overwrite (contents fd) off data
  msync : ∀ fd, K.msync fd = .ok ()
  fsync : ∀ fd, contents (K.fsync fd) = contents fd
  fstatSize : ∀ fd, K.fstatSize fd = .ok (contents fd).length
  lseekEnd : ∀ fd, K.lseekEnd fd = (contents fd).length

end Fstest.Fsx
