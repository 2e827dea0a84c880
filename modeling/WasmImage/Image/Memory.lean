import WasmImage.Fault

/-!
The image of one linear memory: a label for faults and its bytes. An access of `w` bytes at
address `a` is allowed when `a + w`, computed without wrapping, is within both the memory and
the 32-bit address space. Numbers are little-endian; 64- and 128-bit reads are two reads of half
the width.
-/

namespace WasmImage

/-- The size of a memory page: 64 KiB. -/
def pageSize : Nat := 65536

/-- The image of a linear memory. -/
structure MemImage where
  label : String
  bytes : ByteArray

namespace MemImage

/-- Makes `n` zero bytes, built by doubling so that large memories cost a few copies. -/
def zeroBytes : Nat → ByteArray
  | 0 => ByteArray.empty
  | n + 1 =>
    let half := zeroBytes ((n + 1) / 2)
    let whole := half ++ half
    if (n + 1) % 2 = 0 then whole else whole.push 0
decreasing_by omega

/-- A zeroed memory of `pages` pages. -/
def zeroed (label : String) (pages : Nat) : MemImage :=
  ⟨label, zeroBytes (pages * pageSize)⟩

/-- The length in bytes. -/
def len (m : MemImage) : Nat := m.bytes.size

/-- The length, saturated to 32 bits. -/
def size (m : MemImage) : UInt32 := (min m.len 0xffffffff).toUInt32

/-- Whether `size` bytes at `addr` may be accessed. -/
def canRead (m : MemImage) (addr size : UInt32) : Bool :=
  let stop := addr.toNat + size.toNat
  stop ≤ 0xffffffff && stop ≤ m.len

/-- The fault of an access of `size` bytes at `addr` in phase `phase`, if it is not allowed. -/
def check (m : MemImage) (phase : Phase) (addr size : UInt32) : Except Fault Unit :=
  if m.canRead addr size then .ok ()
  else .error (Fault.outOfBounds phase [m.label] addr.toNat size.toNat m.len)

/-- The little-endian number in the `n` bytes at `addr`. -/
def loadLE (m : MemImage) (addr n : Nat) : Nat :=
  (List.range n).foldr (fun i acc => acc * 256 + (m.bytes[addr + i]?.getD 0).toNat) 0

/-- Writes the `n` little-endian bytes of `v` at `addr`. -/
def storeLE (m : MemImage) (addr n v : Nat) : MemImage :=
  { m with bytes := (List.range n).foldl (fun b i => b.set! (addr + i) (v / Nat.pow 256 i).toUInt8) m.bytes }

/-- The `length` bytes at `offset`. -/
def read (m : MemImage) (offset length : UInt32) : Except Fault ByteArray := do
  m.check .read offset length
  return m.bytes.extract offset.toNat (offset.toNat + length.toNat)

/-- Writes `data` at `offset`. -/
def write (m : MemImage) (offset : UInt32) (data : ByteArray) : Except Fault MemImage := do
  if data.size > 0xffffffff then
    throw (Fault.outOfBounds .write [m.label] offset.toNat 0xffffffff m.len)
  m.check .write offset data.size.toUInt32
  return { m with bytes := data.copySlice 0 m.bytes offset.toNat data.size }

def readU8 (m : MemImage) (addr : UInt32) : Except Fault UInt8 := do
  m.check .read addr 1
  return (m.loadLE addr.toNat 1).toUInt8

def readU16 (m : MemImage) (addr : UInt32) : Except Fault UInt16 := do
  m.check .read addr 2
  return (m.loadLE addr.toNat 2).toUInt16

def readU32 (m : MemImage) (addr : UInt32) : Except Fault UInt32 := do
  m.check .read addr 4
  return (m.loadLE addr.toNat 4).toUInt32

/-- Two 32-bit reads, the second four bytes on. -/
def readU64 (m : MemImage) (addr : UInt32) : Except Fault UInt64 := do
  let lo ← m.readU32 addr
  if addr.toNat + 4 > 0xffffffff then
    throw (Fault.outOfBounds .read [m.label] (addr.toNat + 4) 4 m.len)
  let hi ← m.readU32 (addr + 4)
  return lo.toUInt64 ||| (hi.toUInt64 <<< 32)

/-- Two 64-bit reads, the second eight bytes on, as a number below 2^128. -/
def readU128 (m : MemImage) (addr : UInt32) : Except Fault Nat := do
  let lo ← m.readU64 addr
  if addr.toNat + 8 > 0xffffffff then
    throw (Fault.outOfBounds .read [m.label] (addr.toNat + 8) 8 m.len)
  let hi ← m.readU64 (addr + 8)
  return lo.toNat + hi.toNat * Nat.pow 2 64

/-- The bytes from `addr` up to the first zero byte, as UTF-8. No zero byte within the readable
range is an out-of-bounds fault at the first address past it. -/
def readString (m : MemImage) (addr : UInt32) : Except Fault String :=
  let start := addr.toNat
  let limit := min m.len 0x100000000
  let stop := go start (limit - start)
  if stop ≥ limit then .error (Fault.outOfBounds .read [m.label] stop 1 m.len)
  else
    let data := m.bytes.extract start stop
    match String.fromUTF8? data with
    | some s => .ok s
    | none => .error (Fault.invalidUtf8 .read [m.label] data)
where
  /-- The first address from `i` holding a zero byte, or where the `fuel` addresses end. -/
  go (i : Nat) : Nat → Nat
    | 0 => i
    | fuel + 1 => if m.bytes[i]?.getD 1 = 0 then i else go (i + 1) fuel

def writeU8 (m : MemImage) (addr : UInt32) (v : UInt8) : Except Fault MemImage := do
  m.check .write addr 1
  return m.storeLE addr.toNat 1 v.toNat

def writeU16 (m : MemImage) (addr : UInt32) (v : UInt16) : Except Fault MemImage := do
  m.check .write addr 2
  return m.storeLE addr.toNat 2 v.toNat

def writeU32 (m : MemImage) (addr : UInt32) (v : UInt32) : Except Fault MemImage := do
  m.check .write addr 4
  return m.storeLE addr.toNat 4 v.toNat

def writeU64 (m : MemImage) (addr : UInt32) (v : UInt64) : Except Fault MemImage := do
  m.check .write addr 8
  return m.storeLE addr.toNat 8 v.toNat

/-- How many bytes are not zero. -/
def nonZero (m : MemImage) : Nat :=
  m.bytes.foldl (fun n b => if b = 0 then n else n + 1) 0

end MemImage

end WasmImage
