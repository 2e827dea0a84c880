import WasmImage.Engine.Decode
import WasmImage.Image.Memory

/-!
What an instance of a module holds: its live memory and the values of its globals. The live
memory can be read, written and grown.

Live accesses are bounds-checked on 64-bit sums, so no access wraps around the address space.
Growing by zero pages always succeeds; growing past the memory's maximum, or by a delta with its
top bit set, fails and changes nothing.
-/

namespace WasmImage.Engine

open Wasm

/-- The memory of an instance: its bytes and the most pages it may grow to. -/
structure LiveMemory where
  bytes : ByteArray
  max : Nat

namespace LiveMemory

/-- The size in bytes, as a 32-bit count. -/
def size (m : LiveMemory) : Nat := m.bytes.size % Nat.pow 2 32

/-- The size in pages. -/
def pages (m : LiveMemory) : Nat := m.bytes.size / pageSize

/-- Whether `count` bytes at `offset` are in the memory. -/
def holds (m : LiveMemory) (offset count : Nat) : Bool := offset + count ≤ m.bytes.size

/-- The `count` bytes at `offset`. -/
def read? (m : LiveMemory) (offset count : Nat) : Option ByteArray :=
  if m.holds offset count then some (m.bytes.extract offset (offset + count)) else none

/-- Writes `data` at `offset`. -/
def write? (m : LiveMemory) (offset : Nat) (data : ByteArray) : Option LiveMemory :=
  if m.holds offset data.size then
    some { m with bytes := data.copySlice 0 m.bytes offset data.size }
  else none

/-- The little-endian number in the `n` bytes at `offset`. -/
def readLE? (m : LiveMemory) (offset n : Nat) : Option Nat :=
  (m.read? offset n).map Reader.littleEndian

/-- Writes the `n` little-endian bytes of `v` at `offset`. -/
def writeLE? (m : LiveMemory) (offset n v : Nat) : Option LiveMemory :=
  m.write? offset ⟨((List.range n).map fun i => (v / Nat.pow 256 i).toUInt8).toArray⟩

/-- Grows the memory by `delta` pages: the pages it had, and the grown memory. -/
def grow? (m : LiveMemory) (delta : Nat) : Option (Nat × LiveMemory) :=
  let current := m.pages
  if delta = 0 then some (current, m)
  else
    let next := (current + delta) % Nat.pow 2 32
    if next > m.max || delta ≥ Nat.pow 2 31 then none
    else some (current, { m with bytes := m.bytes ++ MemImage.zeroBytes (delta * pageSize) })

end LiveMemory

/-- An instance: its memory, if it has one, and the values of its own globals as 64-bit words. -/
structure Instance where
  memory : Option LiveMemory
  globals : Array UInt64

/-- The initial value of a constant expression as a 64-bit word. A null reference is zero; a
function reference is the function's index plus one. -/
def ConstInstr.word (e : ConstInstr) : UInt64 :=
  match e.opcode with
  | 0x41 =>
    match (Scan.runAt Scan.s32 e.data 0).1 with
    | .ok (v, _) => (v % Nat.pow 2 32).toNat.toUInt64
    | .error _ => 0
  | 0x42 =>
    match (Scan.runAt Scan.s64 e.data 0).1 with
    | .ok (v, _) => (v % Nat.pow 2 64).toNat.toUInt64
    | .error _ => 0
  | 0x43 | 0x44 | 0x0c => (Reader.littleEndian (e.data.extract 0 8)).toUInt64
  | 0xd2 => (Decode.immediateU32 e.data + 1).toUInt64
  | _ => 0

end WasmImage.Engine
