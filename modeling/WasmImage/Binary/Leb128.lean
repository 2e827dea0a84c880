import WasmImage.Binary.Cursor

/-!
LEB128 numbers: seven bits a byte, lowest group first, every byte but the last with its high bit
set. Readers take a width of 32, 33 or 64 bits: a number may use as many groups as that width
needs, bits above the width in the last group are dropped, and a signed number takes its sign
from the second-highest bit of its last group. Writers emit the shortest encoding.
-/

namespace WasmImage.Leb128

open Reader

/-- The groups of an unsigned number after those that made `acc`; the next group goes at
`shift`, and a number that still continues once `width` bits are covered overflows. -/
def readUnsignedFrom (width : Nat) (acc : UInt64) (shift : Nat) : Reader ReadFault UInt64 := do
  let b ← byte
  let acc := acc ||| ((b &&& 0x7f).toUInt64 <<< shift.toUInt64)
  if b &&& 0x80 = 0 then
    return acc
  else if h : width ≤ shift + 7 then
    throw (.overflow (← position))
  else
    readUnsignedFrom width acc (shift + 7)
termination_by width - shift

/-- The groups of a signed number after those that made `acc`; the last group's bit 6 is the
sign, copied into every bit above the groups read. -/
def readSignedFrom (width : Nat) (acc : UInt64) (shift : Nat) : Reader ReadFault UInt64 := do
  let b ← byte
  let acc := acc ||| ((b &&& 0x7f).toUInt64 <<< shift.toUInt64)
  if b &&& 0x80 = 0 then
    if shift + 7 < 64 ∧ b &&& 0x40 ≠ 0 then
      return acc ||| (~~~0 <<< (shift + 7).toUInt64)
    else
      return acc
  else if h : width ≤ shift + 7 then
    throw (.overflow (← position))
  else
    readSignedFrom width acc (shift + 7)
termination_by width - shift

/-- An unsigned 32-bit number; bits above 32 in a fifth group are dropped. -/
def readU32 : Reader ReadFault UInt32 := do
  return (← readUnsignedFrom 32 0 0).toUInt32

/-- An unsigned 64-bit number. -/
def readU64 : Reader ReadFault UInt64 :=
  readUnsignedFrom 64 0 0

/-- A signed 32-bit number, the low 32 bits of what its groups spell. -/
def readS32 : Reader ReadFault Int32 := do
  return (← readSignedFrom 32 0 0).toUInt32.toInt32

/-- A signed 33-bit number, as block types write them. -/
def readS33 : Reader ReadFault Int64 := do
  return (← readSignedFrom 33 0 0).toInt64

/-- A signed 64-bit number. -/
def readS64 : Reader ReadFault Int64 := do
  return (← readSignedFrom 64 0 0).toInt64

/-- The shortest unsigned encoding of `n`. -/
def unsigned (n : Nat) : List UInt8 :=
  if n < 128 then [n.toUInt8] else (n % 128 + 128).toUInt8 :: unsigned (n / 128)
termination_by n
decreasing_by omega

/-- The shortest signed encoding of `i`: groups stop once the rest of the number is all sign. -/
def signed (i : Int) : List UInt8 :=
  if (i / 128 = 0 ∧ i % 128 < 64) ∨ (i / 128 = -1 ∧ 64 ≤ i % 128) then
    [(i % 128).toNat.toUInt8]
  else
    ((i % 128).toNat + 128).toUInt8 :: signed (i / 128)
termination_by i.natAbs
decreasing_by
  rcases Int.natAbs_eq i with hi | hi <;> rcases Int.natAbs_eq (i / 128) with hj | hj <;> omega

end WasmImage.Leb128
