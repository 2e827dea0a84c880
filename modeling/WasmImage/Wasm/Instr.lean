import WasmImage.Binary.Leb128
import WasmImage.Wasm.Types
import WasmImage.Text.Hex

/-!
Instructions of a function body: each opcode with the immediate that follows it and the offset
where it starts. Decoding is by opcode family; an opcode outside the families known here is
unsupported, and a failure names the opcode and its offset.
-/

namespace WasmImage.Wasm

/-- The immediate operand of an instruction. -/
inductive Imm where
  /-- A block type: -64 for none, a negative value type, or a type index. -/
  | block (type : Int64)
  | branch (label : UInt32)
  | brTable (labels : List UInt32) (default : UInt32)
  | call (func : UInt32)
  | callIndirect (type table : UInt32)
  | localVar (idx : UInt32)
  | global (idx : UInt32)
  | table (idx : UInt32)
  /-- A memory access: alignment (multi-memory bit cleared), offset and memory. -/
  | memArg (align : UInt32) (offset : UInt64) (mem : UInt32)
  | memory (idx : UInt32)
  | i32 (v : Int32)
  | i64 (v : Int64)
  | f32 (bits : UInt32)
  | f64 (bits : UInt64)
  | selectTypes (types : List ValType)
  | refNull (type : ValType)
  | refFunc (func : UInt32)
  /-- A 0xfc-prefixed instruction: its sub-opcode and index operands. -/
  | misc (sub : UInt32) (operands : List UInt32)
  deriving DecidableEq, Repr

/-- An instruction: opcode, immediate, and the offset of its opcode in the body. -/
structure Instr where
  op : UInt8
  imm : Option Imm
  offset : Nat
  deriving DecidableEq, Repr

/-- Why an immediate could not be read. -/
inductive ImmFault where
  | read (f : ReadFault)
  | labelCount (n : UInt32)
  | unsupported
  | miscUnsupported (sub : UInt32)
  deriving DecidableEq, Repr

/-- The text of an immediate fault. -/
def ImmFault.message : ImmFault → String
  | .read f => f.message
  | .labelCount n => s!"br_table label count {n} exceeds body"
  | .unsupported => "unsupported opcode"
  | .miscUnsupported sub => "misc sub-opcode 0x" ++ Hex.padded 2 sub.toNat ++ ": unsupported opcode"

/-- A failure to decode an instruction: the opcode, its offset, and why. -/
structure InstrError where
  op : UInt8
  offset : Nat
  cause : ImmFault
  deriving DecidableEq, Repr

/-- The text of an instruction decoding failure. -/
def InstrError.message (e : InstrError) : String :=
  "opcode 0x" ++ Hex.byte e.op ++ s!" at offset {e.offset}: " ++ e.cause.message

/-- Whether the failure is an opcode outside the known families. -/
def InstrError.isUnsupported (e : InstrError) : Bool :=
  match e.cause with
  | .unsupported | .miscUnsupported _ => true
  | _ => false

namespace InstrDecode

open Reader

/-- A read whose faults are immediate faults. -/
abbrev Step := Reader ImmFault

def rd {α : Type} (r : Reader ReadFault α) : Step α := Reader.lift ImmFault.read r

def u32 : Step UInt32 := rd Leb128.readU32

/-- Reads `n` unsigned 32-bit numbers. -/
def u32s (n : Nat) : Step (List UInt32) := do
  let mut out := #[]
  for _ in [0:n] do
    out := out.push (← u32)
  return out.toList

/-- A memory access immediate: alignment, a memory index when bit 6 of the alignment is set,
then the offset. -/
def memArg : Step Imm := do
  let alignRaw ← u32
  let mem ← if alignRaw &&& 0x40 != 0 then u32 else pure 0
  let offset ← rd Leb128.readU64
  return .memArg (alignRaw &&& ~~~0x40) offset mem

/-- The number of index operands of a 0xfc sub-opcode, if it is one known here. -/
def miscArity (sub : UInt32) : Option Nat :=
  if sub ≤ 7 then some 0
  else if sub = 9 || sub = 11 || sub = 13 || sub = 15 || sub = 16 || sub = 17 then some 1
  else if sub = 8 || sub = 10 || sub = 12 || sub = 14 then some 2
  else none

/-- Whether an opcode stands alone, without an immediate. -/
def bare (op : UInt8) : Bool :=
  op ≤ 0x01 || op = 0x05 || op = 0x0b || op = 0x0f || op = 0x1a || op = 0x1b || op = 0xd1 ||
    (0x45 ≤ op && op ≤ 0xc4)

/-- The immediate of `op`. -/
def immediate (op : UInt8) : Step (Option Imm) :=
  match op with
  | 0x02 | 0x03 | 0x04 => do return some (.block (← rd Leb128.readS33))
  | 0x0c | 0x0d => do return some (.branch (← u32))
  | 0x0e => do
    let n ← u32
    if n.toNat > (← remaining) then throw (.labelCount n)
    let labels ← u32s n.toNat
    let default ← u32
    return some (.brTable labels default)
  | 0x10 | 0x12 => do return some (.call (← u32))
  | 0x11 | 0x13 => do
    let type ← u32
    let table ← u32
    return some (.callIndirect type table)
  | 0x1c => do
    let n ← u32
    let mut types := #[]
    for _ in [0:n.toNat] do
      types := types.push (ValType.mk (← rd byte))
    return some (.selectTypes types.toList)
  | 0x20 | 0x21 | 0x22 => do return some (.localVar (← u32))
  | 0x23 | 0x24 => do return some (.global (← u32))
  | 0x25 | 0x26 => do return some (.table (← u32))
  | 0x3f | 0x40 => do return some (.memory (← u32))
  | 0x41 => do return some (.i32 (← rd Leb128.readS32))
  | 0x42 => do return some (.i64 (← rd Leb128.readS64))
  | 0x43 => do return some (.f32 (← rd word32))
  | 0x44 => do return some (.f64 (← rd word64))
  | 0xd0 => do return some (.refNull (ValType.mk (← rd byte)))
  | 0xd2 => do return some (.refFunc (← u32))
  | 0xfc => do
    let sub ← u32
    match miscArity sub with
    | some n => return some (.misc sub (← u32s n))
    | none => throw (.miscUnsupported sub)
  | _ =>
    if 0x28 ≤ op && op ≤ 0x3e then some <$> memArg
    else if bare op then pure none
    else throw .unsupported

/-- Instructions until the bytes run out; every instruction reads its opcode byte, so `fuel`,
the number of bytes left, outlasts the input. -/
def instrsFrom (acc : Array Instr) : Nat → Reader InstrError (Array Instr)
  | 0 => return acc
  | fuel + 1 => do
    if (← remaining) = 0 then return acc
    let offset ← position
    let op ← Reader.lift (fun _ => InstrError.mk 0 offset (.read .endOfInput)) byte
    let imm ← Reader.lift (fun f => InstrError.mk op offset f) (immediate op)
    instrsFrom (acc.push { op, imm, offset }) fuel

end InstrDecode

/-- Decodes a function body's code into its instructions. -/
def Instr.decodeAll (code : ByteArray) : Except InstrError (List Instr) :=
  ((InstrDecode.instrsFrom #[] code.size).run code).1.map Array.toList

end WasmImage.Wasm
