import WasmImage.Binary.Leb128
import WasmImage.Wasm.Types
import WasmImage.Text.Hex

/-!
Evaluating constant expressions: constants, references, reads of known globals, and the
extended-constant additions, subtractions and multiplications of i32 and i64, run on a stack
until the end opcode, which must leave exactly one value.
-/

namespace WasmImage.Wasm

/-- The value of a constant expression: its type, its bits, and whether it is a null reference. -/
structure ConstValue where
  type : ValType
  bits : UInt64
  null : Bool := false
  deriving DecidableEq, Repr

/-- Answers `global.get`: the value of a global, if it is known. -/
abbrev GlobalLookup := UInt32 → Option ConstValue

/-- Why a constant expression has no value. -/
inductive ConstFault where
  | read (f : ReadFault)
  | missingEnd
  | leaves (n : Nat)
  /-- A global read whose value is not known. -/
  | notConstant
  | underflow
  | mismatch (a b : ValType)
  | unsupported (op : UInt8)
  deriving DecidableEq, Repr

/-- The text of a constant-expression fault. -/
def ConstFault.message : ConstFault → String
  | .read f => f.message
  | .missingEnd => "constant expression missing end"
  | .leaves n => s!"constant expression leaves {n} values"
  | .notConstant => "expression is not a compile-time constant"
  | .underflow => "constant expression stack underflow"
  | .mismatch a b => s!"constant expression operand mismatch: {a.name} vs {b.name}"
  | .unsupported op => "unsupported opcode 0x" ++ Hex.byte op ++ " in constant expression"

namespace ConstEval

open Reader

/-- A read whose faults are constant-expression faults. -/
abbrev Step := Reader ConstFault

def rd {α : Type} (r : Reader ReadFault α) : Step α := Reader.lift ConstFault.read r

/-- The two operands of a binary operator, top of the stack second, and the stack under them;
they must have one type. -/
def pop2 : List ConstValue → Except ConstFault (ConstValue × ConstValue × List ConstValue)
  | b :: a :: rest => if a.type = b.type then .ok (a, b, rest) else .error (.mismatch a.type b.type)
  | _ => .error .underflow

/-- The i32 operator `op` (0x6a add, 0x6b sub, otherwise mul) on the low 32 bits. -/
def i32Op (op : UInt8) (x y : UInt32) : UInt32 :=
  if op = 0x6a then x + y else if op = 0x6b then x - y else x * y

/-- The i64 operator `op` (0x7c add, 0x7d sub, otherwise mul). -/
def i64Op (op : UInt8) (x y : UInt64) : UInt64 :=
  if op = 0x7c then x + y else if op = 0x7d then x - y else x * y

/-- Runs opcodes on `stack` until the end opcode. Every step reads an opcode byte, so `fuel`,
the number of bytes left plus one, outlasts the input. -/
def evalFrom (globals : Option GlobalLookup) (stack : List ConstValue) :
    Nat → Step ConstValue
  | 0 => throw .missingEnd
  | fuel + 1 => do
    let op ← Reader.lift (fun _ => ConstFault.missingEnd) byte
    match op with
    | 0x0b =>
      match stack with
      | [v] => return v
      | _ => throw (.leaves stack.length)
    | 0x41 => do
      let v ← rd Leb128.readS32
      evalFrom globals (⟨.i32, v.toUInt32.toUInt64, false⟩ :: stack) fuel
    | 0x42 => do
      let v ← rd Leb128.readS64
      evalFrom globals (⟨.i64, v.toUInt64, false⟩ :: stack) fuel
    | 0x43 => do
      let v ← rd word32
      evalFrom globals (⟨.f32, v.toUInt64, false⟩ :: stack) fuel
    | 0x44 => do
      let v ← rd word64
      evalFrom globals (⟨.f64, v, false⟩ :: stack) fuel
    | 0xd0 => do
      let t ← rd byte
      evalFrom globals (⟨⟨t⟩, 0, true⟩ :: stack) fuel
    | 0xd2 => do
      let idx ← rd Leb128.readU32
      evalFrom globals (⟨.funcref, idx.toUInt64, false⟩ :: stack) fuel
    | 0x23 => do
      let idx ← rd Leb128.readU32
      match globals.bind (· idx) with
      | some v => evalFrom globals (v :: stack) fuel
      | none => throw .notConstant
    | 0x6a | 0x6b | 0x6c => do
      let (a, b, rest) ← liftExcept (pop2 stack)
      let r := i32Op op a.bits.toUInt32 b.bits.toUInt32
      evalFrom globals (⟨.i32, r.toUInt64, false⟩ :: rest) fuel
    | 0x7c | 0x7d | 0x7e => do
      let (a, b, rest) ← liftExcept (pop2 stack)
      evalFrom globals (⟨.i64, i64Op op a.bits b.bits, false⟩ :: rest) fuel
    | _ => throw (.unsupported op)
where
  liftExcept {α : Type} : Except ConstFault α → Step α
    | .ok a => pure a
    | .error e => throw e

end ConstEval

/-- The value of the constant expression at the start of `expr`; `globals` answers
`global.get`, and without it every global read is not constant. -/
def ConstValue.eval (expr : ByteArray) (globals : Option GlobalLookup) :
    Except ConstFault ConstValue :=
  ((ConstEval.evalFrom globals [] (expr.size + 1)).run expr).1

end WasmImage.Wasm
