import WasmImage.Wasm.Module
import WasmImage.Wasm.Instr
import WasmImage.Ssa.Basic

/-!
The stack effects of instructions: how many operands an operator takes and the types of what it
leaves, for the numeric, load, store and bulk-memory families; the parameter and result types of
block types; and the zero constant that initialises a declared local of each type.
-/

namespace WasmImage.Ssa

open Wasm

/-- The effect of a numeric opcode: operand count and result types. -/
def numericEffect (op : UInt8) : Option (Nat × List ValType) :=
  let within (lo hi : UInt8) := lo ≤ op && op ≤ hi
  if op = 0x45 || op = 0x50 then some (1, [.i32])
  else if within 0x46 0x4f || within 0x51 0x5a || within 0x5b 0x60 || within 0x61 0x66 then
    some (2, [.i32])
  else if within 0x67 0x69 then some (1, [.i32])
  else if within 0x6a 0x78 then some (2, [.i32])
  else if within 0x79 0x7b then some (1, [.i64])
  else if within 0x7c 0x8a then some (2, [.i64])
  else if within 0x8b 0x91 then some (1, [.f32])
  else if within 0x92 0x98 then some (2, [.f32])
  else if within 0x99 0x9f then some (1, [.f64])
  else if within 0xa0 0xa6 then some (2, [.f64])
  else if op = 0xa7 || within 0xa8 0xab || op = 0xbc || op = 0xc0 || op = 0xc1 then
    some (1, [.i32])
  else if within 0xac 0xb1 || op = 0xbd || within 0xc2 0xc4 then some (1, [.i64])
  else if within 0xb2 0xb6 || op = 0xbe then some (1, [.f32])
  else if within 0xb7 0xbb || op = 0xbf then some (1, [.f64])
  else none

/-- The type a load opcode leaves. -/
def loadType (op : UInt8) : ValType :=
  if op = 0x28 || (0x2c ≤ op && op ≤ 0x2f) then .i32
  else if op = 0x2a then .f32
  else if op = 0x2b then .f64
  else .i64

/-- The effect of a 0xfc sub-opcode. -/
def miscEffect (sub : UInt32) : Nat × List ValType :=
  if sub ≤ 3 then (1, [.i32])
  else if sub ≤ 7 then (1, [.i64])
  else if sub = 9 || sub = 13 then (0, [])
  else if sub = 15 then (2, [.i32])
  else if sub = 16 then (0, [.i32])
  else (3, [])

/-- The zero constant of a declared local's type, if the type has one. -/
def zeroOperator (t : ValType) : Option Operator :=
  match t.byte with
  | 0x7f => some ⟨0x41, some (.i32 0)⟩
  | 0x7e => some ⟨0x42, some (.i64 0)⟩
  | 0x7d => some ⟨0x43, some (.f32 0)⟩
  | 0x7c => some ⟨0x44, some (.f64 0)⟩
  | 0x70 | 0x6f => some ⟨0xd0, some (.refNull t)⟩
  | _ => none

/-- The parameter and result types of a block type: none for -64, one value type for another
negative number, else the function type at that index. -/
def blockSignature (m : Module) (bt : Int64) : Option (List ValType × List ValType) :=
  if bt = -64 then some ([], [])
  else if bt < 0 then some ([], [⟨(bt.toUInt64 &&& 0x7f).toUInt8⟩])
  else match m.types[bt.toInt.toNat]? with
    | some ft => some (ft.params, ft.results)
    | none => none

end WasmImage.Ssa
