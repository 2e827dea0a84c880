import WasmImage.Ssa.Basic
import WasmImage.Text.Hex

/-!
The text of a lowered body: each block's header with its typed parameters, one line per
operator, and its terminator. Operators are named by mnemonic for the common opcodes and by
number otherwise, and their immediates are written in a short form.
-/

namespace WasmImage.Ssa

open Wasm

/-- Mnemonics of the opcodes that have one here. -/
def mnemonic? (op : UInt8) : Option String :=
  match op with
  | 0x10 => "call" | 0x11 => "call_indirect" | 0x1b => "select" | 0x1c => "select"
  | 0x23 => "global.get" | 0x24 => "global.set" | 0x25 => "table.get" | 0x26 => "table.set"
  | 0x28 => "i32.load" | 0x29 => "i64.load" | 0x2a => "f32.load" | 0x2b => "f64.load"
  | 0x2c => "i32.load8_s" | 0x2d => "i32.load8_u" | 0x2e => "i32.load16_s"
  | 0x2f => "i32.load16_u" | 0x30 => "i64.load8_s" | 0x31 => "i64.load8_u"
  | 0x32 => "i64.load16_s" | 0x33 => "i64.load16_u" | 0x34 => "i64.load32_s"
  | 0x35 => "i64.load32_u" | 0x36 => "i32.store" | 0x37 => "i64.store" | 0x38 => "f32.store"
  | 0x39 => "f64.store" | 0x3a => "i32.store8" | 0x3b => "i32.store16" | 0x3c => "i64.store8"
  | 0x3d => "i64.store16" | 0x3e => "i64.store32" | 0x3f => "memory.size"
  | 0x40 => "memory.grow" | 0x41 => "i32.const" | 0x42 => "i64.const" | 0x43 => "f32.const"
  | 0x44 => "f64.const" | 0x45 => "i32.eqz" | 0x46 => "i32.eq" | 0x50 => "i64.eqz"
  | 0x51 => "i64.eq" | 0x6a => "i32.add" | 0x6b => "i32.sub" | 0x6c => "i32.mul"
  | 0x71 => "i32.and" | 0x72 => "i32.or" | 0x73 => "i32.xor" | 0x7c => "i64.add"
  | 0x7d => "i64.sub" | 0x7e => "i64.mul" | 0x83 => "i64.and" | 0x84 => "i64.or"
  | 0x85 => "i64.xor" | 0xa7 => "i32.wrap_i64" | 0xac => "i64.extend_i32_s"
  | 0xad => "i64.extend_i32_u" | 0xd0 => "ref.null" | 0xd1 => "ref.is_null" | 0xd2 => "ref.func"
  | _ => none

/-- The name of an operator: `misc.0xNN` for 0xfc instructions, a mnemonic, or `op.0xNN`. -/
def Operator.name (o : Operator) : String :=
  match o.op, o.imm with
  | 0xfc, some (.misc sub _) => "misc.0x" ++ Hex.padded 2 sub.toNat
  | op, _ => (mnemonic? op).getD ("op.0x" ++ Hex.byte op)

/-- The short text of an operator's immediate; empty for immediates not shown. -/
def Operator.immText (o : Operator) : String :=
  match o.imm with
  | some (.i32 v) => toString v.toInt
  | some (.i64 v) => toString v.toInt
  | some (.f32 b) => "0x" ++ Hex.padded 8 b.toNat
  | some (.f64 b) => "0x" ++ Hex.padded 16 b.toNat
  | some (.call f) => s!"func{f}"
  | some (.callIndirect t tb) => s!"type{t} table{tb}"
  | some (.global g) => s!"global{g}"
  | some (.table t) => s!"table{t}"
  | some (.memArg _ off mem) => if mem != 0 then s!"mem{mem} offset={off}" else s!"offset={off}"
  | some (.refFunc f) => s!"func{f}"
  | _ => ""

/-- Value numbers in parentheses. -/
def valueList (vs : List Nat) : String :=
  "(" ++ ", ".intercalate (vs.map fun v => s!"v{v}") ++ ")"

def Target.text (t : Target) : String :=
  s!"block{t.block}" ++ valueList t.args

def Terminator.text : Option Terminator → String
  | some (.ret vs) => "return " ++ valueList vs
  | some (.br t) => "br " ++ t.text
  | some (.condBr c t f) => s!"br_if v{c}, " ++ t.text ++ ", " ++ f.text
  | some (.select i ts d) =>
    s!"br_table v{i}, [" ++ ", ".intercalate (ts.map Target.text) ++ "], " ++ d.text
  | some .unreachable => "unreachable"
  | none => "<none>"

/-- The line of one operator value. -/
def Body.instLine (b : Body) (v : Nat) : String :=
  match b.values[v]? with
  | some (.operator o args types) =>
    let lhs := if types.isEmpty then "" else s!"v{v} = "
    let imm := o.immText
    "  " ++ lhs ++ o.name ++ (if imm.isEmpty then "" else " " ++ imm) ++
      (if args.isEmpty then "" else " " ++ valueList args) ++ "\n"
  | _ => "  op.0x00\n"

/-- The text of block `i`: header, operator lines, terminator line. -/
def Body.blockText (b : Body) (blk : Block) (i : Nat) : String :=
  let valueType (v : Nat) : String := ((b.values[v]?.map ValueDef.type).getD ⟨0⟩).name
  let params := ", ".intercalate (blk.params.toList.map fun p => s!"v{p}: " ++ valueType p)
  let header := s!"block{i}(" ++ params ++ "):" ++ (if i = b.entry then " ; entry" else "") ++ "\n"
  header ++ String.join (blk.insts.toList.map b.instLine) ++ "  " ++ Terminator.text blk.term ++ "\n"

/-- The text of a lowered body. -/
def Body.text (b : Body) : String :=
  String.join (b.blocks.toList.zipIdx.map fun (blk, i) => b.blockText blk i)

end WasmImage.Ssa
