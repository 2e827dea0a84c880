/-!
The text names of WebAssembly instructions, as validation failures quote them: one table for
single-byte opcodes, one for the `0xfc` prefixed instructions and one for the `0xfe` prefixed
atomic instructions. An opcode without a name has the empty name.
-/

namespace WasmImage.Engine

/-- The names of the numeric opcodes from `0x45`, in order. -/
def numericNames : List String :=
  ["i32.eqz", "i32.eq", "i32.ne", "i32.lt_s", "i32.lt_u", "i32.gt_s", "i32.gt_u", "i32.le_s",
   "i32.le_u", "i32.ge_s", "i32.ge_u",
   "i64.eqz", "i64.eq", "i64.ne", "i64.lt_s", "i64.lt_u", "i64.gt_s", "i64.gt_u", "i64.le_s",
   "i64.le_u", "i64.ge_s", "i64.ge_u",
   "f32.eq", "f32.ne", "f32.lt", "f32.gt", "f32.le", "f32.ge",
   "f64.eq", "f64.ne", "f64.lt", "f64.gt", "f64.le", "f64.ge",
   "i32.clz", "i32.ctz", "i32.popcnt", "i32.add", "i32.sub", "i32.mul", "i32.div_s", "i32.div_u",
   "i32.rem_s", "i32.rem_u", "i32.and", "i32.or", "i32.xor", "i32.shl", "i32.shr_s", "i32.shr_u",
   "i32.rotl", "i32.rotr",
   "i64.clz", "i64.ctz", "i64.popcnt", "i64.add", "i64.sub", "i64.mul", "i64.div_s", "i64.div_u",
   "i64.rem_s", "i64.rem_u", "i64.and", "i64.or", "i64.xor", "i64.shl", "i64.shr_s", "i64.shr_u",
   "i64.rotl", "i64.rotr",
   "f32.abs", "f32.neg", "f32.ceil", "f32.floor", "f32.trunc", "f32.nearest", "f32.sqrt",
   "f32.add", "f32.sub", "f32.mul", "f32.div", "f32.min", "f32.max", "f32.copysign",
   "f64.abs", "f64.neg", "f64.ceil", "f64.floor", "f64.trunc", "f64.nearest", "f64.sqrt",
   "f64.add", "f64.sub", "f64.mul", "f64.div", "f64.min", "f64.max", "f64.copysign",
   "i32.wrap_i64", "i32.trunc_f32_s", "i32.trunc_f32_u", "i32.trunc_f64_s", "i32.trunc_f64_u",
   "i64.extend_i32_s", "i64.extend_i32_u", "i64.trunc_f32_s", "i64.trunc_f32_u",
   "i64.trunc_f64_s", "i64.trunc_f64_u",
   "f32.convert_i32_s", "f32.convert_i32_u", "f32.convert_i64_s", "f32.convert_i64_u",
   "f32.demote_f64",
   "f64.convert_i32_s", "f64.convert_i32_u", "f64.convert_i64_s", "f64.convert_i64_u",
   "f64.promote_f32",
   "i32.reinterpret_f32", "i64.reinterpret_f64", "f32.reinterpret_i32", "f64.reinterpret_i64",
   "i32.extend8_s", "i32.extend16_s", "i64.extend8_s", "i64.extend16_s", "i64.extend32_s"]

/-- The names of the memory opcodes from `0x28`, in order. -/
def memoryNames : List String :=
  ["i32.load", "i64.load", "f32.load", "f64.load", "i32.load8_s", "i32.load8_u", "i32.load16_s",
   "i32.load16_u", "i64.load8_s", "i64.load8_u", "i64.load16_s", "i64.load16_u", "i64.load32_s",
   "i64.load32_u", "i32.store", "i64.store", "f32.store", "f64.store", "i32.store8",
   "i32.store16", "i64.store8", "i64.store16", "i64.store32", "memory.size", "memory.grow",
   "i32.const", "i64.const", "f32.const", "f64.const"]

/-- The name of a single-byte opcode. -/
def instrName (op : UInt8) : String :=
  match op with
  | 0x00 => "unreachable" | 0x01 => "nop" | 0x02 => "block" | 0x03 => "loop" | 0x04 => "if"
  | 0x05 => "else" | 0x0b => "end" | 0x0c => "br" | 0x0d => "br_if" | 0x0e => "br_table"
  | 0x0f => "return" | 0x10 => "call" | 0x11 => "call_indirect" | 0x1a => "drop"
  | 0x1b => "select" | 0x1c => "typed_select" | 0x20 => "local.get" | 0x21 => "local.set"
  | 0x22 => "local.tee" | 0x23 => "global.get" | 0x24 => "global.set" | 0x25 => "table.get"
  | 0x26 => "table.set" | 0xd0 => "ref.null" | 0xd1 => "ref.is_null" | 0xd2 => "ref.func"
  | op =>
    if 0x28 ≤ op && op ≤ 0x44 then memoryNames.getD (op.toNat - 0x28) ""
    else if 0x45 ≤ op && op ≤ 0xc4 then numericNames.getD (op.toNat - 0x45) ""
    else ""

/-- The name of a `0xfc` prefixed instruction. -/
def miscName (sub : Nat) : String :=
  ["i32.trunc_sat_f32_s", "i32.trunc_sat_f32_u", "i32.trunc_sat_f64_s", "i32.trunc_sat_f64_u",
   "i64.trunc_sat_f32_s", "i64.trunc_sat_f32_u", "i64.trunc_sat_f64_s", "i64.trunc_sat_f64_u",
   "memory.init", "data.drop", "memory.copy", "memory.fill", "table.init", "elem.drop",
   "table.copy", "table.grow", "table.size", "table.fill"].getD sub ""

/-- The name of a `0xfe` prefixed atomic instruction. -/
def atomicName (sub : UInt8) : String :=
  match sub with
  | 0x00 => "memory.atomic.notify" | 0x01 => "memory.atomic.wait32"
  | 0x02 => "memory.atomic.wait64" | 0x03 => "atomic.fence"
  | 0x10 => "i32.atomic.load" | 0x11 => "i64.atomic.load" | 0x12 => "i32.atomic.load8_u"
  | 0x13 => "i32.atomic.load16_u" | 0x14 => "i64.atomic.load8_u" | 0x15 => "i64.atomic.load16_u"
  | 0x16 => "i64.atomic.load32_u" | 0x17 => "i32.atomic.store" | 0x18 => "i64.atomic.store"
  | 0x19 => "i32.atomic.store8" | 0x1a => "i32.atomic.store16" | 0x1b => "i64.atomic.store8"
  | 0x1c => "i64.atomic.store16" | 0x1d => "i64.atomic.store32"
  | 0x1e => "i32.atomic.rmw.add" | 0x1f => "i64.atomic.rmw.add"
  | 0x20 => "i32.atomic.rmw8.add_u" | 0x21 => "i32.atomic.rmw16.add_u"
  | 0x22 => "i64.atomic.rmw8.add_u" | 0x23 => "i64.atomic.rmw16.add_u"
  | 0x24 => "i64.atomic.rmw32.add_u"
  | 0x25 => "i32.atomic.rmw.sub" | 0x26 => "i64.atomic.rmw.sub"
  | 0x27 => "i32.atomic.rmw8.sub_u" | 0x28 => "i32.atomic.rmw16.sub_u"
  | 0x29 => "i64.atomic.rmw8.sub_u" | 0x2a => "i64.atomic.rmw16.sub_u"
  | 0x2b => "i64.atomic.rmw32.sub_u"
  | 0x2c => "i32.atomic.rmw.and" | 0x2d => "i64.atomic.rmw.and"
  | 0x2e => "i32.atomic.rmw8.and_u" | 0x2f => "i32.atomic.rmw16.and_u"
  | 0x30 => "i64.atomic.rmw8.and_u" | 0x31 => "i64.atomic.rmw16.and_u"
  | 0x32 => "i64.atomic.rmw32.and_u"
  | 0x33 => "i32.atomic.rmw.or" | 0x34 => "i64.atomic.rmw.or"
  | 0x35 => "i32.atomic.rmw8.or_u" | 0x36 => "i32.atomic.rmw16.or_u"
  | 0x37 => "i64.atomic.rmw8.or_u" | 0x38 => "i64.atomic.rmw16.or_u"
  | 0x39 => "i64.atomic.rmw32.or_u"
  | 0x3a => "i32.atomic.rmw.xor" | 0x3b => "i64.atomic.rmw.xor"
  | 0x3c => "i32.atomic.rmw8.xor_u" | 0x3d => "i32.atomic.rmw16.xor_u"
  | 0x3e => "i64.atomic.rmw8.xor_u" | 0x3f => "i64.atomic.rmw16.xor_u"
  | 0x40 => "i64.atomic.rmw32.xor_u"
  | 0x41 => "i32.atomic.rmw.xchg" | 0x42 => "i64.atomic.rmw.xchg"
  | 0x43 => "i32.atomic.rmw8.xchg_u" | 0x44 => "i32.atomic.rmw16.xchg_u"
  | 0x45 => "i64.atomic.rmw8.xchg_u" | 0x46 => "i64.atomic.rmw16.xchg_u"
  | 0x47 => "i64.atomic.rmw32.xchg_u"
  | 0x48 => "i32.atomic.rmw.cmpxchg" | 0x49 => "i64.atomic.rmw.cmpxchg"
  | 0x4a => "i32.atomic.rmw8.cmpxchg_u" | 0x4b => "i32.atomic.rmw16.cmpxchg_u"
  | 0x4c => "i64.atomic.rmw8.cmpxchg_u" | 0x4d => "i64.atomic.rmw16.cmpxchg_u"
  | 0x4e => "i64.atomic.rmw32.cmpxchg_u"
  | _ => ""

end WasmImage.Engine
