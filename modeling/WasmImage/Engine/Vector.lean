import WasmImage.Engine.Operands

/-!
The vector instructions, written `0xfd` and then one byte that selects the instruction, as the
engine validates them. The engine reads the selecting byte as a single byte, so the rest of a
longer encoding is read as the instructions after it.

Each instruction has a shape: the immediates that follow it (a constant, a memory argument, lane
indices) and the operands it pops and pushes. A failure to pop names the instruction. A byte
that selects no instruction has the empty name and is refused.
-/

namespace WasmImage.Engine

open Wasm

/-- The names of the vector instructions by their selecting byte; a byte that selects none has
the empty name. -/
def vectorNames : Array String :=
  #["v128.load", "v128.load8x8_s", "v128.load8x8_u", "v128.load16x4_s", "v128.load16x4_u", "v128.load32x2_s",
   "v128.load32x2_u", "v128.load8_splat", "v128.load16_splat", "v128.load32_splat", "v128.load64_splat", "v128.store",
   "v128.const", "i8x16.shuffle", "i8x16.swizzle", "i8x16.splat", "i16x8.splat", "i32x4.splat",
   "i64x2.splat", "f32x4.splat", "f64x2.splat", "i8x16.extract_lane_s", "i8x16.extract_lane_u", "i8x16.replace_lane",
   "i16x8.extract_lane_s", "i16x8.extract_lane_u", "i16x8.replace_lane", "i32x4.extract_lane", "i32x4.replace_lane", "i64x2.extract_lane",
   "i64x2.replace_lane", "f32x4.extract_lane", "f32x4.replace_lane", "f64x2.extract_lane", "f64x2.replace_lane", "i8x16.eq",
   "i8x16.ne", "i8x16.lt_s", "i8x16.lt_u", "i8x16.gt_s", "i8x16.gt_u", "i8x16.le_s",
   "i8x16.le_u", "i8x16.ge_s", "i8x16.ge_u", "i16x8.eq", "i16x8.ne", "i16x8.lt_s",
   "i16x8.lt_u", "i16x8.gt_s", "i16x8.gt_u", "i16x8.le_s", "i16x8.le_u", "i16x8.ge_s",
   "i16x8.ge_u", "i32x4.eq", "i32x4.ne", "i32x4.lt_s", "i32x4.lt_u", "i32x4.gt_s",
   "i32x4.gt_u", "i32x4.le_s", "i32x4.le_u", "i32x4.ge_s", "i32x4.ge_u", "f32x4.eq",
   "f32x4.ne", "f32x4.lt", "f32x4.gt", "f32x4.le", "f32x4.ge", "f64x2.eq",
   "f64x2.ne", "f64x2.lt", "f64x2.gt", "f64x2.le", "f64x2.ge", "v128.not",
   "v128.and", "v128.andnot", "v128.or", "v128.xor", "v128.bitselect", "v128.any_true",
   "v128.load8_lane", "v128.load16_lane", "v128.load32_lane", "v128.load64_lane", "v128.store8_lane", "v128.store16_lane",
   "v128.store32_lane", "v128.store64_lane", "v128.load32_zero", "v128.load64_zero", "f32x4.demote_f64x2_zero", "f64x2.promote_low_f32x4",
   "i8x16.abs", "i8x16.neg", "i8x16.popcnt", "i8x16.all_true", "i8x16.bitmask", "i8x16.narrow_i16x8_s",
   "i8x16.narrow_i16x8_u", "f32x4.ceil", "f32x4.floor", "f32x4.trunc", "f32x4.nearest", "i8x16.shl",
   "i8x16.shr_s", "i8x16.shr_u", "i8x16.add", "i8x16.add_sat_s", "i8x16.add_sat_u", "i8x16.sub",
   "i8x16.sub_sat_s", "i8x16.sub_sat_u", "f64x2.ceil", "f64x2.floor", "i8x16.min_s", "i8x16.min_u",
   "i8x16.max_s", "i8x16.max_u", "f64x2.trunc", "i8x16.avgr_u", "i16x8.extadd_pairwise_i8x16_s", "i16x8.extadd_pairwise_i8x16_u",
   "i32x4.extadd_pairwise_i16x8_s", "i32x4.extadd_pairwise_i16x8_u", "i16x8.abs", "i16x8.neg", "i16x8.q15mulr_sat_s", "i16x8.all_true",
   "i16x8.bitmask", "i16x8.narrow_i32x4_s", "i16x8.narrow_i32x4_u", "i16x8.extend_low_i8x16_s", "i16x8.extend_high_i8x16_s", "i16x8.extend_low_i8x16_u",
   "i16x8.extend_high_i8x16_u", "i16x8.shl", "i16x8.shr_s", "i16x8.shr_u", "i16x8.add", "i16x8.add_sat_s",
   "i16x8.add_sat_u", "i16x8.sub", "i16x8.sub_sat_s", "i16x8.sub_sat_u", "f64x2.nearest", "i16x8.mul",
   "i16x8.min_s", "i16x8.min_u", "i16x8.max_s", "i16x8.max_u", "", "i16x8.avgr_u",
   "i16x8.extmul_low_i8x16_s", "i16x8.extmul_high_i8x16_s", "i16x8.extmul_low_i8x16_u", "i16x8.extmul_high_i8x16_u", "i32x4.abs", "i32x4.neg",
   "", "i32x4.all_true", "i32x4.bitmask", "", "", "i32x4.extend_low_i16x8_s",
   "i32x4.extend_high_i16x8_s", "i32x4.extend_low_i16x8_u", "i32x4.extend_high_i16x8_u", "i32x4.shl", "i32x4.shr_s", "i32x4.shr_u",
   "i32x4.add", "", "", "i32x4.sub", "", "",
   "", "i32x4.mul", "i32x4.min_s", "i32x4.min_u", "i32x4.max_s", "i32x4.max_u",
   "i32x4.dot_i16x8_s", "", "i32x4.extmul_low_i16x8_s", "i32x4.extmul_high_i16x8_s", "i32x4.extmul_low_i16x8_u", "i32x4.extmul_high_i16x8_u",
   "i64x2.abs", "i64x2.neg", "", "i64x2.all_true", "i64x2.bitmask", "",
   "", "i64x2.extend_low_i32x4_s", "i64x2.extend_high_i32x4_s", "i64x2.extend_low_i32x4_u", "i64x2.extend_high_i32x4_u", "i64x2.shl",
   "i64x2.shr_s", "i64x2.shr_u", "i64x2.add", "", "", "i64x2.sub",
   "", "", "", "i64x2.mul", "i64x2.eq", "i64x2.ne",
   "i64x2.lt_s", "i64x2.gt_s", "i64x2.le_s", "i64x2.ge_s", "i64x2.extmul_low_i32x4_s", "i64x2.extmul_high_i32x4_s",
   "i64x2.extmul_low_i32x4_u", "i64x2.extmul_high_i32x4_u", "f32x4.abs", "f32x4.neg", "", "f32x4.sqrt",
   "f32x4.add", "f32x4.sub", "f32x4.mul", "f32x4.div", "f32x4.min", "f32x4.max",
   "f32x4.pmin", "f32x4.pmax", "f64x2.abs", "f64x2.neg", "", "f64x2.sqrt",
   "f64x2.add", "f64x2.sub", "f64x2.mul", "f64x2.div", "f64x2.min", "f64x2.max",
   "f64x2.pmin", "f64x2.pmax", "i32x4.trunc_sat_f32x4_s", "i32x4.trunc_sat_f32x4_u", "f32x4.convert_i32x4_s", "f32x4.convert_i32x4_u",
   "i32x4.trunc_sat_f64x2_s_zero", "i32x4.trunc_sat_f64x2_u_zero", "f64x2.convert_low_i32x4_s", "f64x2.convert_low_i32x4_u"]

/-- The name of the vector instruction that `op` selects. -/
def vectorName (op : UInt8) : String := vectorNames.getD op.toNat ""

/-- What a vector instruction reads after its selecting byte and what it does to the operands. -/
inductive VectorShape where
  /-- Sixteen bytes of constant; pushes a vector. -/
  | const
  /-- A memory argument aligned to at most `maxAlign` bytes; pops an address, pushes a vector. -/
  | load (maxAlign : Nat)
  /-- A memory argument aligned to at most sixteen bytes; pops a vector and an address. -/
  | store
  /-- A memory argument aligned to at most `maxAlign` bytes and the index of one of `lanes`
  lanes; pops a vector and an address, and a load pushes the vector back. -/
  | lane (maxAlign lanes : Nat) (isLoad : Bool)
  /-- Sixteen lane indices below 32; pops two vectors, pushes one. -/
  | shuffle
  /-- The index of one of `lanes` lanes; pops a vector, pushes a `result`. -/
  | extractLane (lanes : Nat) (result : ValType)
  /-- The index of one of `lanes` lanes; pops an `operand` and a vector, pushes a vector. -/
  | replaceLane (lanes : Nat) (operand : ValType)
  /-- Pops an `operand`, pushes a vector. -/
  | splat (operand : ValType)
  /-- Pops a vector, pushes an `i32`. -/
  | test
  /-- Pops an `i32` shift count and a vector, pushes a vector. -/
  | shift
  /-- Pops `arity` vectors, pushes one. -/
  | lanewise (arity : Nat)
  deriving DecidableEq, Repr

/-- The shape of the vector instruction that `op` selects, if it selects one. -/
def vectorShape (op : UInt8) : Option VectorShape :=
  let n := op.toNat
  let unary := some (VectorShape.lanewise 1)
  let binary := some (VectorShape.lanewise 2)
  if vectorName op == "" then none
  else if n = 0x00 then some (.load 16)
  else if n ≤ 0x06 then some (.load 8)
  else if n ≤ 0x0a then some (.load (Nat.pow 2 (n - 0x07)))
  else if n = 0x0b then some .store
  else if n = 0x0c then some .const
  else if n = 0x0d then some .shuffle
  else if n = 0x0e then binary
  else if n ≤ 0x11 then some (.splat .i32)
  else if n = 0x12 then some (.splat .i64)
  else if n = 0x13 then some (.splat .f32)
  else if n = 0x14 then some (.splat .f64)
  else if n ≤ 0x16 then some (.extractLane 16 .i32)
  else if n = 0x17 then some (.replaceLane 16 .i32)
  else if n ≤ 0x19 then some (.extractLane 8 .i32)
  else if n = 0x1a then some (.replaceLane 8 .i32)
  else if n = 0x1b then some (.extractLane 4 .i32)
  else if n = 0x1c then some (.replaceLane 4 .i32)
  else if n = 0x1d then some (.extractLane 2 .i64)
  else if n = 0x1e then some (.replaceLane 2 .i64)
  else if n = 0x1f then some (.extractLane 4 .f32)
  else if n = 0x20 then some (.replaceLane 4 .f32)
  else if n = 0x21 then some (.extractLane 2 .f64)
  else if n = 0x22 then some (.replaceLane 2 .f64)
  else if n ≤ 0x4c then binary
  else if n = 0x4d then unary
  else if n ≤ 0x51 then binary
  else if n = 0x52 then some (.lanewise 3)
  else if n = 0x53 then some .test
  else if n ≤ 0x57 then some (.lane (Nat.pow 2 (n - 0x54)) (16 / Nat.pow 2 (n - 0x54)) true)
  else if n ≤ 0x5b then some (.lane (Nat.pow 2 (n - 0x58)) (16 / Nat.pow 2 (n - 0x58)) false)
  else if n = 0x5c then some (.load 4)
  else if n = 0x5d then some (.load 8)
  else if n ≤ 0x62 then unary
  else if n ≤ 0x64 then some .test
  else if n ≤ 0x66 then binary
  else if n ≤ 0x6a then unary
  else if n ≤ 0x6d then some .shift
  else if n ≤ 0x73 then binary
  else if n ≤ 0x75 then unary
  else if n ≤ 0x79 then binary
  else if n = 0x7a then unary
  else if n = 0x7b then binary
  else if n ≤ 0x81 then unary
  else if n = 0x82 then binary
  else if n ≤ 0x84 then some .test
  else if n ≤ 0x86 then binary
  else if n ≤ 0x8a then unary
  else if n ≤ 0x8d then some .shift
  else if n ≤ 0x93 then binary
  else if n = 0x94 then unary
  else if n ≤ 0x9f then binary
  else if n ≤ 0xa1 then unary
  else if n ≤ 0xa4 then some .test
  else if n ≤ 0xaa then unary
  else if n ≤ 0xad then some .shift
  else if n ≤ 0xbf then binary
  else if n ≤ 0xc1 then unary
  else if n ≤ 0xc4 then some .test
  else if n ≤ 0xca then unary
  else if n ≤ 0xcd then some .shift
  else if n ≤ 0xdf then binary
  else if n ≤ 0xe3 then unary
  else if n ≤ 0xeb then binary
  else if n ≤ 0xef then unary
  else if n ≤ 0xf7 then binary
  else unary

/-- Validates the vector instruction whose prefix is at `pc`: where the next instruction starts,
and the stacks after it. Alignments are compared as the engine compares them: for loads and lane
accesses in 32 bits, where an alignment of 32 or more is no alignment at all, and for the store in
64 bits, where one of 63 or more is none. -/
def vectorStep (memory : Bool) (body : ByteArray) (pc : Nat) (s : Stacks) :
    Except String (Nat × Stacks) := do
  let op := body[pc + 1]!
  let name := vectorName op
  let pop (s : Stacks) (t : ValType) : Except String Stacks :=
    (s.popType t).mapError fun e => "cannot pop the operand for " ++ name ++ ": " ++ e
  let memArg (within : Nat → Bool) : Except String (Nat × Nat) := do
    if !memory then throw ("memory must exist for " ++ name)
    let (align, pos) ← readU32 body (pc + 2) "read memory align: "
    let (_, pos) ← readU32 body pos "read memory offset: "
    if !within align then throw (s!"invalid memory alignment {align} for " ++ name)
    return (align, pos)
  let laneIndex (at_ lanes : Nat) : Except String Unit := do
    if at_ ≥ body.size then throw ("lane for " ++ name ++ " not found")
    let l := body[at_]!.toNat
    if l ≥ lanes then throw (s!"invalid lane index {l} >= {lanes} for " ++ name)
  let some shape := vectorShape op | throw ("unknown SIMD instruction " ++ name)
  match shape with
  | .const =>
    if pc + 17 ≥ body.size then throw ("cannot read constant vector value for " ++ name)
    return (pc + 18, s.push .v128)
  | .load maxAlign =>
    let (_, pos) ← memArg fun a => a ≥ 32 || Nat.pow 2 a ≤ maxAlign
    return (pos, (← pop s .i32).push .v128)
  | .store =>
    let (_, pos) ← memArg fun a => a ≥ 63 || Nat.pow 2 a ≤ 16
    let s ← pop s .v128
    return (pos, ← pop s .i32)
  | .lane maxAlign lanes isLoad =>
    let (_, pos) ← memArg fun a => a ≥ 32 || Nat.pow 2 a ≤ maxAlign
    laneIndex pos lanes
    let s ← pop s .v128
    let s ← pop s .i32
    return (pos + 1, if isLoad then s.push .v128 else s)
  | .shuffle =>
    if pc + 17 ≥ body.size then throw ("16 lane indexes for " ++ name ++ " not found")
    for i in [0:16] do
      let l := body[pc + 2 + i]!.toNat
      if l ≥ 32 then throw (s!"invalid lane index[{i}] {l} >= 32 for " ++ name)
    let s ← pop s .v128
    let s ← pop s .v128
    return (pc + 18, s.push .v128)
  | .extractLane lanes result =>
    laneIndex (pc + 2) lanes
    return (pc + 3, (← pop s .v128).push result)
  | .replaceLane lanes operand =>
    laneIndex (pc + 2) lanes
    let s ← pop s operand
    return (pc + 3, (← pop s .v128).push .v128)
  | .splat operand => return (pc + 2, (← pop s operand).push .v128)
  | .test => return (pc + 2, (← pop s .v128).push .i32)
  | .shift =>
    let s ← pop s .i32
    return (pc + 2, (← pop s .v128).push .v128)
  | .lanewise arity =>
    let s ← (List.replicate arity ValType.v128).foldlM pop s
    return (pc + 2, s.push .v128)

end WasmImage.Engine
