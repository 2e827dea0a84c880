import WasmImage.Engine.Operands
import WasmImage.Engine.Opcode
import WasmImage.Engine.Vector
import WasmImage.Text.Hex

/-!
Validating a function body as the reference engine does: one pass over the instructions, each
checked against the operand and block stacks and the module. Failures are text, the engine's; a
call to a function whose type index is out of range is a crash, as the engine indexes its types
without a check there.
-/

namespace WasmImage.Engine

open Wasm

/-- How a numeric instruction names an operand it cannot pop. -/
inductive OperandStyle where
  /-- Says "the operand". -/
  | plain
  /-- Says "the 1st i32 operand", "the 2nd i32 operand". -/
  | ordinalTyped
  /-- Says "the 1st operand", "the 2nd operand". -/
  | ordinal
  /-- Says "the i32 operand". -/
  | typed

/-- The text before the instruction name when operand `i` (from the top) of type `t` is missing. -/
def OperandStyle.prefixText (style : OperandStyle) (t : ValType) (i : Nat) : String :=
  let nth := if i = 0 then "1st" else "2nd"
  match style with
  | .plain => "cannot pop the operand for "
  | .ordinalTyped => "cannot pop the " ++ nth ++ " " ++ typeName t ++ " operand for "
  | .ordinal => "cannot pop the " ++ nth ++ " operand for "
  | .typed => "cannot pop the " ++ typeName t ++ " operand for "

/-- The operand types, result type and failure style of a numeric opcode. -/
def numericRule (op : UInt8) : Option (List ValType × ValType × OperandStyle) :=
  let i32 := ValType.i32
  let i64 := ValType.i64
  let f32 := ValType.f32
  let f64 := ValType.f64
  let n := op.toNat
  if n < 0x45 then none
  else if n = 0x45 then some ([i32], i32, .plain)
  else if n ≤ 0x4f then some ([i32, i32], i32, .ordinalTyped)
  else if n = 0x50 then some ([i64], i32, .plain)
  else if n ≤ 0x5a then some ([i64, i64], i32, .ordinalTyped)
  else if n ≤ 0x60 then some ([f32, f32], i32, .ordinalTyped)
  else if n ≤ 0x66 then some ([f64, f64], i32, .ordinalTyped)
  else if n ≤ 0x69 then some ([i32], i32, .typed)
  else if n ≤ 0x78 then some ([i32, i32], i32, .ordinal)
  else if n ≤ 0x7b then some ([i64], i64, .typed)
  else if n ≤ 0x8a then some ([i64, i64], i64, .ordinalTyped)
  else if n ≤ 0x91 then some ([f32], f32, .ordinalTyped)
  else if n ≤ 0x98 then some ([f32, f32], f32, .ordinalTyped)
  else if n ≤ 0x9f then some ([f64], f64, .ordinalTyped)
  else if n ≤ 0xa6 then some ([f64, f64], f64, .ordinalTyped)
  else if n = 0xa7 then some ([i64], i32, .plain)
  else if n ≤ 0xa9 then some ([f32], i32, .typed)
  else if n ≤ 0xab then some ([f64], i32, .typed)
  else if n ≤ 0xad then some ([i32], i64, .typed)
  else if n ≤ 0xaf then some ([f32], i64, .typed)
  else if n ≤ 0xb1 then some ([f64], i64, .typed)
  else if n ≤ 0xb3 then some ([i32], f32, .typed)
  else if n ≤ 0xb5 then some ([i64], f32, .typed)
  else if n = 0xb6 then some ([f64], f32, .plain)
  else if n ≤ 0xb8 then some ([i32], f64, .typed)
  else if n ≤ 0xba then some ([i64], f64, .typed)
  else if n = 0xbb then some ([f32], f64, .plain)
  else if n = 0xbc then some ([f32], i32, .plain)
  else if n = 0xbd then some ([f64], i64, .plain)
  else if n = 0xbe then some ([i32], f32, .plain)
  else if n = 0xbf then some ([i64], f64, .plain)
  else if n ≤ 0xc1 then some ([i32], i32, .plain)
  else if n ≤ 0xc4 then some ([i64], i64, .plain)
  else none

/-- The natural alignment (as a power of two), operand types and result of a memory access. -/
def memoryRule (op : UInt8) : Option (Nat × List ValType × Option ValType) :=
  let i32 := ValType.i32
  let i64 := ValType.i64
  match op with
  | 0x28 => some (2, [i32], some i32) | 0x29 => some (3, [i32], some i64)
  | 0x2a => some (2, [i32], some .f32) | 0x2b => some (3, [i32], some .f64)
  | 0x2c | 0x2d => some (0, [i32], some i32) | 0x2e | 0x2f => some (1, [i32], some i32)
  | 0x30 | 0x31 => some (0, [i32], some i64) | 0x32 | 0x33 => some (1, [i32], some i64)
  | 0x34 | 0x35 => some (2, [i32], some i64)
  | 0x36 => some (2, [i32, i32], none) | 0x37 => some (3, [i64, i32], none)
  | 0x38 => some (2, [.f32, i32], none) | 0x39 => some (3, [.f64, i32], none)
  | 0x3a => some (0, [i32, i32], none) | 0x3b => some (1, [i32, i32], none)
  | 0x3c => some (0, [i64, i32], none) | 0x3d => some (1, [i64, i32], none)
  | 0x3e => some (2, [i64, i32], none)
  | _ => none

/-- The type of a block: from its block-type immediate at `pos`, and where the immediate ends. -/
def blockType (types : Array FuncType) (body : ByteArray) (pos : Nat) :
    Except String (FuncType × Nat) :=
  match Scan.runAt Scan.s33 body pos with
  | (.error e, _) => .error ("read block: decode int33: " ++ e)
  | (.ok (raw, n), _) =>
    let single (t : ValType) : FuncType := ⟨[], [t]⟩
    let bt : Except String FuncType :=
      match raw with
      | -64 => .ok ⟨[], []⟩
      | -1 => .ok (single .i32)
      | -2 => .ok (single .i64)
      | -3 => .ok (single .f32)
      | -4 => .ok (single .f64)
      | -5 => .ok (single .v128)
      | -16 => .ok (single .funcref)
      | -17 => .ok (single .externref)
      | r =>
        if r < 0 then .error s!"read block: type index out of range: {r}"
        else match types[r.toNat]? with
          | some t => .ok t
          | none => .error s!"read block: type index out of range: {r}"
    (fun t => (t, pos + n)) <$> bt

/-- Pops the operands `ts`, the last one first, naming the failure by `context`. -/
def popTypes (s : Stacks) (ts : List ValType) (context : String → String) :
    Except String Stacks :=
  ts.reverse.foldlM (fun s t => (s.popType t).mapError context) s

/-- The type bytes of a list as the engine prints a list of bytes: `[127 126]`. -/
def byteList (ts : List Nat) : String := "[" ++ " ".intercalate (ts.map toString) ++ "]"

/-- The types a branch to `l` carries: a loop's parameters, any other block's results. -/
def Label.branchTypes (l : Label) : List ValType := if l.op == 0x03 then l.params else l.results

/-- A table branch: its labels, its default, then the operands each target takes. -/
def brTable (body : ByteArray) (pc : Nat) (s : Stacks) : Except String (Nat × Stacks) := do
  let (count, pos) ← readU32 body (pc + 1) "read immediate: "
  let mut pos := pos
  let mut targets : Array Nat := #[]
  for _ in [0:count] do
    let (l, p) ← readU32 body pos "read immediate: "
    targets := targets.push l
    pos := p
  let (ln, stop) ← readU32 body pos "read immediate: "
  let depth := s.labels.length
  if ln ≥ depth then
    throw s!"invalid ln param given for br_table: ln={ln} with {depth} for the current label stack length"
  let s ← (s.popType .i32).mapError fun _ => "cannot pop the required operand for br_table"
  let defaultTypes := ((s.labels[ln]?).map Label.branchTypes).getD []
  let mut dflt : Array Operand := (defaultTypes.map Operand.known).toArray
  let mut s := s
  for i in [0:dflt.size] do
    let index := dflt.size - 1 - i
    let exp := dflt[index]?.getD .any
    let (actual, s') ← s.pop
    s := s'
    if actual == .any then dflt := dflt.set! index .any
    else if actual != exp then
      let want := match exp with
        | .known t => t
        | .any => ⟨0xff⟩
      throw (mismatchError true "br_table" actual want i)
  for l in targets do
    let some label := s.labels[l]?
      | throw "invalid l param given for br_table"
    let tableTypes := label.branchTypes
    if dflt.size != tableTypes.length then
      throw (s!"inconsistent block type length for br_table at {l}; " ++
        byteList (dflt.toList.map (·.byte)) ++ s!" (ln={ln}) != " ++
        byteList (tableTypes.map (·.byte.toNat)) ++ s!" (l={l})")
    let tableArr := tableTypes.toArray
    for (d, i) in dflt.toList.zipIdx do
      if d != .any && some d != (tableArr[i]?).map Operand.known then
        throw s!"incosistent block type for br_table at {l}"
  return (stop, s.unreachable)

/-- The `0xfc` prefixed instructions. -/
def misc (c : CodeContext) (body : ByteArray) (pc : Nat) (s : Stacks) :
    Except String (Nat × Stacks) := do
  let (sub, pos) ← readU32 body (pc + 1) "failed to read misc opcode: "
  if sub > 255 then throw ("invalid misc opcode: 0x" ++ Hex.ofNat sub)
  let name := miscName sub
  let m := c.module
  let tableAt (idx : Nat) : Except String TableType :=
    match c.tables[idx]? with
    | some t => .ok t
    | none => .error s!"table of index {idx} not found"
  let popAll (s : Stacks) (ts : List ValType) : Except String Stacks :=
    ts.foldlM (fun s t => (s.popType t).mapError fun e =>
      "cannot pop the operand for " ++ name ++ ": " ++ e) s
  let reserved (pos : Nat) : Except String Nat := do
    let (v, p) ← readU32 body pos ("failed to read memory index for " ++ name ++ ": ")
    if v != 0 || p != pos + 1 then
      throw (name ++ " reserved byte must be zero encoded with 1 byte")
    return p
  let i32 := ValType.i32
  if sub ≤ 7 then
    let (inT, outT) : ValType × ValType := match sub with
      | 0 | 1 => (.f32, i32) | 2 | 3 => (.f64, i32) | 4 | 5 => (.f32, .i64) | _ => (.f64, .i64)
    let s ← (s.popType inT).mapError fun e => "cannot pop the operand for " ++ name ++ ": " ++ e
    return (pos, s.push outT)
  else if sub ≤ 14 then
    match sub with
    | 9 =>
      if m.dataCount.isNone then throw (name ++ " requires data count section")
      let (idx, pos) ← readU32 body pos ("failed to read data segment index for " ++ name ++ ": ")
      if idx ≥ m.data.size then
        throw s!"index {idx} out of range of data section(len={m.data.size})"
      return (pos, s)
    | 8 | 10 | 11 =>
      if c.memory.isNone then throw ("memory must exist for " ++ name)
      let mut pos := pos
      if sub == 8 then
        if m.dataCount.isNone then throw (name ++ " requires data count section")
        let (idx, p) ← readU32 body pos ("failed to read data segment index for " ++ name ++ ": ")
        if idx ≥ m.data.size then
          throw s!"index {idx} out of range of data section(len={m.data.size})"
        pos := p
      pos ← reserved pos
      if sub == 10 then pos ← reserved pos
      return (pos, ← popAll s [i32, i32, i32])
    | 12 =>
      let (elem, pos) ← readU32 body pos ("failed to read element segment index for " ++ name ++ ": ")
      let some seg := m.elements[elem]?
        | throw s!"index {elem} out of range of element section(len={m.elements.size})"
      let (tbl, pos) ← readU32 body pos ("failed to read source table index for " ++ name ++ ": ")
      let t ← tableAt tbl
      if seg.refType != t.refType then
        throw ("type mismatch for table.init: element type " ++ refTypeName seg.refType ++
          " does not match table type " ++ refTypeName t.refType)
      return (pos, ← popAll s [i32, i32, i32])
    | 13 =>
      let (elem, pos) ← readU32 body pos ("failed to read element segment index for " ++ name ++ ": ")
      if elem ≥ m.elements.size then
        throw s!"index {elem} out of range of element section(len={m.elements.size})"
      return (pos, s)
    | _ =>
      let (dst, pos) ← readU32 body pos ("failed to read destination table index for " ++ name ++ ": ")
      let dt ← tableAt dst
      let (src, pos) ← readU32 body pos ("failed to read source table index for " ++ name ++ ": ")
      let st ← tableAt src
      if st.refType != dt.refType then
        throw ("table type mismatch for table.copy: " ++ refTypeName st.refType ++ " (src) != " ++
          refTypeName dt.refType ++ " (dst)")
      return (pos, ← popAll s [i32, i32, i32])
  else if sub ≤ 17 then
    let (tbl, pos) ← readU32 body pos ("failed to read table index for " ++ name ++ ": ")
    let t ← tableAt tbl
    let rt : ValType := ⟨t.refType⟩
    match sub with
    | 15 => return (pos, (← popAll s [i32, rt]).push i32)
    | 16 => return (pos, s.push i32)
    | _ => return (pos, ← popAll s [i32, rt, i32])
  else throw ("unknown misc opcode 0x" ++ Hex.ofNat sub)

/-- Ends the innermost block: its results must be exactly what is above its mark. An `if` that
never met its `else` must give back its parameters as its results. -/
def endBlock (s : Stacks) : Except String Stacks := do
  let some (l, rest) := s.labels.head?.map (·, s.labels.tail)
    | throw "ill-nested block exists"
  let s := { s with labels := rest }
  if l.op == 0x04 && l.results != l.params then
    throw (countError false "else" (l.params.map .known) l.results)
  let context := if l.op != 0 then instrName l.op else ""
  let s ← requireValues false context l.results true s
  return (s.resetAtLimit.pushAll l.results).popLimit

/-- How the engine refuses an instruction of a feature it does not enable: the feature has no
name among those the engine prints, so its name is empty. -/
def disabledFeature : String := " invalid as feature \"\" is disabled"

/-- The refusal of the tail call `op`, checked after its operands. -/
def tailCallRefusal (op : UInt8) : String :=
  (if op == 0x12 then "return_call" else "return_call_indirect") ++ disabledFeature

/-- Validates the instruction at `pc` other than a direct call; where the next one starts, and
the stacks after it. -/
def plainStep (c : CodeContext) (body : ByteArray) (pc : Nat) (s : Stacks) :
    Except String (Nat × Stacks) := do
  let op := body[pc]!
  if let some (natural, operands, result) := memoryRule op then
    if c.memory.isNone then throw ("memory must exist for " ++ instrName op)
    let (align, pos) ← readU32 body (pc + 1) "read memory align: "
    let (_, pos) ← readU32 body pos "read memory offset: "
    if natural < align && align < 63 then throw "invalid memory alignment"
    let s ← operands.foldlM (fun s t => s.popType t) s
    return (pos, match result with
      | some t => s.push t
      | none => s)
  if let some (operands, result, style) := numericRule op then
    let mut s := s
    for (t, i) in operands.zipIdx do
      s ← (s.popType t).mapError fun e => style.prefixText t i ++ instrName op ++ ": " ++ e
    return (pc + 1, s.push result)
  match op with
  | 0x00 => return (pc + 1, s.unreachable)
  | 0x01 => return (pc + 1, s)
  | 0x02 | 0x03 | 0x04 =>
    let (bt, pos) ← blockType c.module.types body (pc + 1)
    let s := { s with labels := ⟨op, bt.params, bt.results, pc⟩ :: s.labels }
    let s ← if op == 0x04 then
        (s.popType .i32).mapError fun e => "cannot pop the operand for 'if': " ++ e
      else pure s
    let s ← requireValues true (instrName op) bt.params false s
    return (pos, (s.pushAll bt.params).pushLimit bt.params.length)
  | 0x05 =>
    let some l := s.labels.head?
      | throw "ill-nested block exists"
    if l.op != 0x04 then throw ("else instruction must be used in if block: 0x" ++ Hex.ofNat pc)
    let s := { s with labels := { l with op := 0x05 } :: s.labels.tail }
    let s ← requireValues false "if" l.results true s
    return (pc + 1, s.resetAtLimit.pushAll l.params)
  | 0x0b => return (pc + 1, ← endBlock s)
  | 0x0c =>
    let (idx, pos) ← readU32 body (pc + 1) "read immediate: "
    let some target := s.labels[idx]?
      | throw "invalid br operation: index out of range"
    let s ← requireValues false "br" target.branchTypes false s
    return (pos, s.unreachable)
  | 0x0d =>
    let (idx, pos) ← readU32 body (pc + 1) "read immediate: "
    let some target := s.labels[idx]?
      | throw s!"invalid ln param given for br_if: index={idx} with {s.labels.length} for the current label stack length"
    let s ← (s.popType .i32).mapError fun _ => "cannot pop the required operand for br_if"
    let s ← requireValues false "br_if" target.branchTypes false s
    return (pos, s.pushAll target.branchTypes)
  | 0x0e => brTable body pc s
  | 0x0f =>
    let s ← requireValues false "" c.type.results false s
    return (pc + 1, s.unreachable)
  | 0x11 | 0x13 =>
    let (typeIdx, pos) ← readU32 body (pc + 1) "read immediate: "
    let some t := c.module.types[typeIdx]?
      | throw s!"invalid type index at call_indirect: {typeIdx}"
    let (tableIdx, pos) ← readU32 body pos "read table index: "
    let some table := c.tables[tableIdx]?
      | throw s!"unknown table index: {tableIdx}"
    if table.refType != 0x70 then
      throw ("table is not funcref type but was " ++ refTypeName table.refType ++ " for call_indirect")
    let s ← (s.popType .i32).mapError fun _ => "cannot pop the offset in table for call_indirect"
    let s ← popTypes s t.params fun _ => "type mismatch on call_indirect operation input type"
    if op == 0x13 then throw (tailCallRefusal op)
    return (pos, s.pushAll t.results)
  | 0x1a =>
    let (_, s) ← s.pop.mapError fun e => "invalid drop: " ++ e
    return (pc + 1, s)
  | 0x1b | 0x1c =>
    let s ← (s.popType .i32).mapError fun e => "type mismatch on 3rd select operand: " ++ e
    let (v1, s) ← s.pop.mapError fun e => "invalid select: " ++ e
    let (v2, s) ← s.pop.mapError fun e => "invalid select: " ++ e
    if op == 0x1c then
      if body[pc + 1]! != 1 then throw "too many type immediates for typed_select"
      let t : ValType := ⟨body[pc + 2]!⟩
      if !(t.isNumeric || t == .v128 || t == .funcref || t == .externref) then
        throw ("invalid type " ++ typeName t ++ " for typed_select")
    else if v1.isRef || v2.isRef then
      throw "reference types cannot be used for non typed select instruction"
    if v1 != v2 && v1 != .any && v2 != .any then throw "type mismatch on 1st and 2nd select operands"
    let next := if op == 0x1c then pc + 3 else pc + 1
    return (next, { s with values := s.values.push (if v1 == .any then v2 else v1) })
  | 0x20 | 0x21 | 0x22 =>
    let (idx, pos) ← readU32 body (pc + 1) "read immediate: "
    let some t := c.localType? idx
      | throw ("invalid local index for " ++ instrName op ++ s!" {idx} >= {c.localCount}(=len(locals)+len(parameters))")
    if op == 0x20 then return (pos, s.push t)
    let s ← s.popType t
    return (pos, if op == 0x22 then s.push t else s)
  | 0x23 =>
    let (idx, pos) ← readU32 body (pc + 1) "read immediate: "
    let some g := c.globals[idx]?
      | throw "invalid index for global.get"
    return (pos, s.push g.valType)
  | 0x24 =>
    let (idx, pos) ← readU32 body (pc + 1) "read immediate: "
    let some g := c.globals[idx]?
      | throw "invalid global index"
    if !g.mutable then throw "global.set when not mutable"
    return (pos, ← s.popType g.valType)
  | 0x25 | 0x26 =>
    let (idx, pos) ← readU32 body (pc + 1) "read immediate: "
    let some table := c.tables[idx]?
      | throw s!"table of index {idx} not found"
    let rt : ValType := ⟨table.refType⟩
    if op == 0x25 then
      let s ← (s.popType .i32).mapError fun e => "cannot pop the operand for table.get: " ++ e
      return (pos, s.push rt)
    let s ← (s.popType rt).mapError fun e => "cannot pop the operand for table.set: " ++ e
    let s ← (s.popType .i32).mapError fun e => "cannot pop the operand for table.set: " ++ e
    return (pos, s)
  | 0x3f | 0x40 =>
    if c.memory.isNone then throw ("memory must exist for " ++ instrName op)
    let (v, pos) ← readU32 body (pc + 1) "read immediate: "
    if v != 0 || pos != pc + 2 then throw "memory instruction reserved bytes not zero with 1 byte"
    if op == 0x40 then return (pos, (← s.popType .i32).push .i32)
    return (pos, s.push .i32)
  | 0x41 =>
    match (Scan.runAt Scan.s32 body (pc + 1)).1 with
    | .ok (_, n) => return (pc + 1 + n, s.push .i32)
    | .error e => throw ("read i32 immediate: " ++ e)
  | 0x42 =>
    match (Scan.runAt Scan.s64 body (pc + 1)).1 with
    | .ok (_, n) => return (pc + 1 + n, s.push .i64)
    | .error e => throw ("read i64 immediate: " ++ e)
  | 0x43 => return (pc + 5, s.push .f32)
  | 0x44 => return (pc + 9, s.push .f64)
  | 0xd0 =>
    let t := body[pc + 1]!
    if t != 0x6f && t != 0x70 then throw ("unknown type for ref.null: 0x" ++ Hex.ofNat t.toNat)
    return (pc + 2, s.push ⟨t⟩)
  | 0xd1 =>
    let (v, s) ← s.pop.mapError fun e => "cannot pop the operand for ref.is_null: " ++ e
    if !v.isRef && v != .any then
      throw ("type mismatch: expected reference type but was " ++ v.name)
    return (pc + 1, s.push .i32)
  | 0xd2 =>
    let (idx, pos) ← readU32 body (pc + 1) "failed to read function index for ref.func: "
    if !c.declared.contains idx then throw s!"undeclared function index {idx} for ref.func"
    return (pos, s.push .funcref)
  | 0xfc => misc c body pc s
  | 0xfd => vectorStep c.memory.isSome body pc s
  | 0xfe => throw (atomicName body[pc + 1]! ++ disabledFeature)
  | op => throw ("invalid instruction 0x" ++ Hex.ofNat op.toNat)

/-- The type of function `idx` for a direct call. An index past the functions is invalid; a
function whose type index is past the types crashes the engine, which looks the type up
unchecked. -/
def callTarget (c : CodeContext) (idx : Nat) : Except Rejection FuncType :=
  match c.functions[idx]? with
  | none => .error (.invalid "invalid function index")
  | some t =>
    match c.module.types[t]? with
    | some ft => .ok ft
    | none => .error (.crash s!"runtime error: index out of range [{t}] with length {c.module.types.size}")

/-- Validates a direct call, `call` or `return_call`, at `pc`: the target's parameters are
popped and its results pushed; the tail call is then refused. -/
def callStep (c : CodeContext) (body : ByteArray) (pc : Nat) (s : Stacks) :
    Except Rejection (Nat × Stacks) := do
  let (idx, pos) ← (readU32 body (pc + 1) "read immediate: ").mapError .invalid
  let t ← callTarget c idx
  let s ← (popTypes s t.params fun e => "type mismatch on call operation param type: " ++ e).mapError
    .invalid
  if body[pc]! == 0x12 then throw (.invalid (tailCallRefusal 0x12))
  return (pos, s.pushAll t.results)

/-- Validates the instruction at `pc`; where the next one starts, and the stacks after it. -/
def step (c : CodeContext) (body : ByteArray) (pc : Nat) (s : Stacks) :
    Except Rejection (Nat × Stacks) :=
  let op := body[pc]!
  if op == 0x10 || op == 0x12 then callStep c body pc s
  else (plainStep c body pc s).mapError .invalid

/-- Validates a function body. -/
def validateBody (c : CodeContext) (body : ByteArray) : Except Rejection Unit := do
  let start : Stacks := { labels := [⟨0, c.type.params, c.type.results, 0⟩] }
  let s ← go start 0 (body.size + 1)
  if !s.labels.isEmpty then throw (.invalid "ill-nested block exists")
where
  go (s : Stacks) (pc : Nat) : Nat → Except Rejection Stacks
    | 0 => .ok s
    | fuel + 1 =>
      if pc ≥ body.size then .ok s
      else if s.labels.isEmpty then
        .error (.invalid ("unexpected end of function at pc=0x" ++ Hex.ofNat pc))
      else do
        let (next, s) ← step c body pc s
        go s (max next (pc + 1)) fuel

end WasmImage.Engine
