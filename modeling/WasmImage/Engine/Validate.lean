import WasmImage.Engine.Decode
import WasmImage.Engine.Code

/-!
Validating a decoded module as the reference engine does, in its order: the start function, the
imports, the globals' initializers, the memory and the data offsets, the exports, every function
body, the element segments, and last the data count. The first failure is the answer; its text
is the engine's.

A constant expression may read only imported globals. A function body failure names the function
by its position in the function section and, when it is exported, by its export names in
quotes, sorted.
-/

namespace WasmImage.Engine

open Wasm

namespace Validate

/-- The type of a constant expression reading the globals `globals` among `funcs` functions. -/
def constType (globals : Array GlobalType) (funcs : Nat) (e : ConstInstr) : Except String ValType :=
  let u32 := Decode.immediateU32 e.data
  match e.opcode with
  | 0x41 => .ok .i32
  | 0x42 => .ok .i64
  | 0x43 => .ok .f32
  | 0x44 => .ok .f64
  | 0x23 =>
    match globals[u32]? with
    | some g => .ok g.valType
    | none => .error "global index out of range"
  | 0xd0 =>
    let t := e.data[0]?.getD 0
    if t != 0x70 && t != 0x6f then .error ("invalid type for ref.null: 0x" ++ Hex.ofNat t.toNat)
    else .ok ⟨t⟩
  | 0xd2 =>
    if u32 ≥ funcs then
      .error s!"ref.func index out of range [{u32}] with length {(funcs + Nat.pow 2 32 - 1) % Nat.pow 2 32}"
    else .ok .funcref
  | 0x0c => .ok .v128
  | op => .error ("invalid opcode for const expression: 0x" ++ Hex.ofNat op.toNat)

/-- Checks a constant expression's type against `expected`. -/
def constExpr (globals : Array GlobalType) (funcs : Nat) (e : ConstInstr) (expected : ValType) :
    Except String Unit := do
  let actual ← constType globals funcs e
  if actual != expected then
    throw ("const expression type mismatch expected " ++ typeName expected ++ " but got " ++
      typeName actual)

/-- The description of function `idx` of the function section in failures. -/
def funcDesc (m : Module) (idx : Nat) : String :=
  let funcIdx := idx + m.importedFuncs.size
  let names := (m.exports.filter fun e => e.kind == 0 && e.index == funcIdx).toList.map
    fun e => Quote.quote e.name
  let sorted := names.mergeSort fun a b => decide (a ≤ b)
  if sorted.isEmpty then s!"function[{idx}]"
  else s!"function[{idx}] export[" ++ ",".intercalate sorted ++ "]"

/-- The functions that `ref.func` may name: exported functions, functions global initializers
name, and the codes of the entries of element segments other than null. A global entry's code
counts too, as the number it is. -/
def declared (m : Module) : Array Nat :=
  let exported := (m.exports.filter (·.kind == 0)).map (·.index)
  let fromGlobals := m.globals.filterMap fun g =>
    if g.init.opcode == 0xd2 then some (Decode.immediateU32 g.init.data) else none
  let fromElements := m.elements.toList.flatMap fun e =>
    (e.init.filter (· != .null)).map ElemInit.code
  exported ++ fromGlobals ++ fromElements.toArray

/-- Checks the start function. -/
def start (m : Module) : Except String Unit :=
  match m.start with
  | none => .ok ()
  | some f =>
    match m.typeOf? f with
    | none => .error s!"invalid start function: func[{f}] has an invalid type"
    | some t =>
      if t.params.isEmpty && t.results.isEmpty then .ok ()
      else .error (s!"invalid start function: func[{f}] must have an empty (nullary) signature: " ++
        FuncType.key t)

/-- Checks the imports. -/
def imports (m : Module) : Except String Unit := do
  for h : i in [0:m.imports.size] do
    let imp := m.imports[i]
    if imp.module.isEmpty then throw s!"import[{i}] has an empty module name"
    if let .func t := imp.desc then
      if t ≥ m.types.size then
        throw ("invalid import[" ++ Quote.quote imp.module ++ "." ++ Quote.quote imp.name ++
          "] function: type index out of range")

/-- Checks the exports against what the module declares. -/
def exports (m : Module) (memory : Option MemoryType) : Except String Unit := do
  let functions := m.functions.size
  let globals := m.globalTypes.size
  let tables := m.allTables.size
  for e in m.exports do
    let name := Quote.quote e.name
    match e.kind with
    | 0 => if e.index ≥ functions then throw ("unknown function for export[" ++ name ++ "]")
    | 3 => if e.index ≥ globals then throw ("unknown global for export[" ++ name ++ "]")
    | 2 => if e.index > 0 || memory.isNone then throw ("memory for export[" ++ name ++ "] out of range")
    | 1 => if e.index ≥ tables then throw ("table for export[" ++ name ++ "] out of range")
    | _ => pure ()

/-- Checks every function body, in order; each function's own type index is checked when its
turn comes. -/
def functions (m : Module) (memory : Option MemoryType) : Except Rejection Unit := do
  let some code := m.code | return ()
  if m.funcs.isEmpty && code.isEmpty then return ()
  if code.size != m.funcs.size then
    throw (.invalid s!"code count ({code.size}) != function count ({m.funcs.size})")
  let declared := declared m
  for h : idx in [0:m.funcs.size] do
    let typeIdx := m.funcs[idx]
    let some type := m.types[typeIdx]?
      | throw (.invalid ("invalid " ++ funcDesc m idx ++ s!": type section index {typeIdx} out of range"))
    let some c := code[idx]? | return ()
    let ctx : CodeContext := {
      module := m, functions := m.functions, globals := m.globalTypes, memory,
      tables := m.allTables, declared, type, locals := c.locals }
    match validateBody ctx c.body with
    | .ok () => pure ()
    | .error (.invalid e) => throw (.invalid ("invalid " ++ funcDesc m idx ++ ": " ++ e))
    | .error (.crash t) => throw (.crash t)

/-- Checks that global `idx`, read by an element offset, is an imported `i32` global. -/
def importedI32 (m : Module) (segment idx : Nat) : Except String Unit := do
  let mut seen := 0
  for h : i in [0:m.imports.size] do
    if let .global g := m.imports[i].desc then
      if seen == idx then
        if g.valType != .i32 then
          throw s!"element[{segment}] (global.get {idx}): import[{i}].global.ValType != i32"
        return ()
      seen := seen + 1
  throw s!"element[{segment}] (global.get {idx}): out of range of imported globals"

/-- Checks the element segments. -/
def elements (m : Module) : Except String Unit := do
  let tables := m.allTables
  let funcCount := m.importedFuncs.size + m.funcs.size
  let globalCount := m.importedGlobals.size + m.globals.size
  for h : i in [0:m.elements.size] do
    let e := m.elements[i]
    for (init, ei) in e.init.zipIdx do
      match init with
      | .null => pure ()
      | .global _ =>
        let g := ElemInit.globalIndex init.code
        if g ≥ globalCount then throw s!"element[{i}].init[{ei}] global index {g} out of range"
      | .func f =>
        if e.refType == 0x6f then throw s!"element[{i}].init[{ei}] must be ref.null but was {f}"
        if f ≥ funcCount then throw s!"element[{i}].init[{ei}] func index {f} out of range"
    if e.mode == .active then
      let some t := tables[e.tableIdx]?
        | throw s!"unknown table {e.tableIdx} as active element target"
      if t.refType != e.refType then
        throw ("element type mismatch: table has " ++ refTypeName t.refType ++
          " but element has " ++ refTypeName e.refType)
      match e.offset with
      | some off =>
        if off.opcode == 0x23 then importedI32 m i (Decode.immediateU32 off.data)
        else if off.opcode != 0x41 then
          throw (s!"element[{i}] has an invalid const expression: " ++ instrName off.opcode)
      | none => pure ()

end Validate

/-- Validates a decoded module. -/
def Module.validate (m : Module) : Except Rejection Unit := do
  let invalid {α : Type} (r : Except String α) : Except Rejection α := r.mapError .invalid
  invalid (Validate.start m)
  let memory ← match m.memory, m.importedMemory with
    | some _, some _ => throw (.invalid "at most one table allowed in module")
    | own, imported => pure (own <|> imported)
  invalid (Validate.imports m)
  let importedGlobals := m.importedGlobals
  let funcCount := m.functions.size
  for g in m.globals do
    invalid (Validate.constExpr importedGlobals funcCount g.init g.type.valType)
  if memory.isNone && m.data.any (!·.passive) then throw (.invalid "unknown memory")
  for d in m.data do
    if let some off := d.offset then
      invalid ((Validate.constExpr importedGlobals 0 off .i32).mapError ("calculate offset: " ++ ·))
  invalid (Validate.exports m memory)
  Validate.functions m memory
  invalid (Validate.elements m)
  if let some n := m.dataCount then
    if n != m.data.size then
      throw (.invalid s!"data count section ({n}) doesn't match the length of data section ({m.data.size})")

/-- Decodes and validates a module binary: what the engine calls compiling it. -/
def Module.compile (cfg : Config) (bytes : ByteArray) : Except Rejection Module := do
  let m ← (Module.decode cfg bytes).mapError .invalid
  m.validate
  return m

end WasmImage.Engine
