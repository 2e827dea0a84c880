import WasmImage.View.Basic
import WasmImage.Wasm.ConstExpr
import WasmImage.Wasm.Decode

/-!
Resolving a decoded module into its view. Imports take the next index of their kind; defined
entries follow. A defined global's initializer may read earlier globals whose value is known;
data and element offsets may read any global whose value is known. Active data segments are
added to their memory, and active segments of funcref tables write their functions into the
table's slots, later segments over earlier ones.
-/

namespace WasmImage.View

open Wasm

/-- The value of global `idx` for constant expressions, if it is known. -/
def knownGlobal (globals : Array GlobalData) (idx : UInt32) : Option ConstValue := do
  let g ← globals[idx.toNat]?
  let bits ← g.value
  return { type := g.type, bits }

/-- A memory with these limits and no segments yet. -/
def MemoryData.ofLimits (l : Limits) (imported : Bool) : MemoryData :=
  { initialPages := l.min, maxPages := l.max, imported, memory64 := l.memory64 }

/-- A table of this type with no slots written yet. -/
def TableData.ofType (t : TableType) (imported : Bool) : TableData :=
  { initial := t.limits.min, elemType := t.elemType, imported }

/-- Adds the view entry of one import. -/
def addImport (v : View) (imp : Import) : View :=
  match imp.desc with
  | .func t =>
    { v with funcs := v.funcs.push ⟨t, true⟩,
             imports := v.imports.push ⟨imp.module, imp.name, v.funcs.size.toUInt32, .func⟩ }
  | .table t =>
    { v with tables := v.tables.push (.ofType t true),
             imports := v.imports.push ⟨imp.module, imp.name, v.tables.size.toUInt32, .table⟩ }
  | .memory l =>
    { v with memories := v.memories.push (.ofLimits l true),
             imports := v.imports.push ⟨imp.module, imp.name, v.memories.size.toUInt32, .memory⟩ }
  | .global g =>
    { v with globals := v.globals.push ⟨g.valType, g.mutable, true, none⟩,
             imports := v.imports.push ⟨imp.module, imp.name, v.globals.size.toUInt32, .global⟩ }

/-- Adds defined global `i`: its value is known when its initializer evaluates, over the globals
before it, to a number of its own type. A failure other than an unknown global is a fault. -/
def addGlobal (v : View) (i : Nat) (g : Global) : Except Fault View := do
  let value ← match ConstValue.eval g.init (some (knownGlobal v.globals)) with
    | .ok c => pure (if c.type.isNumeric && c.type == g.type.valType then some c.bits else none)
    | .error .notConstant => pure none
    | .error e => throw (Fault.wrap .resolve .invalidData e.message
        s!"initializer of defined global {i}" |>.atPath ["global", toString v.globals.size])
  let entry : GlobalData := { type := g.type.valType, mutable := g.type.mutable, imported := false, value }
  return { v with globals := v.globals.push entry }

/-- The offset of an active segment: an i32 read as unsigned, or an i64. -/
def offset (v : View) (expr : ByteArray) (path : List String) : Except Fault UInt64 :=
  match ConstValue.eval expr (some (knownGlobal v.globals)) with
  | .error e =>
    .error (Fault.wrap .resolve (if e = .notConstant then .unsupported else .invalidData) e.message
      "segment offset" |>.atPath path)
  | .ok c =>
    if c.type == .i32 then .ok (c.bits &&& 0xffffffff)
    else if c.type == .i64 then .ok c.bits
    else .error (Fault.invalidData .resolve path ("segment offset of type " ++ c.type.name))

/-- Adds active data segment `i` to its memory. -/
def addData (v : View) (i : Nat) (seg : DataSegment) : Except Fault View := do
  if !seg.isActive then return v
  let path := ["data", toString i]
  if seg.memIdx.toNat ≥ v.memories.size then
    throw (Fault.invalidData .resolve path s!"memory {seg.memIdx} does not exist")
  let off ← v.offset (seg.offset.getD ByteArray.empty) path
  let fill (m : MemoryData) : MemoryData := { m with segments := m.segments.push ⟨off, seg.init⟩ }
  return { v with memories := v.memories.modify seg.memIdx.toNat fill }

/-- The functions an element segment lists; a null reference is the invalid id. -/
def elementFuncs (e : Element) (path : List String) : Except Fault (List UInt32) :=
  match e.items with
  | .funcs fs => .ok fs
  | .exprs es => es.zipIdx.mapM fun (expr, j) =>
    match ConstValue.eval expr none with
    | .ok c => .ok (if c.null then invalidFunc else c.bits.toUInt32)
    | .error err => .error (Fault.wrap .resolve .unsupported err.message "element expression"
        |>.atPath (path ++ [toString j]))

/-- Writes `funcs` into `slots` from `off`, padding with the invalid id up to `stop`; functions
past the end of the padded slots are left out. When `off + funcs.length` wrapped around 64 bits,
`stop` lies below `off`, and a start past the padded slots crashes, as slicing there does. -/
def writeSlots (slots : Array UInt32) (off stop : Nat) (funcs : List UInt32) :
    Except Failure (Array UInt32) :=
  let padded := if slots.size < stop then slots ++ Array.replicate (stop - slots.size) invalidFunc else slots
  if off > padded.size then
    .error (.crash s!"runtime error: slice bounds out of range [{off}:{padded.size}]")
  else .ok (funcs.zipIdx.foldl (fun acc (f, j) => acc.setIfInBounds (off + j) f) padded)

/-- Writes active element segment `i` into its table, if the table holds functions. -/
def addElement (v : View) (i : Nat) (e : Element) : Except Failure View := do
  if !e.isActive then return v
  let path := ["elem", toString i]
  let some table := v.tables[e.tableIdx.toNat]?
    | throw (.fault (Fault.invalidData .resolve path s!"table {e.tableIdx} does not exist"))
  if table.elemType != .funcref then return v
  let off ← (v.offset (e.offset.getD ByteArray.empty) path).mapError .fault
  let funcs ← (elementFuncs e path).mapError .fault
  let stop := off + funcs.length.toUInt64
  if stop > table.initial then
    throw (.fault (Fault.invalidData .resolve path
      s!"segment end {stop} exceeds table size {table.initial}"))
  let slots ← writeSlots table.funcElements off.toNat stop.toNat funcs
  return { v with tables := v.tables.modify e.tableIdx.toNat fun t => { t with funcElements := slots } }

/-- Runs `step` over the entries of `xs` with their indices. -/
def foldIndexed {ε α : Type} (v : View) (xs : Array α) (step : View → Nat → α → Except ε View) :
    Except ε View :=
  xs.toList.zipIdx.foldlM (fun v (x, i) => step v i x) v

/-- Resolves a decoded module. -/
def ofModule (raw : Module) : Except Failure View := do
  let v : View := raw.imports.foldl addImport { raw, signatures := raw.types }
  let v := raw.funcs.foldl (fun v t => { v with funcs := v.funcs.push ⟨t, false⟩ }) v
  let v := raw.tables.foldl (fun v t => { v with tables := v.tables.push (.ofType t false) }) v
  let v := raw.memories.foldl (fun v l => { v with memories := v.memories.push (.ofLimits l false) }) v
  let v ← (foldIndexed v raw.globals addGlobal).mapError .fault
  let v := raw.exports.foldl (fun v e => { v with exports := v.exports.push ⟨e.name, e.idx, e.kind⟩ }) v
  let v ← (foldIndexed v raw.data addData).mapError .fault
  foldIndexed v raw.elements addElement

/-- Decodes and resolves a module. -/
def parse (bytes : ByteArray) : Except Failure View :=
  match Module.decode bytes with
  | .ok raw => ofModule raw
  | .error e => .error (.fault (Fault.wrap .decode .invalidData e.message "parse module"))

end WasmImage.View
