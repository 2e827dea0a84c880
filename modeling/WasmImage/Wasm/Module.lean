import WasmImage.Wasm.Types

/-!
A WebAssembly module as its sections spell it: each section's entries in file order, constant
expressions and function code kept as their raw bytes. Function, table, memory and global
indices count imports of their kind first and then the module's own definitions; the queries at
the end resolve an index along that order.
-/

namespace WasmImage.Wasm

/-- What an import brings in. -/
inductive ImportDesc where
  | func (typeIdx : UInt32)
  | table (t : TableType)
  | memory (limits : Limits)
  | global (g : GlobalType)
  deriving DecidableEq, Repr

/-- The kind of thing an import brings in. -/
def ImportDesc.kind : ImportDesc → ExternKind
  | .func _ => .func
  | .table _ => .table
  | .memory _ => .memory
  | .global _ => .global

/-- An import: the module and name it comes from, and what it is. -/
structure Import where
  module : String
  name : String
  desc : ImportDesc
  deriving DecidableEq, Repr

/-- An export: a name and the index it gives a name to. -/
structure Export where
  name : String
  kind : ExternKind
  idx : UInt32
  deriving DecidableEq, Repr

/-- A defined global: its type and its initializer, end byte included. -/
structure Global where
  type : GlobalType
  init : ByteArray

/-- The contents of an element segment: function indices, or one constant expression each. -/
inductive ElemItems where
  | funcs (idxs : List UInt32)
  | exprs (exprs : List ByteArray)

/-- An element segment. Bit 0 of `flags` makes it passive or declarative, bit 1 gives it an
explicit table index (when active) or element kind, and bit 2 makes its items expressions. -/
structure Element where
  flags : UInt32
  tableIdx : UInt32
  offset : Option ByteArray
  elemKind : UInt8
  type : ValType
  items : ElemItems

/-- Whether the segment is written into a table when the module starts. -/
def Element.isActive (e : Element) : Bool := e.flags &&& 1 == 0

/-- A run of locals of one type. -/
structure LocalGroup where
  count : UInt32
  type : ValType
  deriving DecidableEq, Repr

/-- A function body: its local groups and its code, final end byte included. -/
structure Body where
  locals : List LocalGroup
  code : ByteArray

/-- A data segment. Flags 0 write into memory 0, flags 2 into `memIdx`, flags 1 make the
segment passive. -/
structure DataSegment where
  flags : UInt32
  memIdx : UInt32
  offset : Option ByteArray
  init : ByteArray

/-- Whether the segment is written into memory when the module starts. -/
def DataSegment.isActive (d : DataSegment) : Bool := d.flags != 1

/-- A custom section: its name and the bytes after it. -/
structure CustomSection where
  name : String
  data : ByteArray

/-- A decoded module. -/
structure Module where
  types : Array FuncType := #[]
  imports : Array Import := #[]
  funcs : Array UInt32 := #[]
  tables : Array TableType := #[]
  memories : Array Limits := #[]
  globals : Array Global := #[]
  exports : Array Export := #[]
  start : Option UInt32 := none
  elements : Array Element := #[]
  dataCount : Option UInt32 := none
  code : Array Body := #[]
  data : Array DataSegment := #[]
  customs : Array CustomSection := #[]

namespace Module

/-- The type indices of the imported functions, in import order. -/
def importedFuncs (m : Module) : Array UInt32 :=
  m.imports.filterMap fun i => match i.desc with
    | .func t => some t
    | _ => none

/-- The types of the imported tables, in import order. -/
def importedTables (m : Module) : Array TableType :=
  m.imports.filterMap fun i => match i.desc with
    | .table t => some t
    | _ => none

/-- The limits of the imported memories, in import order. -/
def importedMemories (m : Module) : Array Limits :=
  m.imports.filterMap fun i => match i.desc with
    | .memory l => some l
    | _ => none

/-- The types of the imported globals, in import order. -/
def importedGlobals (m : Module) : Array GlobalType :=
  m.imports.filterMap fun i => match i.desc with
    | .global g => some g
    | _ => none

/-- The type of function `idx`; none when the index or its type index is out of range. -/
def funcType? (m : Module) (idx : UInt32) : Option FuncType :=
  let imported := m.importedFuncs
  let typeIdx? :=
    if idx.toNat < imported.size then imported[idx.toNat]?
    else m.funcs[idx.toNat - imported.size]?
  typeIdx?.bind fun t => m.types[t.toNat]?

/-- The type of global `idx`. -/
def globalType? (m : Module) (idx : UInt32) : Option GlobalType :=
  let imported := m.importedGlobals
  if idx.toNat < imported.size then imported[idx.toNat]?
  else (m.globals[idx.toNat - imported.size]?).map (·.type)

/-- The type of table `idx`. -/
def tableType? (m : Module) (idx : UInt32) : Option TableType :=
  let imported := m.importedTables
  if idx.toNat < imported.size then imported[idx.toNat]?
  else m.tables[idx.toNat - imported.size]?

/-- Whether memory `idx` has 64-bit addresses; false for an index out of range. -/
def memory64 (m : Module) (idx : UInt32) : Bool :=
  let imported := m.importedMemories
  let limits? :=
    if idx.toNat < imported.size then imported[idx.toNat]?
    else m.memories[idx.toNat - imported.size]?
  match limits? with
  | some l => l.memory64
  | none => false

end Module

end WasmImage.Wasm
