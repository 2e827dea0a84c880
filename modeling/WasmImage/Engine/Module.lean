import WasmImage.Wasm.Types
import WasmImage.Text.Hex

/-!
A module as the reference engine holds it once decoded: constant expressions as one instruction,
memories sized against the engine's page limit, function bodies as bytes. It also holds the
engine's texts for types and sizes, which its failures quote.

A memory's sizes follow the limit: without a declared maximum the maximum is the limit; a
declared maximum above the limit (but within 65536 pages) is lowered to it; one above 65536 pages
is kept, to be refused when the memory is checked.
-/

namespace WasmImage.Engine

open Wasm

/-- The most pages a memory of 32-bit addresses can have. -/
def memoryLimitPages : Nat := 65536

/-- Why the engine does not take a module: it finds the module invalid, for the reason given, or
it crashes on it, with the runtime's text for the bound the module broke. -/
inductive Rejection where
  | invalid (why : String)
  | crash (text : String)
  deriving DecidableEq, Repr

/-- What the engine is configured with. -/
structure Config where
  /-- The most pages a memory may have. -/
  memoryLimitPages : Nat := memoryLimitPages
  deriving DecidableEq, Repr

/-- A memory's sizes in pages. -/
structure MemoryType where
  min : Nat
  cap : Nat
  max : Nat
  maxEncoded : Bool
  shared : Bool
  deriving DecidableEq, Repr

/-- A table's element type and sizes. -/
structure TableType where
  refType : UInt8
  min : Nat
  max : Option Nat
  deriving DecidableEq, Repr

/-- A constant expression of one instruction: its opcode and the bytes of its immediate. -/
structure ConstInstr where
  opcode : UInt8
  data : ByteArray

/-- What an import brings in. -/
inductive ImportDesc where
  | func (typeIdx : Nat)
  | table (t : TableType)
  | memory (m : MemoryType)
  | global (g : GlobalType)

/-- An import. -/
structure Import where
  module : String
  name : String
  desc : ImportDesc

/-- The kind byte of an import. -/
def ImportDesc.kind : ImportDesc → UInt8
  | .func _ => 0
  | .table _ => 1
  | .memory _ => 2
  | .global _ => 3

/-- A defined global. -/
structure Global where
  type : GlobalType
  init : ConstInstr

/-- How an element segment is used. -/
inductive ElemMode where
  | active
  | passive
  | declarative
  deriving DecidableEq, Repr

/-- An entry of an element segment: a null reference, a function, or the value of a global,
whose index is kept as the 32 bits of its signed immediate. -/
inductive ElemInit where
  | null
  | func (idx : Nat)
  | global (raw : Nat)
  deriving DecidableEq, Repr

namespace ElemInit

/-- The bit that marks a global in an entry's code. -/
def globalBit : Nat := Nat.pow 2 30

/-- The code of a null entry. -/
def nullCode : Nat := Nat.pow 2 31

/-- The engine's 32-bit code of an entry: a function index as it is, a global with
`globalBit` set, and a null reference as `nullCode`. Function indices stay below `2 ^ 27`, so the
three kinds of code never meet. -/
def code : ElemInit → Nat
  | .null => nullCode
  | .func f => f
  | .global g => g ||| globalBit

/-- The global index the engine reads back from a code with `globalBit` set: the code without
that bit. -/
def globalIndex (code : Nat) : Nat := code - (code &&& globalBit)

end ElemInit

/-- An element segment. -/
structure ElementSegment where
  mode : ElemMode
  tableIdx : Nat := 0
  offset : Option ConstInstr := none
  refType : UInt8
  init : List ElemInit

/-- A function body: runs of locals and the code, final end included. -/
structure Code where
  locals : List (Nat × ValType)
  body : ByteArray

/-- A data segment. -/
structure DataSegment where
  passive : Bool
  offset : Option ConstInstr
  init : ByteArray

/-- The contents of the `name` custom section: the module's name, names of functions by index,
and names of locals by function and local index. -/
structure NameSection where
  moduleName : String := ""
  functionNames : List (Nat × String) := []
  localNames : List (Nat × List (Nat × String)) := []
  deriving DecidableEq, Repr

/-- An export: a name, a kind byte and an index. -/
structure Export where
  name : String
  kind : UInt8
  index : Nat

/-- A decoded module. Absent sections and empty ones differ only for the code section. -/
structure Module where
  types : Array FuncType := #[]
  imports : Array Import := #[]
  funcs : Array Nat := #[]
  tables : Array TableType := #[]
  memory : Option MemoryType := none
  globals : Array Global := #[]
  exports : Array Export := #[]
  start : Option Nat := none
  elements : Array ElementSegment := #[]
  code : Option (Array Code) := none
  data : Array DataSegment := #[]
  dataCount : Option Nat := none
  names : Option NameSection := none

namespace Module

/-- The type indices of the imported functions. -/
def importedFuncs (m : Module) : Array Nat :=
  m.imports.filterMap fun i => match i.desc with
    | .func t => some t
    | _ => none

/-- The types of the imported globals. -/
def importedGlobals (m : Module) : Array GlobalType :=
  m.imports.filterMap fun i => match i.desc with
    | .global g => some g
    | _ => none

/-- The types of the imported tables. -/
def importedTables (m : Module) : Array TableType :=
  m.imports.filterMap fun i => match i.desc with
    | .table t => some t
    | _ => none

/-- The imported memory, the last one if several. -/
def importedMemory (m : Module) : Option MemoryType :=
  m.imports.foldl (fun acc i => match i.desc with
    | .memory t => some t
    | _ => acc) none

/-- The type index of every function, imports first. -/
def functions (m : Module) : Array Nat := m.importedFuncs ++ m.funcs

/-- The type of every global, imports first. -/
def globalTypes (m : Module) : Array GlobalType := m.importedGlobals ++ m.globals.map (·.type)

/-- Every table, imports first. -/
def allTables (m : Module) : Array TableType := m.importedTables ++ m.tables

/-- The memory: the module's own, else the imported one. -/
def anyMemory (m : Module) : Option MemoryType := m.memory <|> m.importedMemory

/-- The type of function `f`, if it and its type index are in range. -/
def typeOf? (m : Module) (f : Nat) : Option FuncType := do
  let t ← m.functions[f]?
  m.types[t]?

end Module

/-- The engine's name of a value type. -/
def typeName (t : ValType) : String := t.name

/-- The engine's name of a reference type; another byte is named by its hexadecimal value. -/
def refTypeName (t : UInt8) : String :=
  match t with
  | 0x70 => "funcref"
  | 0x6f => "externref"
  | _ => "unknown(0x" ++ Hex.ofNat t.toNat ++ ")"

/-- The engine's short text of a function type: parameter names, then `_`, then result names,
with `v` for an empty side. -/
def FuncType.key (t : FuncType) : String :=
  let side (ts : List ValType) := if ts.isEmpty then "v" else String.join (ts.map typeName)
  side t.params ++ "_" ++ side t.results

/-- A number of pages as a size in the largest binary unit that keeps it at or above 1, counted
in 32 bits as the engine counts it. -/
def pagesText (pages : Nat) : String :=
  let k := (pages * 64) % Nat.pow 2 32
  if k < 1024 then s!"{k} Ki"
  else
    let m := k / 1024
    if m < 1024 then s!"{m} Mi"
    else
      let g := m / 1024
      if g < 1024 then s!"{g} Gi" else s!"{g / 1024} Ti"

/-- The sizes of a memory with `min` pages and maximum `max?`, under `limit` pages. -/
def MemoryType.sized (limit min : Nat) (max? : Option Nat) (shared : Bool) : MemoryType :=
  match max? with
  | some max =>
    if max > memoryLimitPages then ⟨min, min, max, true, shared⟩
    else if max > limit then ⟨min, min, limit, true, shared⟩
    else ⟨min, min, max, true, shared⟩
  | none => ⟨min, min, limit, false, shared⟩

/-- Why a memory's sizes are refused, if they are. -/
def MemoryType.check (m : MemoryType) (limit : Nat) : Option String :=
  if m.max > limit then
    some s!"max {m.max} pages ({pagesText m.max}) over limit of {limit} pages ({pagesText limit})"
  else if m.min > limit then
    some s!"min {m.min} pages ({pagesText m.min}) over limit of {limit} pages ({pagesText limit})"
  else if m.min > m.max then
    some s!"min {m.min} pages ({pagesText m.min}) > max {m.max} pages ({pagesText m.max})"
  else if m.cap < m.min then
    some s!"capacity {m.cap} pages ({pagesText m.cap}) less than minimum {m.min} pages ({pagesText m.min})"
  else none

end WasmImage.Engine
