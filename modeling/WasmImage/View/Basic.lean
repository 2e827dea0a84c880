import WasmImage.Wasm.Module
import WasmImage.Fault

/-!
The resolved view of a module: one list per index space, imports first, with what is known of
each entry at instantiation. Globals carry their initial bits when their initializer is a known
number of their type; memories carry the segments written into them, in section order; funcref
tables carry the function in each slot covered by an active segment.
-/

namespace WasmImage

/-- The id that marks an empty table slot or a function not found. -/
def invalidFunc : UInt32 := 0xffffffff

/-- The text of a function id: `func<invalid>` for the invalid id. -/
def funcName (f : UInt32) : String :=
  if f = invalidFunc then "func<invalid>" else s!"func{f}"

def globalName (g : Nat) : String := s!"global{g}"
def memoryName (m : Nat) : String := s!"memory{m}"
def tableName (t : Nat) : String := s!"table{t}"

namespace View

open Wasm

/-- A function: its signature index and whether it is imported. -/
structure FuncDecl where
  sig : UInt32
  imported : Bool
  deriving DecidableEq, Repr

/-- A global: its type, whether it is imported, and its initial bits when known. -/
structure GlobalData where
  type : ValType
  mutable : Bool
  imported : Bool
  value : Option UInt64 := none
  deriving DecidableEq, Repr

/-- Bytes written into a memory at an offset. -/
structure Segment where
  offset : UInt64
  data : ByteArray

/-- A memory: its page counts, flags, and the segments written into it. -/
structure MemoryData where
  initialPages : UInt64
  maxPages : Option UInt64
  imported : Bool
  memory64 : Bool
  segments : Array Segment := #[]

/-- A table: its initial size, element type, and the functions in its first slots. -/
structure TableData where
  initial : UInt64
  elemType : ValType
  imported : Bool
  funcElements : Array UInt32 := #[]
  deriving DecidableEq, Repr

/-- An import, with its index in the index space of its kind. -/
structure ImportRef where
  module : String
  name : String
  index : UInt32
  kind : ExternKind
  deriving DecidableEq, Repr

/-- An export. -/
structure ExportRef where
  name : String
  index : UInt32
  kind : ExternKind
  deriving DecidableEq, Repr

end View

/-- The resolved view of a module, and the module it was resolved from. -/
structure View where
  raw : Wasm.Module
  signatures : Array Wasm.FuncType
  funcs : Array View.FuncDecl := #[]
  globals : Array View.GlobalData := #[]
  memories : Array View.MemoryData := #[]
  tables : Array View.TableData := #[]
  imports : Array View.ImportRef := #[]
  exports : Array View.ExportRef := #[]

namespace View

/-- The type of function `f`, when `f` and its signature index are in range. -/
def funcType? (v : View) (f : UInt32) : Option Wasm.FuncType := do
  let d ← v.funcs[f.toNat]?
  v.signatures[d.sig.toNat]?

/-- The first export with this name. -/
def export? (v : View) (name : String) : Option ExportRef :=
  v.exports.find? (·.name == name)

end View

end WasmImage
