/-!
The types of WebAssembly: value types, function types, limits, and the types of tables and
globals. A value type is the byte that encodes it, so that bytes outside the standard types
survive decoding and encoding unchanged.
-/

namespace WasmImage.Wasm

/-- A value type, as the byte that encodes it. -/
structure ValType where
  byte : UInt8
  deriving DecidableEq, Repr, Hashable

namespace ValType

def i32 : ValType := ⟨0x7f⟩
def i64 : ValType := ⟨0x7e⟩
def f32 : ValType := ⟨0x7d⟩
def f64 : ValType := ⟨0x7c⟩
def v128 : ValType := ⟨0x7b⟩
def funcref : ValType := ⟨0x70⟩
def externref : ValType := ⟨0x6f⟩

/-- The text name of a value type; a byte outside the standard types is "unknown". -/
def name (t : ValType) : String :=
  match t.byte with
  | 0x7f => "i32"
  | 0x7e => "i64"
  | 0x7d => "f32"
  | 0x7c => "f64"
  | 0x7b => "v128"
  | 0x70 => "funcref"
  | 0x6f => "externref"
  | _ => "unknown"

/-- Whether the type is one of the four number types. -/
def isNumeric (t : ValType) : Bool :=
  t == i32 || t == i64 || t == f32 || t == f64

/-- Whether values of the type are 32 bits wide. -/
def isNarrow (t : ValType) : Bool :=
  t == i32 || t == f32

end ValType

/-- The parameter and result types of a function. -/
structure FuncType where
  params : List ValType
  results : List ValType
  deriving DecidableEq, Repr

/-- The size bounds of a memory or table, and the memory flags. -/
structure Limits where
  min : UInt64
  max : Option UInt64
  shared : Bool
  memory64 : Bool
  deriving DecidableEq, Repr

/-- A table's element type and size bounds. -/
structure TableType where
  elemType : ValType
  limits : Limits
  deriving DecidableEq, Repr

/-- A global's value type and whether it may change. -/
structure GlobalType where
  valType : ValType
  mutable : Bool
  deriving DecidableEq, Repr

/-- What an import or export names: a function, table, memory or global. -/
inductive ExternKind where
  | func
  | table
  | memory
  | global
  deriving DecidableEq, Repr

namespace ExternKind

/-- The byte that encodes the kind. -/
def toByte : ExternKind → UInt8
  | .func => 0
  | .table => 1
  | .memory => 2
  | .global => 3

/-- The kind a byte encodes, if any. -/
def ofByte? (b : UInt8) : Option ExternKind :=
  match b with
  | 0 => some .func
  | 1 => some .table
  | 2 => some .memory
  | 3 => some .global
  | _ => none

/-- The text name of a kind. -/
def name : ExternKind → String
  | .func => "func"
  | .table => "table"
  | .memory => "memory"
  | .global => "global"

end ExternKind

end WasmImage.Wasm
