import WasmImage.View.Basic

/-!
Finding a function by the name it is imported or exported under, together with its type. Only the
first import or export of a name counts: when it is not a function, or its type differs from the
one asked for, nothing is found even if a later entry of the same name would match.
-/

namespace WasmImage

namespace View

/-- Function `f`, if its type is exactly `t`. -/
def funcOfType? (v : View) (f : UInt32) (t : Wasm.FuncType) : Option UInt32 :=
  if v.funcType? f == some t then some f else none

/-- The function imported as `moduleName`.`name`, if its type is exactly `t`. -/
def importedFunc? (v : View) (moduleName name : String) (t : Wasm.FuncType) : Option UInt32 :=
  match v.imports.find? (fun i => i.module == moduleName && i.name == name) with
  | some i => if i.kind == .func then v.funcOfType? i.index t else none
  | none => none

/-- The function exported as `name`, if its type is exactly `t`. -/
def exportedFunc? (v : View) (name : String) (t : Wasm.FuncType) : Option UInt32 :=
  match v.export? name with
  | some e => if e.kind == .func then v.funcOfType? e.index t else none
  | none => none

end View

end WasmImage
