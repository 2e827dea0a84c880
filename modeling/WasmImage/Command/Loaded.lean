import WasmImage.View.Resolve
import WasmImage.Image.Build
import WasmImage.Hook
import WasmImage.View.Constant

/-!
A module as the command loads it: its view, the image of its initial state with the roles its
exports name, the hooks it imports, and each constant asked for by export name. Loading fails
when the module cannot be read or its image cannot be built; a constant that cannot be computed
is kept as its fault, beside the others.
-/

namespace WasmImage.Command

/-- What became of a constant asked for by export name. -/
inductive ConstantResult where
  /-- The export returns this literal. -/
  | value (n : UInt32)
  /-- The export is missing, of another type, or does not return a literal. -/
  | notConstant
  /-- The export's body could not be lowered. -/
  | failed (f : Fault)

/-- A loaded module. -/
structure Loaded where
  view : View
  image : Image
  hooks : Hooks
  constants : List (String × ConstantResult)

/-- What became of the constant exported as `name`, with its log; a panic of the extractor
stops the load. -/
def constantOf (v : View) (name : String) : Logged Failure ConstantResult :=
  tryCatch (do
      match ← v.exportedConstant name with
      | some n => return .value n
      | none => return .notConstant)
    fun
      | .fault f => return .failed f
      | .crash t => throw (.crash t)

/-- Loads the module in `bytes`, with the constants exported as `names`. -/
def Loaded.ofBytes (bytes : ByteArray) (names : List String) : Logged Failure Loaded := do
  let view ← ofExcept (View.parse bytes)
  let image ← Failure.ofFaults (Image.build view (RoleChoice.ofOptions [.rolesFromExports]))
  let hooks ← Hooks.find view
  let constants ← names.mapM fun name => do return (name, ← constantOf view name)
  return { view, image, hooks, constants }

end WasmImage.Command
