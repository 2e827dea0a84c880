import WasmImage.View.Lookup
import WasmImage.Log

/-!
Hooks: functions a module imports from the `weval` namespace so that a specializer can recognise
calls to them by function id. A hook counts only when both its name and its type are those of the
fixed vocabulary. Finding the hooks of a module gives one slot per hook of the vocabulary, in
vocabulary order, holding the function imported for it or `invalidFunc`.
-/

namespace WasmImage

/-- The import namespace of hooks. -/
def hookNamespace : String := "weval"

/-- An entry of the hook vocabulary: a name and the type it must be imported with. -/
structure Hook where
  name : String
  type : Wasm.FuncType
  deriving DecidableEq, Repr

namespace Hook

open Wasm.ValType in
/-- Every hook, in a fixed order. -/
def vocabulary : List Hook :=
  [⟨"assume.const.memory", ⟨[i32], [i32]⟩⟩,
   ⟨"assume.const.memory.transitive", ⟨[i32], [i32]⟩⟩,
   ⟨"read.reg", ⟨[i64], [i64]⟩⟩,
   ⟨"write.reg", ⟨[i64, i64], []⟩⟩,
   ⟨"push.context", ⟨[i32], []⟩⟩,
   ⟨"pop.context", ⟨[], []⟩⟩,
   ⟨"update.context", ⟨[i32], []⟩⟩,
   ⟨"context.bucket", ⟨[i32], []⟩⟩,
   ⟨"abort.specialization", ⟨[i32, i32], []⟩⟩,
   ⟨"trace.line", ⟨[i32], []⟩⟩,
   ⟨"assert.const32", ⟨[i32, i32], []⟩⟩,
   ⟨"assert.const.memory", ⟨[i32, i32], []⟩⟩,
   ⟨"specialize.value", ⟨[i32, i32, i32], [i32]⟩⟩,
   ⟨"print", ⟨[i32, i32, i32], []⟩⟩]

end Hook

/-- The hooks of a module: every hook of the vocabulary, in order, with the function imported for
it or `invalidFunc`. -/
structure Hooks where
  slots : List (Hook × UInt32)
  deriving DecidableEq, Repr

namespace Hooks

/-- The hooks that `v` imports, logging each one found. -/
def find (v : View) : StateM (Array LogEntry) Hooks := do
  let slots ← Hook.vocabulary.mapM fun h => do
    match v.importedFunc? hookNamespace h.name h.type with
    | some f =>
      record "intrinsics" "intrinsic found" [("name", .str h.name), ("func", .num f.toNat)]
      pure (h, f)
    | none => pure (h, invalidFunc)
  return ⟨slots⟩

/-- The hooks found, with their functions, in vocabulary order. -/
def found (hs : Hooks) : List (Hook × UInt32) := hs.slots.filter (·.2 != invalidFunc)

/-- How many hooks were found. -/
def count (hs : Hooks) : Nat := hs.found.length

/-- The name of the first hook bound to function `f`. -/
def name? (hs : Hooks) (f : UInt32) : Option String :=
  if f == invalidFunc then none else (hs.slots.find? (·.2 == f)).map (·.1.name)

end Hooks

end WasmImage
