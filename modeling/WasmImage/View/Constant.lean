import WasmImage.View.Lookup
import WasmImage.Ssa.Lower
import WasmImage.Log

/-!
Constants that a module exports as functions of type `() → i32` returning a literal. Two shapes of
lowered body count: the entry block returns an `i32.const`, or it branches once, with an
`i32.const` as the only argument, to a block that returns its first parameter. Any other body,
and an exported import, has no constant; only a body that cannot be lowered is a fault.

The extractor takes for granted what lowering builds: the blocks and values that a body names
exist, a return from a `() → i32` function carries one value, and an `i32.const` holds its
literal. Where one of these fails it panics, with the runtime's text or its own.
-/

namespace WasmImage

/-- Entry `i` of `xs`; an index past the end panics, as the runtime's bounds check does. -/
def checkedGet {α : Type} (xs : Array α) (i : Nat) : Except Failure α :=
  match xs[i]? with
  | some x => .ok x
  | none => .error (.crash s!"runtime error: index out of range [{i}] with length {xs.size}")

/-- The name of the immediate's type, as a failed type assertion on it prints it. -/
def Wasm.Imm.typeName : Wasm.Imm → String
  | .block _ => "wasm.BlockImm"
  | .branch _ => "wasm.BranchImm"
  | .brTable _ _ => "wasm.BrTableImm"
  | .call _ => "wasm.CallImm"
  | .callIndirect _ _ => "wasm.CallIndirectImm"
  | .localVar _ => "wasm.LocalImm"
  | .global _ => "wasm.GlobalImm"
  | .table _ => "wasm.TableImm"
  | .memArg _ _ _ => "wasm.MemoryImm"
  | .memory _ => "wasm.MemoryIdxImm"
  | .i32 _ => "wasm.I32Imm"
  | .i64 _ => "wasm.I64Imm"
  | .f32 _ => "wasm.F32Imm"
  | .f64 _ => "wasm.F64Imm"
  | .selectTypes _ => "wasm.SelectTypeImm"
  | .refNull _ => "wasm.RefNullImm"
  | .refFunc _ => "wasm.RefFuncImm"
  | .misc _ _ => "wasm.MiscImm"

namespace Ssa.Body

/-- The literal of `v` when it is an `i32.const` operator, as its 32 bits. -/
def i32Const (b : Body) (v : Nat) : Except Failure (Option UInt32) := do
  match ← checkedGet b.values v with
  | .operator ⟨0x41, imm⟩ _ _ =>
    match imm with
    | some (.i32 x) => return some x.toUInt32
    | some i =>
      throw (.crash ("interface conversion: interface \x7b\x7d is " ++ i.typeName ++
        ", not wasm.I32Imm"))
    | none => throw (.crash "interface conversion: interface \x7b\x7d is nil, not wasm.I32Imm")
  | _ => return none

/-- Whether `v` is parameter `index` of block `blk`. -/
def isBlockParam (b : Body) (v blk index : Nat) : Except Failure Bool := do
  let bl ← checkedGet b.blocks blk
  return bl.params[index]? == some v

/-- The only value of a return, named `what`, from a `() → i32` function. -/
def single (values : List Nat) (what : String) : Except Failure Nat :=
  match values with
  | [v] => .ok v
  | _ => .error (.crash
      s!"intrinsics: {what} carries {values.length} values in a function returning one i32")

/-- The literal that the body returns, if it has one of the two recognised shapes. -/
def returnedConstant (b : Body) : Except Failure (Option UInt32) := do
  match (← checkedGet b.blocks b.entry).term with
  | some (.ret values) => b.i32Const (← single values "return")
  | some (.br ⟨target, args⟩) =>
    -- only the one-argument form can forward a literal
    let [x] := args | return none
    let some c ← b.i32Const x | return none
    match (← checkedGet b.blocks target).term with
    | some (.ret [r]) => if ← b.isBlockParam r target 0 then return some c else return none
    | _ => return none
  | _ => return none

end Ssa.Body

/-- The constant returned by the function exported as `name`, logged when found. -/
def View.exportedConstant (v : View) (name : String) : Logged Failure (Option UInt32) := do
  let some f := v.exportedFunc? name ⟨[], [.i32]⟩ | return none
  if (← ofExcept (checkedGet v.funcs f.toNat)).imported then return none
  let body ← Failure.ofFaults (ofExcept (Ssa.Body.lower v.raw f))
  match ← ofExcept body.returnedConstant with
  | some c =>
    logDebug "intrinsics" "exported constant" [("export", .str name), ("value", .num c.toNat)]
    return some c
  | none => return none

end WasmImage
