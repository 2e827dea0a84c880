import WasmImage.Wasm.Instr

/-!
Function bodies in static single assignment form with block parameters. Values are numbered in
the order they are made; each is an operator application, a block parameter, or the pick of one
result of an operator with several. Blocks hold parameters, the operators they run in order, and
a terminator that passes arguments to the parameters of the blocks it goes to.
-/

namespace WasmImage.Ssa

open Wasm

/-- An operator: an opcode and its immediate. -/
structure Operator where
  op : UInt8
  imm : Option Imm
  deriving DecidableEq, Repr

/-- How a value is made. -/
inductive ValueDef where
  /-- The operator applied to `args`, giving values of `types`. -/
  | operator (o : Operator) (args : List Nat) (types : List ValType)
  /-- Parameter `index` of `block`. -/
  | param (block : Nat) (index : Nat) (type : ValType)
  /-- Result `index` of the operator value `source`. -/
  | pick (source : Nat) (index : Nat) (type : ValType)
  deriving DecidableEq, Repr

namespace ValueDef

/-- The types of the value. -/
def types : ValueDef → List ValType
  | .operator _ _ ts => ts
  | .param _ _ t => [t]
  | .pick _ _ t => [t]

/-- The single type of the value; the zero byte for an operator with no or several results. -/
def type (d : ValueDef) : ValType :=
  match d.types with
  | [t] => t
  | _ => ⟨0⟩

end ValueDef

/-- A branch target: a block and the arguments for its parameters. -/
structure Target where
  block : Nat
  args : List Nat
  deriving DecidableEq, Repr

/-- How a block ends. -/
inductive Terminator where
  | ret (values : List Nat)
  | br (target : Target)
  /-- To `ifTrue` when `cond` is non-zero, else to `ifFalse`. -/
  | condBr (cond : Nat) (ifTrue ifFalse : Target)
  /-- To target number `index`, or to `default` when there is no such target. -/
  | select (index : Nat) (targets : List Target) (default : Target)
  | unreachable
  deriving DecidableEq, Repr

namespace Terminator

/-- The edges leaving the block, in order: the target of a branch; the true then the false
target of a conditional branch; the targets then the default of a table branch. -/
def successors : Terminator → List Target
  | .ret _ => []
  | .br t => [t]
  | .condBr _ t f => [t, f]
  | .select _ ts d => ts ++ [d]
  | .unreachable => []

/-- Adds an argument to the edge numbered `edge`. -/
def addArg (term : Terminator) (edge : Nat) (v : Nat) : Terminator :=
  let push (t : Target) : Target := { t with args := t.args ++ [v] }
  match term with
  | .br t => if edge = 0 then .br (push t) else term
  | .condBr c t f =>
    if edge = 0 then .condBr c (push t) f
    else if edge = 1 then .condBr c t (push f)
    else term
  | .select i ts d =>
    if edge < ts.length then .select i (ts.modify edge push) d
    else if edge = ts.length then .select i ts (push d)
    else term
  | _ => term

end Terminator

/-- A block: its parameters, the operator values it runs in order, the blocks that branch to
it (once per edge), and its terminator once it has one. -/
structure Block where
  params : Array Nat := #[]
  insts : Array Nat := #[]
  preds : List Nat := []
  term : Option Terminator := none
  deriving Repr

/-- A lowered function body. -/
structure Body where
  params : List ValType
  results : List ValType
  blocks : Array Block := #[]
  values : Array ValueDef := #[]
  entry : Nat := 0
  deriving Repr

end WasmImage.Ssa
