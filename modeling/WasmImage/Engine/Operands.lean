import WasmImage.Engine.Scan
import WasmImage.Engine.Module

/-!
What validating a function body works on: a stack of operand types and a stack of open blocks.
Below an unconditional branch the operand stack holds one operand of any type, which every pop
may take again. Each block remembers where the operand stack stood when it opened, and a block
may not pop below that mark.

Failures are text. Popping a missing operand says which type was missing; a wrong operand says
which was expected; a block that ends with the wrong number of operands lists what the stack had
and what the block wanted.
-/

namespace WasmImage.Engine

open Wasm

/-- An operand type: a known type, or any type below an unconditional branch. -/
inductive Operand where
  | known (t : ValType)
  | any
  deriving DecidableEq

namespace Operand

/-- The engine's name of the operand's type. -/
def name : Operand → String
  | .known t => typeName t
  | .any => "unknown"

/-- The type byte, `0xff` for any type. -/
def byte : Operand → Nat
  | .known t => t.byte.toNat
  | .any => 0xff

/-- Whether the operand is a reference. -/
def isRef : Operand → Bool
  | .known t => t.byte == 0x70 || t.byte == 0x6f
  | .any => false

end Operand

/-- An open block: its opcode (zero for the function, `else` once an `if` met its `else`), its
type, and where it opened. -/
structure Label where
  op : UInt8
  params : List ValType
  results : List ValType
  start : Nat

/-- The operand stack, the marks of the open blocks, and the open blocks, innermost first. -/
structure Stacks where
  values : Array Operand := #[]
  limits : List Nat := []
  labels : List Label := []

namespace Stacks

/-- Where the innermost block's operands begin. -/
def limit (s : Stacks) : Nat := s.limits.headD 0

/-- Pops an operand if one is above the mark; a lone operand of any type stays. -/
def tryPop (s : Stacks) : Option (Operand × Stacks) :=
  let lim := s.limit
  let n := s.values.size
  if n ≤ lim then none
  else if n = lim + 1 && s.values[lim]? == some .any then some (.any, s)
  else some (s.values.back?.getD .any, { s with values := s.values.pop })

/-- Pops an operand of any type. -/
def pop (s : Stacks) : Except String (Operand × Stacks) :=
  match s.tryPop with
  | some r => .ok r
  | none => .error s!"invalid operation: trying to pop at {s.values.size} with limit {s.limit}"

/-- Pops an operand of type `t`. -/
def popType (s : Stacks) (t : ValType) : Except String Stacks :=
  match s.tryPop with
  | none => .error (typeName t ++ " missing")
  | some (.known h, s') =>
    if h != t then .error ("type mismatch: expected " ++ typeName t ++ ", but was " ++ typeName h)
    else .ok s'
  | some (.any, s') => .ok s'

/-- Pushes an operand of type `t`. -/
def push (s : Stacks) (t : ValType) : Stacks := { s with values := s.values.push (.known t) }

/-- Pushes operands of the types `ts`, in order. -/
def pushAll (s : Stacks) (ts : List ValType) : Stacks := ts.foldl push s

/-- Drops the operands above the mark. -/
def resetAtLimit (s : Stacks) : Stacks := { s with values := s.values.extract 0 s.limit }

/-- Leaves one operand of any type above the mark, as after an unconditional branch. -/
def unreachable (s : Stacks) : Stacks :=
  let r := s.resetAtLimit
  { r with values := r.values.push .any }

/-- Marks the operand stack for a block whose `params` operands are already on it. -/
def pushLimit (s : Stacks) (params : Nat) : Stacks :=
  { s with limits := (s.values.size - params) :: s.limits }

/-- Removes the innermost mark. -/
def popLimit (s : Stacks) : Stacks := { s with limits := s.limits.tail }

end Stacks

/-- Types as the engine lists them: names separated by commas. -/
def operandList (ts : List Operand) : String := ", ".intercalate (ts.map (·.name))

/-- A block given too many or too few operands. -/
def countError (isParam : Bool) (context : String) (have_ : List Operand) (want : List ValType) :
    String :=
  (if have_.length > want.length then "too many " else "not enough ") ++
  (if isParam then "params" else "results") ++
  (if context.isEmpty then "" else (if isParam then " for " else " in ") ++ context ++ " block") ++
  "\n\thave (" ++ operandList have_ ++ ")\n\twant (" ++ operandList (want.map .known) ++ ")"

/-- A block given an operand of the wrong type at position `i`, counted from the top. -/
def mismatchError (isParam : Bool) (context : String) (have_ : Operand) (want : ValType)
    (i : Nat) : String :=
  "cannot use " ++ have_.name ++
  (if context.isEmpty then "" else " in " ++ context ++ " block") ++
  (if isParam then " as param" else " as result") ++ s!"[{i}] type " ++ typeName want

/-- Pops the operands `want` for a block's params or results; with `exact`, no operand may be
left above the mark. -/
def requireValues (isParam : Bool) (context : String) (want : List ValType) (exact : Bool)
    (s : Stacks) : Except String Stacks := do
  let mut popped : Array Operand := #[]
  let mut s := s
  for _ in want do
    match s.tryPop with
    | none => throw (countError isParam context popped.toList want)
    | some (v, s') =>
      popped := popped.push v
      s := s'
  if exact then
    let lim := s.limit
    let clean := lim == s.values.size || (lim + 1 == s.values.size && s.values[lim]? == some .any)
    if !clean then throw (countError isParam context (s.values.toList ++ want.map .known) want)
  let wantArr := want.toArray
  for h : i in [0:popped.size] do
    let v := popped[i]
    let w := wantArr[want.length - i - 1]?.getD ⟨0⟩
    if v != .known w && v != .any then throw (mismatchError isParam context v w i)
  return s

/-- What a body is validated against. -/
structure CodeContext where
  module : Module
  /-- The type index of every function, imports first. -/
  functions : Array Nat
  globals : Array GlobalType
  memory : Option MemoryType
  tables : Array TableType
  /-- The functions that `ref.func` may name. -/
  declared : Array Nat
  type : FuncType
  locals : List (Nat × ValType)

namespace CodeContext

/-- The type of local `idx`: parameters first, then the declared locals. -/
def localType? (c : CodeContext) (idx : Nat) : Option ValType :=
  if idx < c.type.params.length then c.type.params[idx]?
  else go (idx - c.type.params.length) c.locals
where
  go (i : Nat) : List (Nat × ValType) → Option ValType
    | [] => none
    | (n, t) :: rest => if i < n then some t else go (i - n) rest

/-- How many parameters and locals there are. -/
def localCount (c : CodeContext) : Nat :=
  c.type.params.length + c.locals.foldl (fun n l => n + l.1) 0

end CodeContext

/-- Reads an unsigned 32-bit immediate of `body` at `pos`: its value and where it ends. -/
def readU32 (body : ByteArray) (pos : Nat) (context : String) : Except String (Nat × Nat) :=
  match (Scan.runAt Scan.u32 body pos).1 with
  | .ok (v, n) => .ok (v, pos + n)
  | .error e => .error (context ++ e)

end WasmImage.Engine
