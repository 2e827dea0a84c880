import Std.Data.HashMap
import WasmImage.Ssa.Effect
import WasmImage.Fault

/-!
Lowering a function body from the stack machine to blocks with parameters, in one pass over
its instructions. Operand-stack entries are values; control frames remember where their
operands start and which blocks they continue in. Locals are tracked per block: a read finds the
block's own definition, or asks its predecessors, adding a parameter where they may disagree.
A block whose predecessors are not all known yet is not sealed; reads there make parameters
that are completed when it is sealed.

After an unconditional branch the rest of the frame is dead: its instructions are skipped,
nested blocks in it are only counted, and the frame's `else` or `end` makes code live again.
-/

namespace WasmImage.Ssa

open Wasm

/-- Why a body could not be lowered. -/
inductive LowerFault where
  | tooManyLocals
  | localType (t : ValType)
  | afterEnd (offset : Nat)
  | missingEnd
  | blockType (bt : Int64)
  | underflow
  | elseWithoutIf
  | label (l : UInt32)
  | labelArity (l : UInt32) (carried default : Nat)
  | localRange (idx : UInt32)
  | unknownFunc (idx : UInt32)
  | callIndirectType (idx : UInt32)
  | globalRange (idx : UInt32)
  | tableRange (idx : UInt32)
  | unsupportedOp (op : UInt8)
  | lookupExhausted
  /-- A failure while lowering the instruction at this offset. -/
  | at (offset : Nat) (e : LowerFault)
  deriving DecidableEq, Repr

namespace LowerFault

/-- The text of a lowering failure. -/
def message : LowerFault → String
  | .tooManyLocals => "too many locals"
  | .localType t => "local of type " ++ t.name
  | .afterEnd off => s!"instructions after function end at offset {off}"
  | .missingEnd => "missing end"
  | .blockType bt => s!"block type index {bt.toInt} out of range"
  | .underflow => "operand stack underflow"
  | .elseWithoutIf => "else without if"
  | .label l => s!"label {l} out of range"
  | .labelArity l m n => s!"br_table label {l} carries {m} values, default carries {n}"
  | .localRange i => s!"local {i} out of range"
  | .unknownFunc i => s!"call to unknown function {i}"
  | .callIndirectType i => s!"call_indirect type {i} out of range"
  | .globalRange i => s!"global {i} out of range"
  | .tableRange i => s!"table {i} out of range"
  | .unsupportedOp op => "opcode 0x" ++ Hex.byte op ++ ": unsupported opcode"
  | .lookupExhausted => "local lookup did not settle"
  | .at off e => s!"offset {off}: " ++ e.message

/-- Whether the failure is an opcode lowering does not know. -/
def isUnsupported : LowerFault → Bool
  | .unsupportedOp _ => true
  | .at _ e => e.isUnsupported
  | _ => false

end LowerFault

/-- An edge into a block: the block it leaves and its number among that block's edges. -/
structure PredEdge where
  src : Nat
  edge : Nat
  deriving DecidableEq, Repr

/-- What lowering knows about a block: the value of each local defined in it, the edges into it,
the parameters made before it was sealed, and whether it is sealed. -/
structure BlockState where
  defs : Std.HashMap UInt32 Nat := {}
  preds : Array PredEdge := #[]
  incomplete : Array (Nat × UInt32) := #[]
  sealed : Bool := false

/-- The kinds of control frames. -/
inductive FrameKind where
  | function
  | block
  | loop
  | ifNoElse
  | ifElse
  deriving DecidableEq, Repr

/-- A control frame: its types, the operand height under its parameters, the loop header or
else block, the block it continues in, and the arguments an `if` hands its else branch. -/
structure Frame where
  kind : FrameKind
  params : List ValType := []
  results : List ValType
  elseArgs : List Nat := []
  base : Nat := 0
  header : Nat := 0
  following : Nat := 0
  deriving Repr

/-- The state of a lowering. -/
structure Lowering where
  module : Module
  params : List ValType
  results : List ValType
  blocks : Array Block := #[]
  values : Array ValueDef := #[]
  states : Array BlockState := #[]
  localTypes : Array ValType := #[]
  /-- The operand stack, as a slice: its entries up to its length. -/
  stack : Array Nat := #[]
  /-- The rest of the slice's backing array, past its length and up to its capacity: entries
  popped or never written, which reslicing up brings back. -/
  spare : Array Nat := #[]
  frames : Array Frame := #[]
  cur : Nat := 0
  retBlock : Option Nat := none
  unreachable : Bool := false
  deadDepth : Nat := 0

/-- A step of lowering. -/
abbrev LowerM := StateT Lowering (Except LowerFault)

/-! ## The operand stack as a slice

Appending to a slice writes in place while its backing array has room, and otherwise copies it
into a larger one; reslicing it to another length keeps the backing array, so entries popped come
back when it is lengthened again. The sizes are those of the Go runtime for slices of 4-byte
values. A reslice past the capacity would panic; none happens, since a frame's base is at most the
height when the frame opened and the capacity never shrinks. -/

/-- The allocator's size classes for small objects, in bytes. -/
def sizeClasses : List Nat :=
  [8, 16, 24, 32, 48, 64, 80, 96, 112, 128, 144, 160, 176, 192, 208, 224, 240, 256, 288, 320, 352,
   384, 416, 448, 480, 512, 576, 640, 704, 768, 896, 1024, 1152, 1280, 1408, 1536, 1792, 2048, 2304,
   2688, 3072, 3200, 3456, 4096, 4864, 5376, 6144, 6528, 6784, 6912, 8192, 9472, 9728, 10240, 10880,
   12288, 13568, 14336, 16384, 18432, 19072, 20480, 21760, 24576, 27264, 28672, 32768]

/-- The bytes an allocation of `size` bytes gets: the smallest size class holding it, or whole
pages of 8192 bytes for a large one. -/
def roundUpSize (size : Nat) : Nat :=
  if size ≤ 32760 then (sizeClasses.find? (size ≤ ·)).getD 32768
  else (size + 8191) / 8192 * 8192

/-- Grows capacity `c` by a quarter and 192 until it holds `newLen`, in at most `fuel` steps; each
step adds at least 192, so `newLen` steps always suffice. -/
def growByQuarters : Nat → Nat → Nat → Nat
  | 0, c, _ => c
  | fuel + 1, c, newLen =>
    let c := c + (c + 768) / 4
    if newLen ≤ c then c else growByQuarters fuel c newLen

/-- The capacity an append gives a slice of capacity `oldCap` that must hold `newLen` entries:
`newLen` itself past twice the old capacity, twice it below 256 entries, else growth by quarters;
then what the allocation rounds it up to. -/
def growCap (oldCap newLen : Nat) : Nat :=
  let c := if 2 * oldCap < newLen then newLen
    else if oldCap < 256 then 2 * oldCap
    else growByQuarters newLen oldCap newLen
  roundUpSize (4 * c) / 4

/-- The backing array past the top once `xs` is appended to a slice of length `len` with entries
`spare` past it: in place while they have room, over that many of them, or else a new backing
array of capacity `growCap`, zero past the new top. -/
def appendSpare (len : Nat) (spare xs : Array Nat) : Array Nat :=
  if xs.size ≤ spare.size then spare.extract xs.size spare.size
  else Array.replicate (growCap (len + spare.size) (len + xs.size) - (len + xs.size)) 0

/-- The operand stack's backing array, from its first entry to its capacity. -/
def Lowering.backing (s : Lowering) : Array Nat := s.stack ++ s.spare

namespace Lower

def newBlock : LowerM Nat := do
  let s ← get
  set { s with blocks := s.blocks.push {}, states := s.states.push {} }
  return s.blocks.size

def newValue (d : ValueDef) : LowerM Nat := do
  let s ← get
  set { s with values := s.values.push d }
  return s.values.size

def modifyBlock (blk : Nat) (f : Block → Block) : LowerM Unit :=
  modify fun s => { s with blocks := s.blocks.modify blk f }

def modifyState (blk : Nat) (f : BlockState → BlockState) : LowerM Unit :=
  modify fun s => { s with states := s.states.modify blk f }

def blockAt (blk : Nat) : LowerM Block := do
  return (← get).blocks[blk]?.getD {}

def stateAt (blk : Nat) : LowerM BlockState := do
  return (← get).states[blk]?.getD {}

/-- Adds a parameter of type `t` to `blk`. -/
def addParam (blk : Nat) (t : ValType) : LowerM Nat := do
  let index := (← blockAt blk).params.size
  let v ← newValue (.param blk index t)
  modifyBlock blk fun b => { b with params := b.params.push v }
  return v

def defineLocal (blk : Nat) (idx : UInt32) (v : Nat) : LowerM Unit :=
  modifyState blk fun st => { st with defs := st.defs.insert idx v }

/-- Appends the operator to the current block; returns its results, one pick per result when
there are several. -/
def emit (o : Operator) (args : List Nat) (results : List ValType) : LowerM (List Nat) := do
  let v ← newValue (.operator o args results)
  let cur := (← get).cur
  modifyBlock cur fun b => { b with insts := b.insts.push v }
  match results with
  | [] => return []
  | [_] => return [v]
  | _ => results.zipIdx.mapM fun (t, i) => newValue (.pick v i t)

def push (v : Nat) : LowerM Unit :=
  modify fun s => { s with stack := s.stack.push v, spare := appendSpare s.stack.size s.spare #[v] }

/-- The operand height of the innermost frame. -/
def frameBase : LowerM Nat := do
  return ((← get).frames.back?.map (·.base)).getD 0

/-- The top `n` operands, oldest first. -/
def dup (n : Nat) : LowerM (List Nat) := do
  let st := (← get).stack
  return (st.extract (st.size - n) st.size).toList

/-- Removes the top `n` operands of the innermost frame. -/
def pop (n : Nat) : LowerM (List Nat) := do
  let base ← frameBase
  let st := (← get).stack
  if (n : Int) > (st.size : Int) - (base : Int) then throw .underflow
  let out ← dup n
  -- the popped entries stay in the backing array
  modify fun s => { s with
    stack := s.stack.extract 0 (s.stack.size - n)
    spare := s.stack.extract (s.stack.size - n) s.stack.size ++ s.spare }
  return out

/-- The top `n` operands, left in place. -/
def peek (n : Nat) : LowerM (List Nat) := do
  if n > (← get).stack.size then throw .underflow
  dup n

/-- Ends the current block with `term`, recording its edges, and makes the code after it dead. -/
def terminate (term : Terminator) : LowerM Unit := do
  let cur := (← get).cur
  modifyBlock cur fun b => { b with term := some term }
  for (succ, i) in term.successors.zipIdx do
    modifyState succ.block fun st => { st with preds := st.preds.push ⟨cur, i⟩ }
  modify fun s => { s with unreachable := true }

/-- Continues in `blk` with the first `base` entries of the stack's backing array and the first
`n` parameters of `blk`; the code there is dead when nothing branches to it. -/
def switchTo (base blk n : Nat) : LowerM Unit := do
  let st ← stateAt blk
  let b ← blockAt blk
  modify fun s => { s with
    unreachable := st.preds.isEmpty
    stack := s.backing.extract 0 base ++ b.params.extract 0 n
    spare := appendSpare (s.backing.extract 0 base).size (s.backing.extract base s.backing.size)
      (b.params.extract 0 n)
    cur := blk }

mutual

/-- The value of local `idx` at the end of `blk` so far. `fuel` bounds the depth of the search
through predecessors. -/
def readLocal (fuel : Nat) (blk : Nat) (idx : UInt32) : LowerM Nat := do
  match fuel with
  | 0 => throw .lookupExhausted
  | fuel + 1 =>
    let st ← stateAt blk
    match st.defs[idx]? with
    | some v => return v
    | none =>
      let t := (← get).localTypes[idx.toNat]?.getD ⟨0⟩
      if !st.sealed then
        let v ← newValue (.param blk 0 t)
        modifyState blk fun st => { st with
          defs := st.defs.insert idx v
          incomplete := st.incomplete.push (v, idx) }
        return v
      else if h : st.preds.size = 1 then
        let v ← readLocal fuel (getElem st.preds 0 (h ▸ Nat.one_pos)).src idx
        defineLocal blk idx v
        return v
      else
        let v ← addParam blk t
        defineLocal blk idx v
        addPredArgs fuel blk idx
        return v

/-- Passes the value of local `idx` along every edge into `blk`. -/
def addPredArgs (fuel : Nat) (blk : Nat) (idx : UInt32) : LowerM Unit := do
  match fuel with
  | 0 => throw .lookupExhausted
  | fuel + 1 =>
    let preds := (← stateAt blk).preds
    for p in preds do
      let v ← readLocal fuel p.src idx
      modifyBlock p.src fun b => { b with term := b.term.map (·.addArg p.edge v) }

end

/-- Enough depth for any search through predecessors: chains of single predecessors cannot
repeat a block, and a block with several is defined before its predecessors are asked. -/
def lookupFuel : LowerM Nat := do
  let n := (← get).blocks.size + 2
  return 2 * n * n

/-- Seals `blk`: its predecessors are all known, so the parameters made for reads in it get
their arguments. -/
def sealBlock (blk : Nat) : LowerM Unit := do
  let st ← stateAt blk
  if st.sealed then return
  modifyState blk fun st => { st with sealed := true, incomplete := #[] }
  for (v, idx) in st.incomplete do
    let index := (← blockAt blk).params.size
    modify fun s => { s with values := s.values.modify v fun
      | .param b _ t => .param b index t
      | d => d }
    modifyBlock blk fun b => { b with params := b.params.push v }
    addPredArgs (← lookupFuel) blk idx

/-- The block that returns its parameters, made the first time a branch needs it. -/
def returnBlock : LowerM Nat := do
  match (← get).retBlock with
  | some b => return b
  | none =>
    let blk ← newBlock
    let results := (← get).results
    let vals ← results.mapM (addParam blk)
    sealBlock blk
    modifyBlock blk fun b => { b with term := some (.ret vals) }
    modify fun s => { s with retBlock := some blk }
    return blk

/-- The block a branch to `label` goes to and how many values it carries. -/
def target (label : UInt32) : LowerM (Nat × Nat) := do
  let frames := (← get).frames
  if label.toNat ≥ frames.size then throw (.label label)
  let some f := frames[frames.size - 1 - label.toNat]? | throw (.label label)
  match f.kind with
  | .function => return (← returnBlock, f.results.length)
  | .loop => return (f.header, f.params.length)
  | _ => return (f.following, f.results.length)

def br (label : UInt32) : LowerM Unit := do
  let s ← get
  if label.toNat + 1 = s.frames.size then
    let vals ← peek s.results.length
    terminate (.ret vals)
  else
    let (blk, n) ← target label
    let args ← peek n
    terminate (.br ⟨blk, args⟩)

def brIf (label : UInt32) : LowerM Unit := do
  let cond ← pop 1
  let (blk, n) ← target label
  let args ← peek n
  let next ← newBlock
  terminate (.condBr (cond.headD 0) ⟨blk, args⟩ ⟨next, []⟩)
  sealBlock next
  modify fun s => { s with cur := next, unreachable := false }

def brTable (labels : List UInt32) (default : UInt32) : LowerM Unit := do
  let index ← pop 1
  if labels.isEmpty then
    br default
  else
    let (blk, n) ← target default
    let args ← peek n
    let mut targets := #[]
    for label in labels do
      let (b, m) ← target label
      if m != n then throw (.labelArity label m n)
      targets := targets.push ⟨b, ← dup n⟩
    terminate (.select (index.headD 0) targets.toList ⟨blk, args⟩)

/-- Operand count and result types of an operator. -/
def effect (op : UInt8) (imm : Option Imm) : LowerM (Nat × List ValType) := do
  if let some e := numericEffect op then return e
  if 0x28 ≤ op && op ≤ 0x35 then return (1, [loadType op])
  if 0x36 ≤ op && op ≤ 0x3e then return (2, [])
  let m := (← get).module
  match op, imm with
  | 0x41, _ => return (0, [.i32])
  | 0x42, _ => return (0, [.i64])
  | 0x43, _ => return (0, [.f32])
  | 0x44, _ => return (0, [.f64])
  | 0x10, some (.call f) =>
    match m.funcType? f with
    | some ft => return (ft.params.length, ft.results)
    | none => throw (.unknownFunc f)
  | 0x11, some (.callIndirect t _) =>
    match m.types[t.toNat]? with
    | some ft => return (ft.params.length + 1, ft.results)
    | none => throw (.callIndirectType t)
  | 0x1b, _ =>
    let s ← get
    if s.stack.size < 3 then throw .underflow
    let v := s.stack[s.stack.size - 3]!
    return (3, [(s.values[v]?.map ValueDef.type).getD ⟨0⟩])
  | 0x1c, some (.selectTypes ts) => return (3, ts)
  | 0x23, some (.global g) =>
    match m.globalType? g with
    | some gt => return (0, [gt.valType])
    | none => throw (.globalRange g)
  | 0x24, _ => return (1, [])
  | 0x25, some (.table t) =>
    match m.tableType? t with
    | some tt => return (1, [tt.elemType])
    | none => throw (.tableRange t)
  | 0x26, _ => return (2, [])
  | 0x3f, some (.memory mem) => return (0, [if m.memory64 mem then .i64 else .i32])
  | 0x40, some (.memory mem) => return (1, [if m.memory64 mem then .i64 else .i32])
  | 0xd0, some (.refNull t) => return (0, [t])
  | 0xd1, _ => return (1, [.i32])
  | 0xd2, _ => return (0, [.funcref])
  | 0xfc, some (.misc sub _) => return miscEffect sub
  | _, _ => throw (.unsupportedOp op)

/-- Applies an operator to its operands and pushes its results. -/
def operator (op : UInt8) (imm : Option Imm) : LowerM Unit := do
  let (n, results) ← effect op imm
  let args ← pop n
  for v in ← emit ⟨op, imm⟩ args results do
    push v

def enter (op : UInt8) (params results : List ValType) : LowerM Unit := do
  let s ← get
  if s.stack.size < params.length then throw .underflow
  let base := s.stack.size - params.length
  match op with
  | 0x02 =>
    let following ← newBlock
    for t in results do
      let _ ← addParam following t
    let fr : Frame := { kind := .block, params, results, base, following }
    modify fun s => { s with frames := s.frames.push fr }
  | 0x03 =>
    let header ← newBlock
    let following ← newBlock
    for t in params do
      let _ ← addParam header t
    for t in results do
      let _ ← addParam following t
    let args ← dup params.length
    terminate (.br ⟨header, args⟩)
    let fr : Frame := { kind := .loop, params, results, base, header, following }
    modify fun s => { s with frames := s.frames.push fr }
    switchTo base header params.length
  | _ =>
    let cond ← pop 1
    if base = 0 then throw .underflow
    let base := base - 1
    let thenBlk ← newBlock
    let elseBlk ← newBlock
    let following ← newBlock
    for t in results do
      let _ ← addParam following t
    let args ← dup params.length
    terminate (.condBr (cond.headD 0) ⟨thenBlk, []⟩ ⟨elseBlk, []⟩)
    sealBlock thenBlk
    sealBlock elseBlk
    let fr : Frame :=
      { kind := .ifNoElse, params, results, base, header := elseBlk, following, elseArgs := args }
    modify fun s => { s with frames := s.frames.push fr, cur := thenBlk, unreachable := false }

def elseBranch : LowerM Unit := do
  let s ← get
  if s.unreachable && s.deadDepth > 0 then return
  let some f := s.frames.back? | throw .elseWithoutIf
  if f.kind != .ifNoElse then throw .elseWithoutIf
  let f' : Frame := { f with kind := .ifElse }
  modify fun s => { s with frames := s.frames.pop.push f' }
  if !s.unreachable then
    let args ← peek f.results.length
    terminate (.br ⟨f.following, args⟩)
  modify fun s => { s with
    unreachable := false
    stack := s.backing.extract 0 f.base ++ f.elseArgs.toArray
    spare := appendSpare (s.backing.extract 0 f.base).size (s.backing.extract f.base s.backing.size)
      f.elseArgs.toArray
    cur := f.header }

def endFrame : LowerM Unit := do
  let s ← get
  if s.deadDepth > 0 then
    set { s with deadDepth := s.deadDepth - 1 }
    return
  let some f := s.frames.back? | throw .missingEnd
  modify fun s => { s with frames := s.frames.pop }
  if f.kind = .function then
    if !s.unreachable then
      let vals ← peek f.results.length
      terminate (.ret vals)
    modify fun s => { s with unreachable := true }
    return
  if !s.unreachable then
    let args ← peek f.results.length
    terminate (.br ⟨f.following, args⟩)
  modify fun s => { s with unreachable := false }
  match f.kind with
  | .loop => sealBlock f.header
  | .ifNoElse =>
    modify fun s => { s with cur := f.header }
    terminate (.br ⟨f.following, f.elseArgs⟩)
  | _ => pure ()
  sealBlock f.following
  switchTo f.base f.following f.results.length

/-- Lowers one instruction. -/
def instr (ins : Instr) : LowerM Unit := do
  match ins.op with
  | 0x02 | 0x03 | 0x04 =>
    let s ← get
    if s.unreachable then
      set { s with deadDepth := s.deadDepth + 1 }
    else
      let bt := match ins.imm with
        | some (.block t) => t
        | _ => -64
      match blockSignature s.module bt with
      | some (params, results) => enter ins.op params results
      | none => throw (.blockType bt)
  | 0x05 => elseBranch
  | 0x0b => endFrame
  | op =>
    if (← get).unreachable then return
    match op, ins.imm with
    | 0x01, _ => pure ()
    | 0x00, _ => terminate .unreachable
    | 0x0c, some (.branch l) => br l
    | 0x0d, some (.branch l) => brIf l
    | 0x0e, some (.brTable ls d) => brTable ls d
    | 0x0f, _ =>
      let vals ← peek (← get).results.length
      terminate (.ret vals)
    | 0x1a, _ => discard (pop 1)
    | 0x20, some (.localVar idx) =>
      if idx.toNat ≥ (← get).localTypes.size then throw (.localRange idx)
      push (← readLocal (← lookupFuel) (← get).cur idx)
    | 0x21, some (.localVar idx) | 0x22, some (.localVar idx) =>
      if idx.toNat ≥ (← get).localTypes.size then throw (.localRange idx)
      let args ← pop 1
      let v := args.headD 0
      defineLocal (← get).cur idx v
      if op = 0x22 then push v
    | 0x12, imm | 0x13, imm =>
      operator (if op = 0x12 then 0x10 else 0x11) imm
      let vals ← peek (← get).results.length
      terminate (.ret vals)
    | _, imm => operator op imm

/-- Sets up the entry block: parameters, then declared locals initialised to zero. -/
def start (locals : List LocalGroup) : LowerM Unit := do
  let entry ← newBlock
  modify fun s => { s with cur := entry }
  sealBlock entry
  for (t, i) in (← get).params.zipIdx do
    let v ← addParam entry t
    defineLocal entry i.toUInt32 v
    modify fun s => { s with localTypes := s.localTypes.push t }
  for g in locals do
    if (← get).localTypes.size + g.count.toNat > 50000 then throw .tooManyLocals
    let some zero := zeroOperator g.type | throw (.localType g.type)
    for _ in [0:g.count.toNat] do
      let idx := (← get).localTypes.size
      modify fun s => { s with localTypes := s.localTypes.push g.type }
      let vs ← emit zero [] [g.type]
      defineLocal entry idx.toUInt32 (vs.headD 0)
  let fr : Frame := { kind := .function, results := (← get).results }
  modify fun s => { s with frames := s.frames.push fr }

/-- Lowers every instruction; none may follow the function's final end, and that end must come. -/
def run (locals : List LocalGroup) (instrs : List Instr) : LowerM Unit := do
  start locals
  for ins in instrs do
    if (← get).frames.isEmpty then throw (.afterEnd ins.offset)
    tryCatch (instr ins) fun e => throw (.at ins.offset e)
  if !(← get).frames.isEmpty then throw .missingEnd

end Lower

/-- Lowers the code of a function of type `sig`, with its declared locals. -/
def Body.ofCode (m : Module) (sig : FuncType) (locals : List LocalGroup) (instrs : List Instr) :
    Except LowerFault Body := do
  let init : Lowering := { module := m, params := sig.params, results := sig.results }
  let ((), s) ← (Lower.run locals instrs).run init
  let blocks := (s.blocks.zip s.states).map fun (b, st) => { b with preds := st.preds.toList.map (·.src) }
  return { params := sig.params, results := sig.results, blocks, values := s.values, entry := 0 }

/-- The fault of a lowering phase caused by `cause`: unsupported when the cause is an opcode
outside those known, otherwise invalid data. -/
def lowerFault (path : List String) (unsupported : Bool) (detail cause : String) : Fault :=
  Fault.wrap .lower (if unsupported then .unsupported else .invalidData) cause detail |>.atPath path

/-- Lowers function `funcIdx` of `m`, counted with imports first. -/
def Body.lower (m : Module) (funcIdx : UInt32) : Except Fault Body := do
  let imported := m.importedFuncs.size
  let path := ["func", toString funcIdx]
  if funcIdx.toNat < imported then
    throw (Fault.invalidData .lower path "imported function has no body")
  let some code := m.code[funcIdx.toNat - imported]?
    | throw (Fault.indexOutOfBounds .lower ["func"] funcIdx.toNat (imported + m.code.size))
  let some sig := m.funcType? funcIdx
    | throw (Fault.invalidData .lower path "function type not found")
  let instrs ← match Instr.decodeAll code.code with
    | .ok is => pure is
    | .error e => throw (lowerFault path e.isUnsupported "decode body" e.message)
  match Body.ofCode m sig code.locals instrs with
  | .ok b => return b
  | .error e => throw (lowerFault path e.isUnsupported "lower body" e.message)

end WasmImage.Ssa
