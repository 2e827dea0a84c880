import WasmImage.Engine.Instance
import WasmImage.Engine.Numeric
import WasmImage.Engine.Validate
import WasmImage.Wasm.Instr

/-!
Running a module's code as the engine's interpreter does, for the start function it calls when
it instantiates a module. Values are 64-bit words: an `i32` in the low 32 bits, floats by their
bits, a function reference as the function's index plus one and a null reference as zero. The
store holds the memory, the globals, the tables, and the passive segments not yet dropped.

A function's body is decoded into instructions when it is called, and every block, loop and `if`
is matched with its `else` and `end`. The machine keeps a stack of frames, the innermost first;
each step runs one instruction of the innermost frame. A trap stops the run with the engine's
text for it and the frames it stopped in, named innermost first. Running out of steps, or
calling a function whose body does not decode into the instructions known here, ends the run
where it stands. An imported function returns zeros.
-/

namespace WasmImage.Engine

open Wasm

/-- A function body ready to run: its instructions, and for each instruction that opens a block
the index of its `end`, and for an `if` the index of its `else` if it has one. -/
structure Body where
  instrs : Array Instr
  ends : Array Nat
  elses : Array (Option Nat)

/-- Matches every block, loop and `if` with its `end`, and every `if` with its `else`. -/
def Body.ofInstrs (instrs : Array Instr) : Body :=
  let n := instrs.size
  let init : Array Nat × Array (Option Nat) × List Nat :=
    (Array.replicate n n, Array.replicate n none, [])
  let (ends, elses, _) := instrs.toList.zipIdx.foldl
    (fun (acc : Array Nat × Array (Option Nat) × List Nat) (ins, i) =>
      let (ends, elses, opened) := acc
      match ins.op, opened with
      | 0x02, _ | 0x03, _ | 0x04, _ => (ends, elses, i :: opened)
      | 0x05, j :: _ => (ends, elses.set! j (some i), opened)
      | 0x0b, j :: rest => (ends.set! j i, elses, rest)
      | _, _ => (ends, elses, opened)) init
  { instrs, ends, elses }

/-- A block being run: how many operands a branch to it carries, the height of the operand stack
below its own operands, and the instruction a branch to it goes on at. -/
structure Target where
  arity : Nat
  height : Nat
  next : Nat

/-- A call being run: the function, its body and the next instruction, its locals and operands,
the blocks open in it (the function's own block last), and how many results it returns. -/
structure Frame where
  func : Nat
  body : Body
  pc : Nat := 0
  locals : Array UInt64
  stack : Array UInt64 := #[]
  targets : List Target
  results : Nat

namespace Frame

/-- The top operand and the frame without it. -/
def pop (f : Frame) : UInt64 × Frame := (f.stack.back?.getD 0, { f with stack := f.stack.pop })

/-- The top `n` operands, the deepest first, and the frame without them. -/
def popN (f : Frame) (n : Nat) : List UInt64 × Frame :=
  let k := f.stack.size - n
  ((f.stack.extract k f.stack.size).toList, { f with stack := f.stack.extract 0 k })

/-- The frame with `w` pushed. -/
def push (f : Frame) (w : UInt64) : Frame := { f with stack := f.stack.push w }

/-- The frame with `ws` pushed, in order. -/
def pushAll (f : Frame) (ws : List UInt64) : Frame := { f with stack := f.stack ++ ws.toArray }

/-- The frame at its next instruction. -/
def next (f : Frame) : Frame := { f with pc := f.pc + 1 }

end Frame

/-- What the code works on: the memory, every global, every table with its maximum, and the
passive data and element segments, empty once dropped. -/
structure Store where
  memory : Option LiveMemory
  globals : Array UInt64
  tables : Array (Array UInt64)
  tableMax : Array (Option Nat)
  data : Array ByteArray
  elems : Array (Array UInt64)

/-- Where a run is after one step. -/
inductive Next where
  | running (st : Store) (frames : List Frame)
  | done (st : Store)
  | trap (why : String) (frames : List Frame)

/-- The most frames a run may have. -/
def callStackCeiling : Nat := 2000

/-- Enters defined function `idx` with arguments `args`: its frame, if its body decodes. -/
def enter (m : Module) (idx : Nat) (args : List UInt64) : Option Frame := do
  let imported := m.importedFuncs.size
  let code ← (m.code.getD #[])[idx - imported]?
  let type ← m.typeOf? idx
  let instrs ← (Instr.decodeAll code.body).toOption
  let zeros := code.locals.foldl (fun acc l => acc + l.1) 0
  if zeros > Nat.pow 2 20 then none
  let body := Body.ofInstrs instrs.toArray
  some { func := idx, body, locals := (args ++ List.replicate zeros 0).toArray,
         targets := [⟨type.results.length, 0, instrs.length⟩], results := type.results.length }

/-- The block type of a block instruction: how many parameters and results. -/
def blockArity (m : Module) (ins : Instr) : Nat × Nat :=
  match ins.imm with
  | some (.block t) =>
    if t.toInt = -64 then (0, 0)
    else if t.toInt < 0 then (0, 1)
    else match m.types[t.toInt.toNat]? with
      | some ft => (ft.params.length, ft.results.length)
      | none => (0, 0)
  | _ => (0, 0)

/-- Leaves the innermost frame with its top `results` operands, handing them to the frame that
called it; the run is done when no frame is left. -/
def leave (st : Store) (f : Frame) (rest : List Frame) : Next :=
  let (vals, _) := f.popN f.results
  match rest with
  | [] => .done st
  | caller :: outer => .running st (caller.pushAll vals :: outer)

/-- Branches to the block `depth` levels out: its operands stay on the block's height, and the
run goes on where the block says, or leaves the function from its own block. -/
def branch (st : Store) (f : Frame) (rest : List Frame) (depth : Nat) : Next :=
  match f.targets[depth]? with
  | none => .done st
  | some t =>
    let (vals, f) := f.popN t.arity
    let f := { f with stack := f.stack.extract 0 t.height ++ vals.toArray,
                      targets := f.targets.drop (depth + 1) }
    if f.targets.isEmpty then leave st { f with results := t.arity } rest
    else .running st ({ f with pc := t.next } :: rest)

/-- Calls function `idx` from `f`, its arguments on `f`'s operands. An imported function returns
zeros; a call past the frame limit overflows the stack. -/
def call (m : Module) (st : Store) (f : Frame) (rest : List Frame) (idx : Nat) : Next :=
  match m.typeOf? idx with
  | none => .done st
  | some t =>
    let (args, f) := f.popN t.params.length
    if idx < m.importedFuncs.size then
      .running st ((f.pushAll (List.replicate t.results.length 0)).next :: rest)
    else if rest.length + 1 ≥ callStackCeiling then .trap "stack overflow" (f :: rest)
    else match enter m idx args with
      | some callee => .running st (callee :: f.next :: rest)
      | none => .done st

/-- The bytes a load or store of opcode `op` moves. -/
def accessSize (op : UInt8) : Nat :=
  match op with
  | 0x28 | 0x2a | 0x34 | 0x35 | 0x36 | 0x38 | 0x3e => 4
  | 0x29 | 0x2b | 0x37 | 0x39 => 8
  | 0x2c | 0x2d | 0x30 | 0x31 | 0x3a | 0x3c => 1
  | _ => 2

/-- The value a load of opcode `op` pushes for the little-endian number `raw` it read. -/
def loaded (op : UInt8) (raw : Nat) : UInt64 :=
  match op with
  | 0x2c => Numeric.extend 32 8 raw.toUInt64
  | 0x2e => Numeric.extend 32 16 raw.toUInt64
  | 0x30 => Numeric.extend 64 8 raw.toUInt64
  | 0x32 => Numeric.extend 64 16 raw.toUInt64
  | 0x34 => Numeric.extend 64 32 raw.toUInt64
  | _ => raw.toUInt64

/-- The trap of an access outside the memory. -/
def outOfBounds : String := "out of bounds memory access"

/-- The trap of an access outside a table, or of a call through a null entry. -/
def badTableAccess : String := "invalid table access"

/-- Runs a memory access of opcode `op` with offset `offset`. -/
def access (st : Store) (f : Frame) (rest : List Frame) (op : UInt8) (offset : Nat) : Next :=
  match st.memory with
  | none => .trap outOfBounds (f :: rest)
  | some mem =>
    let n := accessSize op
    if op ≤ 0x35 then
      let (addr, f) := f.pop
      let ea := addr.toNat % Nat.pow 2 32 + offset
      match mem.readLE? ea n with
      | some raw => .running st ((f.push (loaded op raw)).next :: rest)
      | none => .trap outOfBounds (f :: rest)
    else
      let (v, f) := f.pop
      let (addr, f) := f.pop
      let ea := addr.toNat % Nat.pow 2 32 + offset
      match mem.writeLE? ea n (v.toNat % Nat.pow 256 n) with
      | some mem' => .running { st with memory := some mem' } (f.next :: rest)
      | none => .trap outOfBounds (f :: rest)

/-- The `0xfc` prefixed instruction `sub` with index operands `ops`. -/
def execMisc (st : Store) (f : Frame) (rest : List Frame) (sub : Nat) (ops : List Nat) : Next :=
  let i0 := ops.headD 0
  let i1 := (ops.drop 1).headD 0
  let go (st : Store) (f : Frame) : Next := .running st (f.next :: rest)
  let trap (why : String) : Next := .trap why (f :: rest)
  if sub ≤ 7 then
    let (a, f) := f.pop
    go st (f.push (Numeric.truncSatOp sub a))
  else
    let (args, f) := f.popN (if sub == 9 || sub == 13 then 0 else if sub == 16 then 0
      else if sub == 15 then 2 else 3)
    let a := (args.headD 0).toNat
    let b := ((args.drop 1).headD 0).toNat
    let c := ((args.drop 2).headD 0).toNat
    let lo (x : Nat) : Nat := x % Nat.pow 2 32
    match sub with
    | 8 =>
      let seg := st.data.getD i0 ByteArray.empty
      let mem := st.memory.getD ⟨ByteArray.empty, 0⟩
      let (dst, src, n) := (lo a, lo b, lo c)
      if src + n > seg.size || dst + n > mem.bytes.size then trap outOfBounds
      else match mem.write? dst (seg.extract src (src + n)) with
        | some mem' => go { st with memory := some mem' } f
        | none => trap outOfBounds
    | 9 => go { st with data := st.data.set! i0 ByteArray.empty } f
    | 10 =>
      let mem := st.memory.getD ⟨ByteArray.empty, 0⟩
      let (dst, src, n) := (lo a, lo b, lo c)
      if max dst src + n > mem.bytes.size then trap outOfBounds
      else match mem.write? dst (mem.bytes.extract src (src + n)) with
        | some mem' => go { st with memory := some mem' } f
        | none => trap outOfBounds
    | 11 =>
      let mem := st.memory.getD ⟨ByteArray.empty, 0⟩
      let (dst, v, n) := (lo a, b % 256, lo c)
      if dst + n > mem.bytes.size then trap outOfBounds
      else match mem.write? dst (ByteArray.mk (Array.replicate n v.toUInt8)) with
        | some mem' => go { st with memory := some mem' } f
        | none => trap outOfBounds
    | 12 =>
      let seg := st.elems.getD i0 #[]
      let table := st.tables.getD i1 #[]
      let (dst, src, n) := (lo a, lo b, lo c)
      if src + n > seg.size || dst + n > table.size then trap badTableAccess
      else
        let table := (List.range n).foldl (fun t k => t.set! (dst + k) (seg.getD (src + k) 0)) table
        go { st with tables := st.tables.set! i1 table } f
    | 13 => go { st with elems := st.elems.set! i0 #[] } f
    | 14 =>
      let dstT := st.tables.getD i0 #[]
      let srcT := st.tables.getD i1 #[]
      let (dst, src, n) := (lo a, lo b, lo c)
      if src + n > srcT.size || dst + n > dstT.size then trap badTableAccess
      else
        let moved := srcT.extract src (src + n)
        let dstT := (List.range n).foldl (fun t k => t.set! (dst + k) (moved.getD k 0)) dstT
        go { st with tables := st.tables.set! i0 dstT } f
    | 15 =>
      let table := st.tables.getD i0 #[]
      let (ref, n) := (args.headD 0, lo b)
      let size := table.size
      let pastMax := match st.tableMax.getD i0 none with
        | some mx => size + n > mx
        | none => false
      if n = 0 then go st (f.push size.toUInt64)
      else if size + n ≥ Nat.pow 2 32 - 1 || pastMax then go st (f.push 0xffffffff)
      else
        let grown := table ++ Array.replicate n ref
        go { st with tables := st.tables.set! i0 grown } (f.push size.toUInt64)
    | 16 => go st (f.push (st.tables.getD i0 #[]).size.toUInt64)
    | _ =>
      let table := st.tables.getD i0 #[]
      let (dst, ref, n) := (lo a, args.getD 1 0, lo c)
      if dst + n > table.size then trap badTableAccess
      else
        let table := (List.range n).foldl (fun t k => t.set! (dst + k) ref) table
        go { st with tables := st.tables.set! i0 table } f

/-- Runs the instruction at the innermost frame's next position. -/
def exec (m : Module) (st : Store) (f : Frame) (rest : List Frame) : Next :=
  let go (st : Store) (f : Frame) : Next := .running st (f.next :: rest)
  let trap (why : String) : Next := .trap why (f :: rest)
  match f.body.instrs[f.pc]? with
  | none => leave st f rest
  | some ins =>
    let op := ins.op
    match op, ins.imm with
    | 0x00, _ => trap "unreachable"
    | 0x01, _ => go st f
    | 0x02, _ =>
      let (params, results) := blockArity m ins
      let t : Target := ⟨results, f.stack.size - params, f.body.ends.getD f.pc 0 + 1⟩
      go st { f with targets := t :: f.targets }
    | 0x03, _ =>
      let (params, _) := blockArity m ins
      let t : Target := ⟨params, f.stack.size - params, f.pc⟩
      go st { f with targets := t :: f.targets }
    | 0x04, _ =>
      let (params, results) := blockArity m ins
      let (c, f) := f.pop
      let stop := f.body.ends.getD f.pc 0
      let t : Target := ⟨results, f.stack.size - params, stop + 1⟩
      if c.toNat % Nat.pow 2 32 != 0 then go st { f with targets := t :: f.targets }
      else match f.body.elses.getD f.pc none with
        | some e => .running st ({ f with targets := t :: f.targets, pc := e + 1 } :: rest)
        | none => .running st ({ f with pc := stop + 1 } :: rest)
    | 0x05, _ =>
      match f.targets with
      | t :: outer => .running st ({ f with targets := outer, pc := t.next } :: rest)
      | [] => leave st f rest
    | 0x0b, _ =>
      match f.targets with
      | [_] | [] => leave st f rest
      | _ :: outer => go st { f with targets := outer }
    | 0x0c, some (.branch l) => branch st f rest l.toNat
    | 0x0d, some (.branch l) =>
      let (c, f) := f.pop
      if c.toNat % Nat.pow 2 32 != 0 then branch st f rest l.toNat else go st f
    | 0x0e, some (.brTable labels dflt) =>
      let (i, f) := f.pop
      let k := i.toNat % Nat.pow 2 32
      branch st f rest ((labels[k]?.getD dflt).toNat)
    | 0x0f, _ => leave st f rest
    | 0x10, some (.call idx) => call m st f rest idx.toNat
    | 0x11, some (.callIndirect typeIdx tableIdx) =>
      let (i, f) := f.pop
      let table := st.tables.getD tableIdx.toNat #[]
      let k := i.toNat % Nat.pow 2 32
      match table[k]? with
      | none => .trap badTableAccess (f :: rest)
      | some 0 => .trap badTableAccess (f :: rest)
      | some ref =>
        let target := ref.toNat - 1
        if m.typeOf? target != m.types[typeIdx.toNat]? then
          .trap "indirect call type mismatch" (f :: rest)
        else call m st f rest target
    | 0x1a, _ => go st f.pop.2
    | 0x1b, _ | 0x1c, _ =>
      let (c, f) := f.pop
      let (b, f) := f.pop
      let (a, f) := f.pop
      go st (f.push (if c.toNat % Nat.pow 2 32 != 0 then a else b))
    | 0x20, some (.localVar i) => go st (f.push (f.locals.getD i.toNat 0))
    | 0x21, some (.localVar i) =>
      let (v, f) := f.pop
      go st { f with locals := f.locals.set! i.toNat v }
    | 0x22, some (.localVar i) =>
      let v := f.stack.back?.getD 0
      go st { f with locals := f.locals.set! i.toNat v }
    | 0x23, some (.global i) => go st (f.push (st.globals.getD i.toNat 0))
    | 0x24, some (.global i) =>
      let (v, f) := f.pop
      go { st with globals := st.globals.set! i.toNat v } f
    | 0x25, some (.table t) =>
      let (i, f) := f.pop
      match (st.tables.getD t.toNat #[])[i.toNat % Nat.pow 2 32]? with
      | some r => go st (f.push r)
      | none => .trap badTableAccess (f :: rest)
    | 0x26, some (.table t) =>
      let (r, f) := f.pop
      let (i, f) := f.pop
      let table := st.tables.getD t.toNat #[]
      let k := i.toNat % Nat.pow 2 32
      if k < table.size then go { st with tables := st.tables.set! t.toNat (table.set! k r) } f
      else .trap badTableAccess (f :: rest)
    | 0x3f, _ =>
      let pages := match st.memory with
        | some mem => mem.pages
        | none => 0
      go st (f.push pages.toUInt64)
    | 0x40, _ =>
      let (d, f) := f.pop
      match st.memory with
      | none => go st (f.push 0xffffffff)
      | some mem =>
        match mem.grow? (d.toNat % Nat.pow 2 32) with
        | some (prev, mem') => go { st with memory := some mem' } (f.push prev.toUInt64)
        | none => go st (f.push 0xffffffff)
    | 0x41, some (.i32 v) => go st (f.push v.toUInt32.toUInt64)
    | 0x42, some (.i64 v) => go st (f.push v.toUInt64)
    | 0x43, some (.f32 b) => go st (f.push b.toUInt64)
    | 0x44, some (.f64 b) => go st (f.push b)
    | 0xd0, _ => go st (f.push 0)
    | 0xd1, _ =>
      let (r, f) := f.pop
      go st (f.push (Numeric.ofBool (r == 0)))
    | 0xd2, some (.refFunc idx) => go st (f.push (idx.toUInt64 + 1))
    | 0xfc, some (.misc sub ops) => execMisc st f rest sub.toNat (ops.map (·.toNat))
    | _, some (.memArg _ offset _) => access st f rest op offset.toNat
    | _, _ =>
      if 0x45 ≤ op && op ≤ 0xc4 then
        let arity := match numericRule op with
          | some (operands, _, _) => operands.length
          | none => 1
        let (args, f) := f.popN arity
        match Numeric.apply op args with
        | .ok v => go st (f.push v)
        | .error why => .trap why (f :: rest)
      else .done st

/-- The engine's text of a function in a stack trace: module and function name, then its
parameter and result types. A function without a name is named by its index. -/
def frameText (m : Module) (idx : Nat) : String :=
  let names := m.names.getD {}
  let fname := match names.functionNames.find? (·.1 == idx) with
    | some (_, n) => n
    | none => "$" ++ toString idx
  let t := (m.typeOf? idx).getD ⟨[], []⟩
  let results := match t.results with
    | [] => ""
    | [r] => " " ++ typeName r
    | rs => " (" ++ ",".intercalate (rs.map typeName) ++ ")"
  names.moduleName ++ "." ++ fname ++ "(" ++ ",".intercalate (t.params.map typeName) ++ ")" ++
    results

/-- The most frames a stack trace names. -/
def maxTraceFrames : Nat := 30

/-- The engine's text of a trap: the reason and the frames it stopped in, at most
`maxTraceFrames` of them, a trace that reaches that many ending with a line that says more may
follow. -/
def trapText (m : Module) (why : String) (frames : List Frame) : String :=
  let shown := (frames.take maxTraceFrames).map fun f => frameText m f.func
  let lines := if shown.length = maxTraceFrames then shown ++ ["... maybe followed by omitted frames"]
    else shown
  "wasm error: " ++ why ++ "\nwasm stack trace:\n\t" ++ "\n\t".intercalate lines

/-- Runs the frames for at most `fuel` steps; the store at the end, or the text of a trap. -/
def runFrames (m : Module) (st : Store) (frames : List Frame) : Nat → Except String Store
  | 0 => .ok st
  | fuel + 1 =>
    match frames with
    | [] => .ok st
    | f :: rest =>
      match exec m st f rest with
      | .running st' frames' => runFrames m st' frames' fuel
      | .done st' => .ok st'
      | .trap why fs => .error (trapText m why fs)

/-- Calls function `idx` without arguments and runs it for at most `fuel` steps. -/
def Store.call (st : Store) (m : Module) (idx : Nat) (fuel : Nat) : Except String Store :=
  match enter m idx [] with
  | some f => runFrames m st [f] fuel
  | none => .ok st

end WasmImage.Engine
