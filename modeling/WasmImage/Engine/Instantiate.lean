import WasmImage.Engine.Run

/-!
Instantiating a validated module as the reference engine does: imports are resolved against the
modules already present, globals take their initial values, the memory gets its minimum pages,
active data segments are copied in, failing on the first that does not fit, and active element
segments fill the tables, stopping at the first that does not fit. Last the start function runs,
and a trap in it fails the instantiation.
-/

namespace WasmImage.Engine

open Wasm

/-- The most steps the start function may take. -/
def startFuel : Nat := Nat.pow 2 24

/-- The reference an element entry holds: a function's index plus one, a global's value, or the
null reference zero. -/
def ElemInit.ref (globals : Array UInt64) (e : ElemInit) : UInt64 :=
  match e with
  | .null => 0
  | .func f => f.toUInt64 + 1
  | .global _ => globals.getD (ElemInit.globalIndex e.code) 0

/-- The offset of an active element segment: a global's value or a constant, in 32 bits. -/
def elementOffset (globals : Array UInt64) (off : ConstInstr) : Nat :=
  if off.opcode == 0x23 then (globals.getD (Decode.immediateU32 off.data) 0).toNat % Nat.pow 2 32
  else off.word.toNat % Nat.pow 2 32

/-- Fills the tables with the active element segments in order, stopping at the first segment that
does not fit its table. A null entry leaves its slot as it was, and a table of external
references gets null references. -/
def fillTables (globals : Array UInt64) (tableTypes : Array TableType) :
    List ElementSegment → Array (Array UInt64) → Array (Array UInt64)
  | [], ts => ts
  | e :: es, ts =>
    if e.mode != .active || e.init.isEmpty then fillTables globals tableTypes es ts
    else
      let offset := (e.offset.map (elementOffset globals)).getD 0
      let table := ts.getD e.tableIdx #[]
      if offset + e.init.length > table.size then ts
      else
        let external := (tableTypes[e.tableIdx]?.map (·.refType)) == some 0x6f
        let table := e.init.zipIdx.foldl (fun t (x, k) =>
          if external then t.set! (offset + k) 0
          else if x == .null then t
          else t.set! (offset + k) (x.ref globals)) table
        fillTables globals tableTypes es (ts.set! e.tableIdx table)

/-- Instantiates `m`. `provides name` tells whether a module named `name` is present to import
from; `stubs` gives, for an import module and name, the type of the function it provides. -/
def Module.instantiate (m : Module) (provides : String → Bool)
    (stubs : String → String → Option FuncType) : Except String Instance := do
  for imp in m.imports do
    if !provides imp.module then throw ("module[" ++ imp.module ++ "] not instantiated")
    if let .func t := imp.desc then
      let expected := (m.types[t]?).getD ⟨[], []⟩
      match stubs imp.module imp.name with
      | none =>
        throw (Quote.quote imp.name ++ " is not exported in module " ++ Quote.quote imp.module)
      | some actual =>
        if actual != expected then
          throw ("import func[" ++ imp.module ++ "." ++ imp.name ++ "]: signature mismatch: " ++
            FuncType.key expected ++ " != " ++ FuncType.key actual)
  let globals := Array.replicate m.importedGlobals.size 0 ++ m.globals.map (·.init.word)
  let mut memory := m.memory.map fun t =>
    (⟨MemImage.zeroBytes (t.min * pageSize), t.max⟩ : LiveMemory)
  for h : i in [0:m.data.size] do
    let d := m.data[i]
    if let some off := d.offset then
      let offset := (off.word.toNat) % Nat.pow 2 32
      let some mem := memory | throw s!"data[{i}]: out of bounds memory access"
      match mem.write? offset d.init with
      | some mem' => memory := some mem'
      | none => throw s!"data[{i}]: out of bounds memory access"
  let tableTypes := m.allTables
  let tables := tableTypes.map fun t => Array.replicate t.min (0 : UInt64)
  let store : Store := {
    memory, globals, tableMax := tableTypes.map (·.max),
    tables := fillTables globals tableTypes m.elements.toList tables,
    data := m.data.map fun d => if d.passive then d.init else ByteArray.empty,
    elems := m.elements.map fun e =>
      if e.mode == .passive && e.refType == 0x70 then (e.init.map (·.ref globals)).toArray else #[] }
  let store ← match m.start with
    | none => pure store
    | some f =>
      match store.call m f startFuel with
      | .ok st => pure st
      | .error e => throw ("start " ++ Validate.funcDesc m f ++ " failed: " ++ e)
  let own := store.globals.extract m.importedGlobals.size store.globals.size
  return { memory := store.memory, globals := own }

end WasmImage.Engine
