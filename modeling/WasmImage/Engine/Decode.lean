import WasmImage.Engine.Scan
import WasmImage.Engine.Module
import WasmImage.Engine.Opcode
import WasmImage.Text.Hex
import WasmImage.Text.Quote

/-!
Decoding a module binary as the reference engine does. Sections may come in any order and a
repeated section replaces the earlier one; each section's entries are read from the one stream,
and only then is the section's declared length compared with what was read. Failures are text:
`section <name>: <why>`, except for failures inside the import and global sections and of a
custom section's contents, which are reported bare.

A custom section other than `name` takes up to its declared number of bytes, as many as the
module has left, and fails only when none are left. The `name` section is decoded by its
subsections, counting its length down by their declared sizes, and may appear once.
-/

namespace WasmImage.Engine

open Wasm

namespace Decode

/-- The engine's name of a section id. -/
def sectionName : UInt8 → String
  | 0 => "custom" | 1 => "type" | 2 => "import" | 3 => "function" | 4 => "table"
  | 5 => "memory" | 6 => "global" | 7 => "export" | 8 => "start" | 9 => "element"
  | 10 => "code" | 11 => "data" | 12 => "data_count" | _ => "unknown"

/-- The engine's name of an extern kind byte. -/
def externName (b : UInt8) : String :=
  match b with
  | 0 => "func" | 1 => "table" | 2 => "memory" | 3 => "global"
  | _ => "0x" ++ Hex.ofNat b.toNat

/-- The prefix `0x` and the lowercase hexadecimal digits of `n`. -/
def hexText (n : Nat) : String := "0x" ++ Hex.ofNat n

/-- Prefixes the failure of `r` with `context`. -/
def withContext {α : Type} (context : String) (r : Scan α) : Scan α :=
  r.tryCatch fun e => throw (context ++ e)

/-- The value types the engine knows. -/
def isValueType (b : UInt8) : Bool :=
  b == 0x7f || b == 0x7e || b == 0x7d || b == 0x7c || b == 0x6f || b == 0x70 || b == 0x7b

/-- Reads `n` value types. -/
def valueTypes (n : Nat) : Scan (List ValType) := do
  if n = 0 then return []
  let bytes ← Scan.full n
  match bytes.toList.find? (fun b => !isValueType b) with
  | some b => throw s!"invalid value type: {b}"
  | none => return bytes.toList.map (⟨·⟩)

/-- A function type. -/
def funcType : Scan FuncType := do
  let b ← withContext "read leading byte: " Scan.byte
  if b != 0x60 then throw ("invalid byte: " ++ hexText b.toNat ++ " != 0x60")
  let (pc, _) ← withContext "could not read parameter count: " Scan.u32
  let ps ← withContext "could not read parameter types: " (valueTypes pc)
  let (rc, _) ← withContext "could not read result count: " Scan.u32
  let rs ← withContext "could not read result types: " (valueTypes rc)
  return ⟨ps, rs⟩

/-- Limits: the minimum, the maximum if given, and whether they are shared. -/
def limits : Scan (Nat × Option Nat × Bool) := do
  let flag ← withContext "read leading byte: " Scan.byte
  let shared := flag == 2 || flag == 3
  match flag with
  | 0 | 2 =>
    let (min, _) ← withContext "read min of limit: " Scan.u32
    return (min, none, shared)
  | 1 | 3 =>
    let (min, _) ← withContext "read min of limit: " Scan.u32
    let (max, _) ← withContext "read max of limit: " Scan.u32
    return (min, some max, shared)
  | b => throw ("invalid byte for limits: " ++ hexText b.toNat ++ " not in (0x00, 0x01, 0x02, 0x03)")

/-- A memory type, sized under `limit` pages. -/
def memoryType (limit : Nat) : Scan MemoryType := do
  let (min, max?, shared) ← limits
  if shared then throw "shared memory requested but threads feature not enabled"
  let m := MemoryType.sized limit min max? shared
  match m.check limit with
  | some e => throw e
  | none => return m

/-- The most table entries and function indices. -/
def maxFunctionIndex : Nat := Nat.pow 2 27

/-- A table type. -/
def tableType : Scan TableType := do
  let t ← withContext "read leading byte: " Scan.byte
  let (min, max?, shared) ← withContext "read limits: " limits
  if min > maxFunctionIndex then throw s!"table min must be at most {maxFunctionIndex}"
  if let some max := max? then
    if max < min then throw "table size minimum must not be greater than maximum"
  if shared then throw "tables cannot be marked as shared"
  return ⟨t, min, max?⟩

/-- A global type. -/
def globalType : Scan GlobalType := do
  let ts ← withContext "read value type: " (valueTypes 1)
  let mutByte ← withContext "read mutablity: " Scan.byte
  match mutByte with
  | 0 => return ⟨ts.headD ⟨0⟩, false⟩
  | 1 => return ⟨ts.headD ⟨0⟩, true⟩
  | b => throw ("invalid byte for mutability: " ++ hexText b.toNat ++ " != 0x00 or 0x01")

/-- A constant expression of one instruction and its end. A vector constant keeps the opcode
that follows its prefix. -/
def constExpr : Scan ConstInstr := do
  let op ← withContext "read opcode: " Scan.byte
  let start ← Reader.position
  let readValue {α : Type} (r : Scan α) : Scan Unit :=
    discard (withContext "read value: " r)
  let opcode ← match op with
    | 0x41 => do readValue Scan.s32; pure op
    | 0x42 => do readValue Scan.s64; pure op
    | 0x43 => do discard (withContext "read f32 constant: " (Scan.full 4)); pure op
    | 0x44 => do discard (withContext "read f64 constant: " (Scan.full 8)); pure op
    | 0x23 => do readValue Scan.u32; pure op
    | 0xd0 =>
      let t ← withContext "read reference type for ref.null: " Scan.byte
      if t != 0x70 && t != 0x6f then throw ("invalid type for ref.null: " ++ hexText t.toNat)
      pure op
    | 0xd2 => do readValue Scan.u32; pure op
    | 0xfd =>
      let sub ← withContext "read vector instruction opcode suffix: " Scan.byte
      if sub != 0x0c then throw ("invalid vector opcode for const expression: " ++ hexText sub.toNat)
      let imm ← withContext "read vector const instruction immediates: " (Scan.upTo 16)
      if imm.size != 16 then
        throw s!"read vector const instruction immediates: needs 16 bytes but was {imm.size} bytes"
      pure sub
    | b => throw ("invalid byte for const expression opt code: " ++ hexText b.toNat)
  let stop ← Reader.position
  let endByte ← withContext "look for end opcode: " Scan.byte
  if endByte != 0x0b then throw "constant expression has been not terminated"
  let data ← Reader.slice (if op == 0xfd then start + 1 else start) stop
  return ⟨opcode, data⟩

/-- An import entry, number `i`. -/
def importEntry (limit i : Nat) : Scan Import := do
  let (module, _) ← withContext s!"import[{i}] error decoding module: " (Scan.utf8 "import module")
  let (name, _) ← withContext s!"import[{i}] error decoding name: " (Scan.utf8 "import name")
  let kind ← withContext s!"import[{i}] error decoding type: " Scan.byte
  let desc := match kind with
    | 0 => (fun (t : Nat × Nat) => ImportDesc.func t.1) <$> Scan.u32
    | 1 => ImportDesc.table <$> tableType
    | 2 => ImportDesc.memory <$> memoryType limit
    | 3 => ImportDesc.global <$> globalType
    | b => throw ("invalid byte: invalid byte for importdesc: " ++ hexText b.toNat)
  let desc ← desc.tryCatch fun e =>
    throw (s!"import[{i}] " ++ externName kind ++ "[" ++ module ++ "." ++ name ++ "]: " ++ e)
  return ⟨module, name, desc⟩

/-- Reads a vector, the count first. -/
def vector {α : Type} (countContext : String) (entry : Nat → Scan α) : Scan (Array α) := do
  let (n, _) ← withContext countContext Scan.u32
  let mut out := #[]
  for i in [0:n] do
    out := out.push (← entry i)
  return out

/-- An export entry. -/
def exportEntry : Scan Export := do
  let (name, _) ← Scan.utf8 "export name"
  let kind ← withContext "error decoding export kind: " Scan.byte
  if kind > 3 then throw ("invalid byte: invalid byte for exportdesc: " ++ hexText kind.toNat)
  let (idx, _) ← withContext "error decoding export index: " Scan.u32
  return ⟨name, kind, idx⟩

/-- The export section, refusing a name given twice. -/
def exports : Scan (Array Export) := do
  let (n, _) ← withContext "get size of vector: " Scan.u32
  let mut out : Array Export := #[]
  for i in [0:n] do
    let e ← withContext "read export: " exportEntry
    if out.any (·.name == e.name) then
      throw (s!"export[{i}] duplicates name " ++ Quote.quote e.name)
    out := out.push e
  return out

/-- Function indices of an element segment. -/
def elemFuncs : Scan (List ElemInit) := do
  let v ← vector "get size of vector: " fun _ => do
    let (f, _) ← withContext "read function index: " Scan.u32
    if f ≥ maxFunctionIndex then throw s!"too large function index in Element init: {f}"
    return ElemInit.func f
  return v.toList

/-- The value of an unsigned LEB128 immediate, or zero. -/
def immediateU32 (data : ByteArray) : Nat :=
  match (Scan.runAt Scan.u32 data 0).1 with
  | .ok (v, _) => v
  | .error _ => 0

/-- Constant expressions of an element segment whose entries have type `t`. -/
def elemExprs (t : UInt8) : Scan (List ElemInit) := do
  let v ← vector "failed to get the size of constexpr vector: " fun _ => do
    let e ← constExpr
    match e.opcode with
    | 0xd2 =>
      if t != 0x70 then
        throw ("element type mismatch: want " ++ refTypeName t ++ ", but constexpr has funcref")
      let f := immediateU32 e.data
      if f ≥ maxFunctionIndex then throw s!"too large function index in Element init: {f}"
      return ElemInit.func f
    | 0xd0 =>
      let et := e.data[0]?.getD 0
      if t != et then
        throw ("element type mismatch: want " ++ refTypeName t ++ ", but constexpr has " ++
          refTypeName et)
      return ElemInit.null
    | 0x23 =>
      let g := match (Scan.runAt Scan.s32 e.data 0).1 with
        | .ok (v, _) => (v % Nat.pow 2 32).toNat
        | .error _ => 0
      return ElemInit.global g
    | op => throw ("const expr must be either ref.null or ref.func but was " ++ instrName op)
  return v.toList

/-- The element kind byte, which must be zero. -/
def elemKind : Scan Unit := do
  let k ← withContext "read element prefix: " Scan.byte
  if k != 0 then throw ("element kind must be zero but was " ++ hexText k.toNat)

/-- An element reference type. -/
def elemRefType : Scan UInt8 := do
  let t ← withContext "read element ref type: " Scan.byte
  if t != 0x70 && t != 0x6f then
    throw "ref type must be funcref or externref for element as of WebAssembly 2.0"
  return t

/-- An element segment. -/
def element : Scan ElementSegment := do
  let (prefix_, _) ← withContext "read element prefix: " Scan.u32
  let offset := withContext "read expr for offset: " constExpr
  let tableIndex := (·.1) <$> withContext "get size of vector: " Scan.u32
  match prefix_ with
  | 0 =>
    let off ← offset
    let init ← elemFuncs
    return { mode := .active, offset := some off, refType := 0x70, init }
  | 1 =>
    elemKind
    let init ← elemFuncs
    return { mode := .passive, refType := 0x70, init }
  | 2 =>
    let t ← tableIndex
    let off ← offset
    elemKind
    let init ← elemFuncs
    return { mode := .active, tableIdx := t, offset := some off, refType := 0x70, init }
  | 3 =>
    elemKind
    let init ← elemFuncs
    return { mode := .declarative, refType := 0x70, init }
  | 4 =>
    let off ← offset
    let init ← elemExprs 0x70
    return { mode := .active, offset := some off, refType := 0x70, init }
  | 5 =>
    let rt ← elemRefType
    let init ← elemExprs rt
    return { mode := .passive, refType := rt, init }
  | 6 =>
    let t ← tableIndex
    let off ← offset
    let rt ← elemRefType
    let init ← elemExprs rt
    return { mode := .active, tableIdx := t, offset := some off, refType := rt, init }
  | 7 =>
    let rt ← elemRefType
    let init ← elemExprs rt
    return { mode := .declarative, refType := rt, init }
  | p => throw ("invalid element segment prefix: " ++ hexText p)

/-- A function body. -/
def code : Scan Code := do
  let (size, _) ← withContext "get the size of code: " Scan.u32
  let (groups, groupsLen) ← withContext "get the size locals: " Scan.u32
  if groupsLen > size then throw "EOF"
  let mut remaining : Int := size - groupsLen
  let mut locals := #[]
  let mut sum := 0
  for _ in [0:groups] do
    let (n, nLen) ← withContext "read n of locals: " Scan.u32
    remaining := remaining - nLen - 1
    if remaining < 0 then throw "EOF"
    let t ← withContext "read type of local: " Scan.byte
    if !isValueType t then throw ("invalid local type: " ++ hexText t.toNat)
    sum := sum + n
    locals := locals.push (n, (⟨t⟩ : ValType))
  if sum > Nat.pow 2 32 - 1 then throw s!"too many locals: {sum}"
  let body ← withContext "read body: " (Scan.full remaining.toNat)
  if body.size = 0 || body[body.size - 1]! != 0x0b then throw "expr not end with OpcodeEnd"
  return ⟨locals.toList, body⟩

/-- A data segment. -/
def dataSegment : Scan DataSegment := do
  let (prefix_, _) ← withContext "read data segment prefix: " Scan.u32
  let seg ← match prefix_ with
    | 0 | 2 => do
      if prefix_ == 2 then
        let (d, _) ← withContext "read memory index: " Scan.u32
        if d != 0 then throw s!"memory index must be zero but was {d}"
      let off ← withContext "read offset expression: " constExpr
      pure (some off)
    | 1 => pure none
    | p => throw ("invalid data segment prefix: " ++ hexText p)
  let (n, _) ← withContext "get the size of vector: " Scan.u32
  let init ← withContext "read bytes for init: " (Scan.full n)
  return ⟨seg.isNone, seg, init⟩

/-- The function names subsection: a count, then function indices with their names. -/
def functionNames : Scan (List (Nat × String)) := do
  let (n, _) ← withContext "failed to read the function count of subsection[1]: " Scan.u32
  let mut out := #[]
  for _ in [0:n] do
    let (f, _) ← withContext "failed to read a function index in subsection[1]: " Scan.u32
    let (name, _) ← Scan.utf8 s!"function[{f}] name"
    out := out.push (f, name)
  return out.toList

/-- The local names subsection: a count, then for each function its index and its locals'
indices with their names. -/
def localNames : Scan (List (Nat × List (Nat × String))) := do
  let (n, _) ← withContext "failed to read the function count of subsection[2]: " Scan.u32
  let mut out := #[]
  for _ in [0:n] do
    let (f, _) ← withContext "failed to read a function index in subsection[2]: " Scan.u32
    let (k, _) ← withContext s!"failed to read the local count for function[{f}]: " Scan.u32
    let mut locals := #[]
    for _ in [0:k] do
      let (l, _) ← withContext s!"failed to read a local index of function[{f}]: " Scan.u32
      let (name, _) ← Scan.utf8 s!"function[{f}] local[{l}] name"
      locals := locals.push (l, name)
    out := out.push (f, locals.toList)
  return out.toList

/-- The `name` custom section of `limit` bytes. Each subsection is an id and a size; the module
name, function names and local names are decoded, others skipped by their size. The length left
is counted down by the declared sizes, whatever was read, and reading stops once it is zero or
below. -/
def nameSection (limit : Nat) : Scan NameSection := do
  let c ← get
  go {} limit (c.bytes.size - c.pos + 1)
where
  /-- Each round reads at least the subsection id, so the bytes left bound the rounds. -/
  go (acc : NameSection) (limit : Int) : Nat → Scan NameSection
    | 0 => pure acc
    | fuel + 1 => do
      if limit ≤ 0 then return acc
      let id ← withContext "failed to read a subsection ID: " Scan.byte
      let (size, sizeLen) ← withContext s!"failed to read the size of subsection[{id}]: " Scan.u32
      let acc ← match id with
        | 0 => do
          let (name, _) ← Scan.utf8 "module name"
          pure { acc with moduleName := name }
        | 1 => do pure { acc with functionNames := (← functionNames) }
        | 2 => do pure { acc with localNames := (← localNames) }
        | _ => do
          withContext s!"failed to skip subsection[{id}]: " (Scan.discardN size)
          pure acc
      go acc (limit - 1 - sizeLen - size) fuel

/-- What decoding a section does to the module; `bare` failures are not prefixed by the section. -/
inductive SectionFault where
  | wrapped (why : String)
  | bare (why : String)

/-- Decodes the contents of section `id` into `m`. -/
def sectionContents (cfg : Config) (id : UInt8) (size : Nat) (m : Module) :
    ExceptT SectionFault (StateM Cursor) Module := do
  let wrapped {α : Type} (r : Scan α) : ExceptT SectionFault (StateM Cursor) α :=
    ExceptT.adapt SectionFault.wrapped r
  let bare {α : Type} (r : Scan α) : ExceptT SectionFault (StateM Cursor) α :=
    ExceptT.adapt SectionFault.bare r
  match id with
  | 0 =>
    let (name, nameSize) ← wrapped (Scan.utf8 "custom section name")
    if size < nameSize then throw (.wrapped ("malformed custom section " ++ name))
    if name == "name" then
      if m.names.isSome then throw (.wrapped "redundant custom section name")
      let names ← wrapped (nameSection (size - nameSize))
      return { m with names := some names }
    discard <| bare (withContext ("failed to read custom section name[" ++ name ++ "]: ")
      (Scan.upTo (size - nameSize)))
    return m
  | 1 =>
    let types ← wrapped (vector "get size of vector: " fun i =>
      withContext s!"read {i}-th type: " funcType)
    return { m with types }
  | 2 =>
    let imports ← bare (vector "get size of vector: " (importEntry cfg.memoryLimitPages))
    return { m with imports }
  | 3 =>
    let funcs ← wrapped (vector "get size of vector: " fun _ =>
      (·.1) <$> withContext "get type index: " Scan.u32)
    return { m with funcs }
  | 4 =>
    let tables ← wrapped (vector "error reading size" fun _ => tableType)
    return { m with tables }
  | 5 =>
    let (n, _) ← wrapped (withContext "error reading size" Scan.u32)
    if n > 1 then throw (.wrapped s!"at most one memory allowed in module, but read {n}")
    if n = 0 then return { m with memory := none }
    let mem ← wrapped (memoryType cfg.memoryLimitPages)
    return { m with memory := some mem }
  | 6 =>
    let globals ← bare (vector "get size of vector: " fun i =>
      withContext s!"global[{i}]: " do
        let t ← globalType
        let init ← constExpr
        return (⟨t, init⟩ : Global))
    return { m with globals }
  | 7 =>
    let exports ← wrapped exports
    return { m with exports }
  | 8 =>
    if m.start.isSome then throw (.bare "multiple start sections are invalid")
    let (f, _) ← wrapped (withContext "get function index: " Scan.u32)
    return { m with start := some f }
  | 9 =>
    let elements ← wrapped (vector "get size of vector: " fun _ =>
      withContext "read element: " element)
    return { m with elements }
  | 10 =>
    let code ← wrapped (vector "get size of vector: " fun i =>
      withContext s!"read {i}-th code segment: " Decode.code)
    return { m with code := some code }
  | 11 =>
    let data ← wrapped (vector "get size of vector: " fun _ =>
      withContext "read data segment: " dataSegment)
    return { m with data }
  | 12 =>
    let n ← wrapped ((Scan.u32.tryCatch fun e =>
      if e == "EOF" then pure (0, 0) else throw e))
    return { m with dataCount := some n.1 }
  | _ => throw (.wrapped "invalid section id")

/-- Sections until the input ends; `fuel` bounds their number. -/
def sections (cfg : Config) (m : Module) : Nat → Scan Module
  | 0 => pure m
  | fuel + 1 => do
    if (← Reader.remaining) = 0 then return m
    let id ← Scan.byte
    let name := sectionName id
    let (size, _) ← withContext ("get size of section " ++ name ++ ": ") Scan.u32
    let start ← Reader.position
    let r ← (sectionContents cfg id size m).run
    match r with
    | .error (.bare e) => throw e
    | .error (.wrapped e) => throw ("section " ++ name ++ ": " ++ e)
    | .ok m' =>
      let read := (← Reader.position) - start
      if size != read then
        throw ("section " ++ name ++ ": invalid section length: expected to be " ++
          toString size ++ " but got " ++ toString read)
      sections cfg m' fuel

end Decode

/-- Decodes a module binary as the engine does, memories sized under `cfg`'s limit. -/
def Module.decode (cfg : Config) (bytes : ByteArray) : Except String Module :=
  let header : Scan Module := do
    let magic ← (Scan.full 4).tryCatch fun _ => throw "invalid magic number"
    if magic.toList != [0x00, 0x61, 0x73, 0x6d] then throw "invalid magic number"
    let version ← (Scan.full 4).tryCatch fun _ => throw "invalid version header"
    if version.toList != [0x01, 0x00, 0x00, 0x00] then throw "invalid version header"
    let m ← Decode.sections cfg {} bytes.size
    let codeCount := (m.code.map (·.size)).getD 0
    if m.funcs.size != codeCount then
      throw s!"function and code section have inconsistent lengths: {m.funcs.size} != {codeCount}"
    return m
  (Reader.run header bytes).1

end WasmImage.Engine
