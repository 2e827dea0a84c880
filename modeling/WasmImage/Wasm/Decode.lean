import WasmImage.Binary.Leb128
import WasmImage.Wasm.Module
import WasmImage.Text.Hex

/-!
Decoding a module from its binary form. Sections come in their canonical order, custom sections
anywhere; each section is read from its own bytes and must use all of them. A failure inside a
section, or in the framing around one, is reported at a place and the position reached there.
-/

namespace WasmImage.Wasm

/-- Where in the binary a decoding failure happened. -/
inductive Place where
  | header
  | sectionHeader
  | sectionSize
  | sectionData
  /-- Inside the section with this id. -/
  | inSection (id : UInt8)
  deriving DecidableEq, Repr

/-- The text name of a section id. -/
def sectionName (id : UInt8) : String :=
  match id with
  | 0 => "custom section"
  | 1 => "type section"
  | 2 => "import section"
  | 3 => "function section"
  | 4 => "table section"
  | 5 => "memory section"
  | 6 => "global section"
  | 7 => "export section"
  | 8 => "start section"
  | 9 => "element section"
  | 10 => "code section"
  | 11 => "data section"
  | 12 => "data count section"
  | _ => "section 0x" ++ Hex.byte id

/-- The text name of a place. -/
def Place.name : Place → String
  | .header => "header"
  | .sectionHeader => "section header"
  | .sectionSize => "section size"
  | .sectionData => "section data"
  | .inSection id => sectionName id

/-- Why a module failed to decode. -/
inductive DecodeError where
  | read (f : ReadFault)
  | badMagic
  | badVersion
  | unknownSection (id : UInt8)
  | outOfOrder (id : UInt8)
  | sizeMismatch
  | countMismatch (funcs codes : Nat)
  /-- The failure of entry `i` of a vector. -/
  | entry (i : Nat) (e : DecodeError)
  | typeForm (b : UInt8)
  | importKind (b : UInt8)
  | exportKind (b : UInt8)
  | limitsTooWide
  | limitsOrder (min max : UInt64)
  | tableElemType (b : UInt8)
  | elemFlags (f : UInt32)
  | dataFlags (f : UInt32)
  | constOpcode (op : UInt8)
  /-- A failure at a place of the binary, with the position reached there. -/
  | at (place : Place) (pos : Nat) (e : DecodeError)
  deriving Repr

/-- The text of a decoding failure. -/
def DecodeError.message : DecodeError → String
  | .read f => f.message
  | .badMagic => "invalid wasm magic number"
  | .badVersion => "invalid wasm version"
  | .unknownSection id => "unknown section ID: 0x" ++ Hex.byte id
  | .outOfOrder id => s!"section {id} appears out of order"
  | .sizeMismatch => "section size mismatch"
  | .countMismatch a b => s!"function and code section have inconsistent lengths: {a} != {b}"
  | .entry i e => s!"entry {i}: " ++ e.message
  | .typeForm b => "unsupported type form 0x" ++ Hex.byte b
  | .importKind b => s!"unknown import kind: {b}"
  | .exportKind b => "invalid export kind: 0x" ++ Hex.byte b
  | .limitsTooWide => "limits exceed 32-bit range"
  | .limitsOrder lo hi => s!"limits min ({lo}) exceeds max ({hi})"
  | .tableElemType b => "unsupported table element type 0x" ++ Hex.byte b
  | .elemFlags f => s!"invalid element segment flags: {f}"
  | .dataFlags f => s!"invalid data segment flags: {f}"
  | .constOpcode op => "unsupported opcode 0x" ++ Hex.byte op ++ " in constant expression"
  | .at place pos e => s!"wasm: {place.name} at position {pos}: " ++ e.message

/-- Whether the failure was reported at a place of the binary. -/
def DecodeError.isPlaced : DecodeError → Bool
  | .at .. => true
  | _ => false

namespace Decode

open Reader

/-- A read whose faults are decoding failures. -/
abbrev Step := Reader DecodeError

/-- Lifts a primitive read. -/
def rd {α : Type} (r : Reader ReadFault α) : Step α := Reader.lift DecodeError.read r

/-- Runs `step` on `bytes` alone: its outcome and the position it reached. -/
def within {α : Type} (step : Step α) (bytes : ByteArray) : Except DecodeError α × Nat :=
  let (res, c) := step.run bytes
  (res, c.pos)

/-- Reads `count` items in a row; the failure of item `i` is reported as entry `i`. -/
def items {α : Type} (count : Nat) (item : Step α) : Step (Array α) := do
  let mut out := #[]
  for i in [0:count] do
    let x ← tryCatch item (fun e => throw (DecodeError.entry i e))
    out := out.push x
  return out

/-- A vector: a count, then that many items. -/
def vector {α : Type} (item : Step α) : Step (Array α) := do
  let n ← rd Leb128.readU32
  items n.toNat item

/-- A name: its byte length, then UTF-8 bytes. -/
def name : Step String := do
  let n ← rd Leb128.readU32
  let b ← rd (bytes n.toNat)
  match String.fromUTF8? b with
  | some s => return s
  | none => throw (.read (.badName (← position)))

/-- A vector of value types; a count beyond the bytes left is cut short at once. -/
def valTypes : Step (List ValType) := do
  let n ← rd Leb128.readU32
  if n.toNat > (← remaining) then throw (.read .truncated)
  let bs ← rd (bytes n.toNat)
  return bs.toList.map ValType.mk

/-- Limits: a flags byte (1 a maximum follows, 2 shared, 4 memory64), the minimum and maybe a
maximum. Without memory64 both must fit 32 bits, and the minimum must not pass the maximum. -/
def limits : Step Limits := do
  let flags ← rd byte
  let shared := flags &&& 2 != 0
  let memory64 := flags &&& 4 != 0
  let min ← rd Leb128.readU64
  let max ← if flags &&& 1 != 0 then some <$> rd Leb128.readU64 else pure none
  if !memory64 && (min > 0xffffffff || max.any (· > 0xffffffff)) then
    throw .limitsTooWide
  match max with
  | some hi => if min > hi then throw (.limitsOrder min hi)
  | none => pure ()
  return { min, max, shared, memory64 }

/-- A table type: element type (funcref or externref), then limits. -/
def tableType : Step TableType := do
  let b ← rd byte
  if b != 0x70 && b != 0x6f then throw (.tableElemType b)
  let l ← limits
  return { elemType := ⟨b⟩, limits := l }

/-- A global type: value type, then a mutability byte (any non-zero byte is mutable). -/
def globalType : Step GlobalType := do
  let t ← rd byte
  let m ← rd byte
  return { valType := ⟨t⟩, mutable := m != 0 }

/-- Skips the immediate of an opcode allowed in a constant expression. -/
def constImmediate (op : UInt8) : Step Unit :=
  match op with
  | 0x41 => do let _ ← rd Leb128.readS32
  | 0x42 => do let _ ← rd Leb128.readS64
  | 0x43 => do let _ ← rd (bytes 4)
  | 0x44 => do let _ ← rd (bytes 8)
  | 0x23 | 0xd2 => do let _ ← rd Leb128.readU32
  | 0xd0 => do let _ ← rd byte
  | 0x6a | 0x6b | 0x6c | 0x7c | 0x7d | 0x7e => pure ()
  | _ => throw (.constOpcode op)

/-- Opcodes up to and including the first end byte. Every step reads a byte, so `fuel`, the
number of bytes left plus one, outlasts the input. -/
def constExprFrom : Nat → Step Unit
  | 0 => throw (.read .endOfInput)
  | fuel + 1 => do
    let op ← rd byte
    if op = 0x0b then return
    constImmediate op
    constExprFrom fuel

/-- A constant expression, copied with its end byte. -/
def constExpr : Step ByteArray := do
  let start ← position
  constExprFrom ((← remaining) + 1)
  slice start (← position)

/-- An element segment. -/
def element : Step Element := do
  let flags ← rd Leb128.readU32
  if flags > 7 then throw (.elemFlags flags)
  let usesExprs := flags &&& 4 != 0
  let tableIdx ← if flags &&& 2 != 0 && flags &&& 1 == 0 then rd Leb128.readU32 else pure 0
  let offset ← if flags &&& 1 == 0 then some <$> constExpr else pure none
  let (elemKind, type) ← if flags &&& 3 != 0 then do
      let b ← rd byte
      pure (if usesExprs then ((0 : UInt8), ValType.mk b) else (b, ValType.funcref))
    else pure (0, ValType.funcref)
  let n ← rd Leb128.readU32
  let items ← if usesExprs then
      (fun es => ElemItems.exprs es.toList) <$> items' n.toNat constExpr
    else
      (fun fs => ElemItems.funcs fs.toList) <$> items' n.toNat (rd Leb128.readU32)
  return { flags, tableIdx, offset, elemKind, type, items }
where
  /-- Items whose failures are passed on as they are. -/
  items' {α : Type} (count : Nat) (item : Step α) : Step (Array α) := do
    let mut out := #[]
    for _ in [0:count] do
      out := out.push (← item)
    return out

/-- The locals and code of a function body, read from the body's own bytes. -/
def bodyContents : Step Body := do
  let groups ← vector do
    let n ← rd Leb128.readU32
    let t ← rd byte
    return ({ count := n, type := ⟨t⟩ } : LocalGroup)
  let code ← rest
  return { locals := groups.toList, code }

/-- A function body: its size, then its bytes. -/
def body : Step Body := do
  let size ← rd Leb128.readU32
  let bytes ← rd (bytes size.toNat)
  match (within bodyContents bytes).1 with
  | .ok b => return b
  | .error e => throw e

/-- A data segment. -/
def dataSegment : Step DataSegment := do
  let flags ← rd Leb128.readU32
  if flags > 2 then throw (.dataFlags flags)
  let memIdx ← if flags = 2 then rd Leb128.readU32 else pure 0
  let offset ← if flags != 1 then some <$> constExpr else pure none
  let n ← rd Leb128.readU32
  let init ← rd (bytes n.toNat)
  return { flags, memIdx, offset, init }

/-- An import. -/
def importEntry : Step Import := do
  let module ← name
  let field ← name
  let kind ← rd byte
  let desc ← match kind with
    | 0 => ImportDesc.func <$> rd Leb128.readU32
    | 1 => ImportDesc.table <$> tableType
    | 2 => ImportDesc.memory <$> limits
    | 3 => ImportDesc.global <$> globalType
    | _ => throw (.importKind kind)
  return { module, name := field, desc }

/-- An export. -/
def exportEntry : Step Export := do
  let field ← name
  let b ← rd byte
  let kind ← match ExternKind.ofByte? b with
    | some k => pure k
    | none => throw (.exportKind b)
  let idx ← rd Leb128.readU32
  return { name := field, kind, idx }

/-- A function type: the form byte 0x60, then parameter and result types. -/
def funcType : Step FuncType := do
  let form ← rd byte
  if form != 0x60 then throw (.typeForm form)
  let params ← valTypes
  let results ← valTypes
  return { params, results }

/-- A defined global: its type, then its initializer. -/
def global : Step Global := do
  let type ← globalType
  let init ← constExpr
  return { type, init }

/-- Adds the contents of section `id` to `m`. -/
def sectionContents (id : UInt8) (m : Module) : Step Module :=
  match id with
  | 0 => do
    let n ← name
    let data ← rest
    return { m with customs := m.customs.push { name := n, data } }
  | 1 => do return { m with types := m.types ++ (← vector funcType) }
  | 2 => do return { m with imports := m.imports ++ (← vector importEntry) }
  | 3 => do return { m with funcs := m.funcs ++ (← vector (rd Leb128.readU32)) }
  | 4 => do return { m with tables := m.tables ++ (← vector tableType) }
  | 5 => do return { m with memories := m.memories ++ (← vector limits) }
  | 6 => do return { m with globals := m.globals ++ (← vector global) }
  | 7 => do return { m with exports := m.exports ++ (← vector exportEntry) }
  | 8 => do return { m with start := some (← rd Leb128.readU32) }
  | 9 => do return { m with elements := m.elements ++ (← vector element) }
  | 10 => do return { m with code := m.code ++ (← vector body) }
  | 11 => do return { m with data := m.data ++ (← vector dataSegment) }
  | 12 => do return { m with dataCount := some (← rd Leb128.readU32) }
  | _ => throw (.unknownSection id)

/-- The rank of a section id in the canonical order; zero for ids that are not sections. The
data count section comes before the code section. -/
def sectionRank (id : UInt8) : Nat :=
  match id with
  | 1 => 1 | 2 => 2 | 3 => 3 | 4 => 4 | 5 => 5 | 6 => 6 | 7 => 7 | 8 => 8 | 9 => 9
  | 12 => 10 | 10 => 11 | 11 => 12
  | _ => 0

/-- Wraps a failure of `step` at `place`, with the position the cursor reached. -/
def placed {α : Type} (place : Place) (step : Step α) : Step α :=
  tryCatch step fun e => do throw (DecodeError.at place (← position) e)

/-- One section: its id (checked against the order so far), size and bytes, then its contents
read from those bytes. Returns the module and the new rank. -/
def nextSection (m : Module) (last : Nat) : Step (Module × Nat) := do
  let id ← placed .sectionHeader (rd byte)
  let mut rank := last
  if id != 0 then
    let r := sectionRank id
    if r = 0 then throw (.unknownSection id)
    if r ≤ last then throw (.outOfOrder id)
    rank := r
  let size ← placed .sectionSize (rd Leb128.readU32)
  let data ← placed .sectionData (rd (bytes size.toNat))
  let (res, sub) := (sectionContents id m).run data
  match res with
  | .error e => throw (.at (.inSection id) sub.pos e)
  | .ok m' =>
    if id != 0 && sub.remaining != 0 then
      throw (.at (.inSection id) sub.pos .sizeMismatch)
    return (m', rank)

/-- Sections until the bytes run out. Each section reads at least its id byte, so `fuel`, the
number of bytes left, outlasts the input. -/
def sectionsFrom : Nat → Module → Nat → Step Module
  | 0, m, _ => return m
  | fuel + 1, m, last => do
    if (← remaining) = 0 then return m
    let (m', rank) ← nextSection m last
    sectionsFrom fuel m' rank

/-- A whole module: magic number, version 1, then its sections; as many function bodies as
declared functions. -/
def module : Step Module := do
  let magic ← placed .header (rd word32)
  if magic != 0x6d736100 then throw .badMagic
  let version ← placed .header (rd word32)
  if version != 1 then throw .badVersion
  let m ← sectionsFrom (← remaining) {} 0
  if m.funcs.size != m.code.size then throw (.countMismatch m.funcs.size m.code.size)
  return m

end Decode

/-- Decodes a module from its binary form. -/
def Module.decode (bytes : ByteArray) : Except DecodeError Module :=
  (Decode.module.run bytes).1

end WasmImage.Wasm
