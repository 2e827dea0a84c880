import WasmImage.Binary.Writer
import WasmImage.Wasm.Module

/-!
Encoding a module into its binary form: the header, then every non-empty section in canonical
order (start and data count only when present), custom sections last in their own order. Limits
flags are rebuilt from the limits, and constant expressions and code are copied as they are.
-/

namespace WasmImage.Wasm

namespace Encode

open Writer

/-- A section: its id, then its contents after their length. -/
def section_ (out : ByteArray) (id : UInt8) (contents : ByteArray) : ByteArray :=
  sized (out.push id) contents

/-- A vector: its count, then its entries. -/
def vector {α : Type} (out : ByteArray) (xs : Array α) (entry : ByteArray → α → ByteArray) :
    ByteArray :=
  xs.foldl entry (u32 out xs.size.toUInt32)

/-- A vector section, left out when it has no entries. -/
def vectorSection {α : Type} (out : ByteArray) (id : UInt8) (xs : Array α)
    (entry : ByteArray → α → ByteArray) : ByteArray :=
  if xs.isEmpty then out
  else section_ out id (vector ByteArray.empty xs entry)

/-- A list of value types with its count. -/
def valTypes (out : ByteArray) (ts : List ValType) : ByteArray :=
  pushAll (u32 out ts.length.toUInt32) (ts.map (·.byte))

/-- A function type: the form byte 0x60, then parameter and result types. -/
def funcType (out : ByteArray) (t : FuncType) : ByteArray :=
  valTypes (valTypes (out.push 0x60) t.params) t.results

/-- Limits, with flags rebuilt from what they hold. -/
def limits (out : ByteArray) (l : Limits) : ByteArray :=
  let flags : UInt8 :=
    (if l.max.isSome then 1 else 0) ||| (if l.shared then 2 else 0) ||| (if l.memory64 then 4 else 0)
  let out := u64 (out.push flags) l.min
  match l.max with
  | some hi => u64 out hi
  | none => out

def tableType (out : ByteArray) (t : TableType) : ByteArray :=
  limits (out.push t.elemType.byte) t.limits

def globalType (out : ByteArray) (g : GlobalType) : ByteArray :=
  (out.push g.valType.byte).push (if g.mutable then 1 else 0)

/-- A defined global: its type, then its initializer as it is. -/
def global (out : ByteArray) (g : Global) : ByteArray :=
  globalType out g.type ++ g.init

def importEntry (out : ByteArray) (i : Import) : ByteArray :=
  let out := (name (name out i.module) i.name).push i.desc.kind.toByte
  match i.desc with
  | .func t => u32 out t
  | .table t => tableType out t
  | .memory l => limits out l
  | .global g => globalType out g

def exportEntry (out : ByteArray) (e : Export) : ByteArray :=
  u32 ((name out e.name).push e.kind.toByte) e.idx

def element (out : ByteArray) (e : Element) : ByteArray :=
  let out := u32 out e.flags
  let out := if e.flags &&& 2 != 0 && e.flags &&& 1 == 0 then u32 out e.tableIdx else out
  let out := if e.isActive then out ++ e.offset.getD ByteArray.empty else out
  let usesExprs := e.flags &&& 4 != 0
  let out := if e.flags &&& 3 != 0 then out.push (if usesExprs then e.type.byte else e.elemKind) else out
  if usesExprs then
    let exprs := match e.items with
      | .exprs es => es
      | .funcs _ => []
    exprs.foldl (· ++ ·) (u32 out exprs.length.toUInt32)
  else
    let idxs := match e.items with
      | .funcs fs => fs
      | .exprs _ => []
    idxs.foldl u32 (u32 out idxs.length.toUInt32)

def localGroup (out : ByteArray) (g : LocalGroup) : ByteArray :=
  (u32 out g.count).push g.type.byte

/-- A function body: its size, then its local groups and its code. -/
def body (out : ByteArray) (b : Body) : ByteArray :=
  let contents := b.locals.foldl localGroup (u32 ByteArray.empty b.locals.length.toUInt32)
  sized out (contents ++ b.code)

def dataSegment (out : ByteArray) (d : DataSegment) : ByteArray :=
  let out := u32 out d.flags
  let out := if d.flags = 2 then u32 out d.memIdx else out
  let out := if d.flags != 1 then out ++ d.offset.getD ByteArray.empty else out
  sized out d.init

/-- A custom section: its name, then its bytes as they are. -/
def custom (out : ByteArray) (c : CustomSection) : ByteArray :=
  section_ out 0 (name ByteArray.empty c.name ++ c.data)

end Encode

open Writer Encode in
/-- The binary form of a module. -/
def Module.encode (m : Module) : ByteArray :=
  let out := word32 (word32 ByteArray.empty 0x6d736100) 1
  let out := vectorSection out 1 m.types funcType
  let out := vectorSection out 2 m.imports importEntry
  let out := vectorSection out 3 m.funcs u32
  let out := vectorSection out 4 m.tables tableType
  let out := vectorSection out 5 m.memories limits
  let out := vectorSection out 6 m.globals global
  let out := vectorSection out 7 m.exports exportEntry
  let out := match m.start with
    | some s => section_ out 8 (u32 ByteArray.empty s)
    | none => out
  let out := vectorSection out 9 m.elements element
  let out := match m.dataCount with
    | some n => section_ out 12 (u32 ByteArray.empty n)
    | none => out
  let out := vectorSection out 10 m.code body
  let out := vectorSection out 11 m.data dataSegment
  m.customs.foldl custom out

end WasmImage.Wasm
