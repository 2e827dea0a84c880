import WasmImage.Image.Basic
import WasmImage.Log

/-!
Building the image of a module, and writing it back.

A memory's image is its initial pages, zeroed, with the active data segments copied in order; a
memory over 65536 pages does not fit a 32-bit address space, and a segment that ends past the
memory is invalid. Globals whose initial value is a known number keep it. Each role defaults to the
first global, memory or table; the conventional exports can name them instead, and ids given
explicitly win over both. A chosen id must exist.

Writing back replaces every memory's data segments by one segment at offset 0 holding its bytes.
-/

namespace WasmImage

/-- How the roles are chosen. -/
structure RoleChoice where
  /-- Whether the exports `__stack_pointer`, `memory` and `__indirect_function_table` name them. -/
  fromExports : Bool := false
  /-- Ids given explicitly; they win over the exports. -/
  given : Roles := {}
  deriving DecidableEq, Repr

/-- An option of building an image: an id given for one role, or asking the exports to name the
roles. -/
inductive BuildOption where
  | stackPointer (g : UInt32)
  | mainHeap (m : UInt32)
  | mainTable (t : UInt32)
  | rolesFromExports
  deriving DecidableEq, Repr

namespace RoleChoice

/-- The choice with one more option applied: an id replaces the one given before for its role. -/
def apply (c : RoleChoice) : BuildOption → RoleChoice
  | .stackPointer g => { c with given := { c.given with stackPointer := some g } }
  | .mainHeap m => { c with given := { c.given with mainHeap := some m } }
  | .mainTable t => { c with given := { c.given with mainTable := some t } }
  | .rolesFromExports => { c with fromExports := true }

/-- The choice that options make, applied in order. -/
def ofOptions (opts : List BuildOption) : RoleChoice := opts.foldl apply {}

end RoleChoice

/-- The export names that name the three roles by convention. -/
def stackPointerExport : String := "__stack_pointer"
def mainHeapExport : String := "memory"
def mainTableExport : String := "__indirect_function_table"

/-- The most pages whose bytes a 32-bit address space holds. -/
def maxPages : Nat := 65536

namespace Image

/-- The image of memory `id`: its initial pages with its segments copied in. -/
def buildMemory (id : Nat) (md : View.MemoryData) : Except Fault MemImage := do
  let label := memoryName id
  if md.initialPages.toNat > maxPages then
    throw { phase := .build, kind := .unsupported, path := [label],
            detail := "initial size of " ++ toString md.initialPages ++ " pages exceeds 4 GiB" }
  let mut mem := MemImage.zeroed label md.initialPages.toNat
  for h : i in [0:md.segments.size] do
    let seg := md.segments[i]
    let stop := seg.offset + seg.data.size.toUInt64
    if seg.offset.toNat > mem.len || stop.toNat > mem.len then
      throw (Fault.invalidData .build [label, "segment", toString i]
        ("segment end 0x" ++ Hex.ofNat stop.toNat ++ " exceeds 0x" ++ Hex.ofNat mem.len))
    mem := { mem with bytes := seg.data.copySlice 0 mem.bytes seg.offset.toNat seg.data.size }
  return mem

/-- The id an export names for a role, if `name` is exported as that kind. -/
def exported (v : View) (name : String) (kind : Wasm.ExternKind) : Option UInt32 :=
  match v.export? name with
  | some e => if e.kind == kind then some e.index else none
  | none => none

/-- The roles asked for: given ids, then the exports if they are asked to name them. -/
def requested (v : View) (choice : RoleChoice) : Roles :=
  if choice.fromExports then
    { stackPointer := choice.given.stackPointer <|> exported v stackPointerExport .global
      mainHeap := choice.given.mainHeap <|> exported v mainHeapExport .memory
      mainTable := choice.given.mainTable <|> exported v mainTableExport .table }
  else choice.given

/-- The role fields of the log line, for the roles that are set. -/
def roleFields (r : Roles) : List (String × LogValue) :=
  (r.stackPointer.map fun g => ("stack_pointer", .str (globalName g.toNat))).toList ++
  (r.mainHeap.map fun m => ("main_heap", .str (memoryName m.toNat))).toList ++
  (r.mainTable.map fun t => ("main_table", .str (tableName t.toNat))).toList

/-- The roles of an image of `v` with `memories` memories, as `choice` asks. -/
def assignRoles (v : View) (memories : Nat) (choice : RoleChoice) : Logged Fault Roles := do
  let first (n : Nat) : Option UInt32 := if n > 0 then some 0 else none
  let asked := requested v choice
  let stackPointer ← match asked.stackPointer with
    | some g =>
      if g.toNat ≥ v.globals.size then
        throw (Fault.notFound .resolve "stack pointer" (globalName g.toNat))
      else pure (some g)
    | none => pure (first v.globals.size)
  let mainHeap ← match asked.mainHeap with
    | some m =>
      if m.toNat ≥ memories then throw (Fault.notFound .resolve "main heap" (memoryName m.toNat))
      else pure (some m)
    | none => pure (first memories)
  let mainTable ← match asked.mainTable with
    | some t =>
      if t.toNat ≥ v.tables.size then
        throw (Fault.notFound .resolve "main table" (tableName t.toNat))
      else pure (some t)
    | none => pure (first v.tables.size)
  let roles : Roles := { stackPointer, mainHeap, mainTable }
  logDebug "image" "image roles" (roleFields roles)
  return roles

/-- The images of the memories of `v`, in order. -/
def buildMemories (v : View) : Logged Fault (Array MemImage) := do
  let mut memories := #[]
  for h : i in [0:v.memories.size] do
    let md := v.memories[i]
    let mem ← ofExcept (buildMemory i md)
    memories := memories.push mem
    logDebug "image" "memory image"
      [("memory", .str (memoryName i)), ("pages", .num md.initialPages.toNat),
       ("segments", .num md.segments.size)]
  return memories

/-- The globals of `v` whose initial value is a known number, by id. -/
def knownGlobals (v : View) : GlobalMap :=
  (List.range v.globals.size).foldr (fun i acc =>
    match v.globals[i]? with
    | some g =>
      match g.value.bind (Value.ofBits? g.type) with
      | some val => (i.toUInt32, val) :: acc
      | none => acc
    | none => acc) []

/-- The image of `v`'s initial state, with roles chosen as `choice` asks. -/
def build (v : View) (choice : RoleChoice) : Logged Fault Image := do
  let memories ← buildMemories v
  let roles ← assignRoles v memories.size choice
  return { memories, globals := knownGlobals v, tables := v.tables.map (·.funcElements), roles }

end Image

/-- The module written back from `im`: every memory of the image gets one data segment at offset
0 with its bytes. A memory of the image that the module lacks is misuse. -/
def View.withImage (v : View) (im : Image) : Logged Misuse View := do
  let mut v := v
  for h : i in [0:im.memories.size] do
    let mem := im.memories[i]
    if i ≥ v.memories.size then
      throw (.notInModule i.toUInt32)
    v := { v with memories := v.memories.modify i fun md =>
      { md with segments := #[{ offset := 0, data := mem.bytes }] } }
    logDebug "image" "memory written back"
      [("memory", .str (memoryName i)), ("bytes", .num mem.len)]
  return v

end WasmImage
