import WasmImage.Image.Memory
import WasmImage.Image.Value
import WasmImage.View.Basic

/-!
The image of a module's initial state: the bytes of every memory, the values of the globals whose
initial value is a known number, the function elements of every table, and three roles (the global
holding the stack pointer, the memory that pointers address by default and the table that
function pointers index).

Memories are numbered by their position and fixed once the image is built; their bytes change
through writes. Globals form a map from ids to values, kept sorted by id, that callers may change
freely. An accessor given a memory that the image does not hold is misused, and says so by a
`Misuse` beside its own faults.
-/

namespace WasmImage

/-- The ids chosen for the three roles, each possibly absent. -/
structure Roles where
  stackPointer : Option UInt32 := none
  mainHeap : Option UInt32 := none
  mainTable : Option UInt32 := none
  deriving DecidableEq, Repr

/-- A use of the image outside its contract. -/
inductive Misuse where
  /-- An accessor named a memory the image does not hold. -/
  | missingMemory (id : UInt32)
  /-- A sized read of a width other than 1, 2, 4 or 8 bytes. -/
  | badWidth (width : UInt8)
  /-- An image written back into a module that lacks one of its memories. -/
  | notInModule (id : UInt32)
  deriving DecidableEq, Repr

/-- The text of a misuse. -/
def Misuse.message : Misuse → String
  | .missingMemory id => "image: " ++ memoryName id.toNat ++ " is not part of the image"
  | .badWidth w => s!"image: invalid read width {w}"
  | .notInModule id => "image: " ++ memoryName id.toNat ++ " does not exist in the module"

/-- Global values by id, sorted by id with each id once. -/
abbrev GlobalMap := List (UInt32 × Value)

namespace GlobalMap

/-- The value of global `id`. -/
def get? (g : GlobalMap) (id : UInt32) : Option Value :=
  (g.find? (·.1 == id)).map (·.2)

/-- Sets global `id` to `v`, keeping the ids sorted. -/
def insert (id : UInt32) (v : Value) : GlobalMap → GlobalMap
  | [] => [(id, v)]
  | (k, w) :: rest =>
    if id < k then (id, v) :: (k, w) :: rest
    else if id = k then (id, v) :: rest
    else (k, w) :: insert id v rest

/-- Removes global `id`. -/
def erase (g : GlobalMap) (id : UInt32) : GlobalMap := g.filter (·.1 != id)

end GlobalMap

/-- The image of a module's initial state. -/
structure Image where
  /-- Memory `i` at position `i`. -/
  memories : Array MemImage
  globals : GlobalMap := []
  /-- The function elements of table `i` at position `i`. -/
  tables : Array (Array UInt32) := #[]
  roles : Roles := {}

/-- A sized read of a width other than 1, 2, 4 or 8 is misuse. -/
def MemImage.readSize (m : MemImage) (addr : UInt32) (width : UInt8) :
    Except Misuse (Except Fault UInt64) :=
  match width with
  | 1 => .ok ((·.toUInt64) <$> m.readU8 addr)
  | 2 => .ok ((·.toUInt64) <$> m.readU16 addr)
  | 4 => .ok ((·.toUInt64) <$> m.readU32 addr)
  | 8 => .ok (m.readU64 addr)
  | w => .error (.badWidth w)

namespace Image

/-- Memory `id`, if the image holds it. -/
def memory? (im : Image) (id : UInt32) : Option MemImage := im.memories[id.toNat]?

/-- Runs `f` on memory `id`; a memory the image does not hold is misuse. -/
def withMemory {α : Type} (im : Image) (id : UInt32) (f : MemImage → α) : Except Misuse α :=
  match im.memory? id with
  | some m => .ok (f m)
  | none => .error (.missingMemory id)

/-- Replaces memory `id`, which the image holds, by what `f` makes of it. -/
def updateMemory (im : Image) (id : UInt32) (f : MemImage → Except Fault MemImage) :
    Except Misuse (Except Fault Image) :=
  im.withMemory id fun m =>
    (fun m' => { im with memories := im.memories.set! id.toNat m' }) <$> f m

/-- Writes `data` at `addr` of memory `id`; `none` when the image does not hold it. -/
def write? (im : Image) (id : UInt32) (addr : UInt32) (data : ByteArray) :
    Option (Except Fault Image) :=
  match im.updateMemory id (·.write addr data) with
  | .ok r => some r
  | .error _ => none

/-- Whether `size` bytes at `addr` of memory `id` are in the image; never for an unknown memory. -/
def canRead (im : Image) (id addr size : UInt32) : Bool :=
  match im.memory? id with
  | some m => m.canRead addr size
  | none => false

/-- The memory that pointers address by default. -/
def mainHeap (im : Image) : Except Fault UInt32 :=
  match im.roles.mainHeap with
  | some id => .ok id
  | none => .error (Fault.notConfigured .resolve "main heap")

/-- The function that slot `idx` of the main table holds; an empty slot holds `invalidFunc`. -/
def funcPtr (im : Image) (idx : UInt32) : Except Fault UInt32 :=
  match im.roles.mainTable with
  | none => .error (Fault.notConfigured .read "main table")
  | some t =>
    let elems := im.tables[t.toNat]?.getD #[]
    match elems[idx.toNat]? with
    | some f => .ok f
    | none => .error (Fault.indexOutOfBounds .read ["main table"] idx.toNat elems.size)

/-- Sets global `id` to `v`. -/
def setGlobal (im : Image) (id : UInt32) (v : Value) : Image :=
  { im with globals := im.globals.insert id v }

/-- Removes global `id`. -/
def eraseGlobal (im : Image) (id : UInt32) : Image :=
  { im with globals := im.globals.erase id }

end Image

end WasmImage
