import WasmImage.Engine.Instantiate
import WasmImage.Image.Basic
import WasmImage.View.Encode
import WasmImage.Log

/-!
Checking modules and images against the reference engine. Compiling asks whether the engine
accepts a binary. Checking an image writes its module back to binary, compiles it, links a stub
for every imported function, instantiates it without running any code, and compares the live
memory byte for byte and every exported global the image knows with the image.

Only modules that import nothing but functions, have no start function and at most one memory
can be checked. Memories are compared in chunks of 64 KiB from address 0; the first differing
byte is the answer.
-/

namespace WasmImage

/-- What comparing memories reads from a memory: its size and ranges of its bytes. -/
structure MemoryView where
  size : Nat
  read : Nat → Nat → Except Fault ByteArray

/-- An image memory as a view. -/
def MemImage.view (m : MemImage) : MemoryView :=
  ⟨m.size.toNat, fun off n => m.read off.toUInt32 n.toUInt32⟩

/-- The label of a live memory in faults. -/
def liveLabel : String := "live memory"

/-- A live memory as a view; reads past its end are faults of the read phase. -/
def Engine.LiveMemory.view (m : Engine.LiveMemory) : MemoryView :=
  ⟨m.size, fun off n => match m.read? off n with
    | some b => .ok b
    | none => .error (Fault.outOfBounds .read [liveLabel] off n m.size)⟩

namespace Verify

/-- The chunk size of memory comparison. -/
def chunk : Nat := 65536

/-- Two hexadecimal digits. -/
def hex2 (b : UInt8) : String := Hex.padded 2 b.toNat

/-- The first difference between `want` and `got`, labelled `label`: their sizes, else the first
differing byte. -/
def compareMemory (label : String) (want got : MemoryView) : Except Fault Unit := do
  let size := want.size
  if got.size != size then
    throw { phase := .verify, kind := .mismatch, path := [label],
            detail := "size 0x" ++ Hex.ofNat got.size ++ ", image has 0x" ++ Hex.ofNat size }
  for k in [0:size / chunk + 1] do
    let off := k * chunk
    if off < size then
      let n := min chunk (size - off)
      let a ← want.read off n
      let b ← got.read off n
      for h : i in [0:a.size] do
        let x := a[i]
        let y := b[i]?.getD 0
        if x != y then
          throw { phase := .verify, kind := .mismatch, path := [label],
                  detail := "byte at 0x" ++ Hex.ofNat (off + i) ++ " is 0x" ++ hex2 y ++
                    ", image has 0x" ++ hex2 x }

/-- Compiles `bytes` with the engine; a refusal is invalid data with the engine's reason, and a
crash of the engine is a crash. -/
def compileModule (cfg : Engine.Config) (bytes : ByteArray) : Except Failure Engine.Module :=
  match Engine.Module.compile cfg bytes with
  | .ok m => .ok m
  | .error (.invalid e) => .error (.fault (Fault.wrap .verify .invalidData e "wazero rejected module"))
  | .error (.crash t) => .error (.crash t)

/-- Compiles `bytes`, logging its size and imported function count. -/
def compile (cfg : Engine.Config) (bytes : ByteArray) : Logged Failure Unit := do
  let m ← ofExcept (compileModule cfg bytes)
  logDebug "verify" "module compiled"
    [("bytes", .num bytes.size), ("imported_funcs", .num m.importedFuncs.size)]

/-- The import modules of the function imports, in order of first appearance, with how many
functions each provides. -/
def stubModules (m : Engine.Module) : List (String × Nat) :=
  let mods := (m.imports.filter fun i => i.desc.kind == 0).toList.map (·.module)
  let order := mods.foldl (fun acc x => if acc.contains x then acc else acc ++ [x]) []
  order.map fun x => (x, mods.count x)

/-- The type of the stub for `module`.`name`: that of the last function import of that name. -/
def stubType (m : Engine.Module) (module name : String) : Option Wasm.FuncType :=
  m.imports.foldl (fun acc i => match i.desc with
    | .func t => if i.module == module && i.name == name then (m.types[t]?) <|> acc else acc
    | _ => acc) none

/-- Checks that `im` is what the engine makes of `v` when it instantiates it. -/
def image (v : View) (im : Image) (cfg : Engine.Config) : Logged Failure Unit := do
  let fault (f : Fault) : Logged Failure Unit := throw (.fault f)
  for imp in v.imports do
    if imp.kind != .func then
      fault (Fault.unsupported .verify
        ("imported " ++ imp.kind.name ++ " " ++ imp.module ++ "." ++ imp.name))
  if v.raw.start.isSome then fault (Fault.unsupported .verify "start function")
  if v.memories.size > 1 then
    fault (Fault.unsupported .verify (toString v.memories.size ++ " memories"))
  let bin ← ofExcept (v.encode.mapError .fault)
  let m ← ofExcept (compileModule cfg bin)
  let stubs := stubModules m
  for (name, count) in stubs do
    logDebug "verify" "stubbed imports" [("module", .str name), ("funcs", .num count)]
  let inst ← match m.instantiate (fun x => stubs.any (·.1 == x)) (stubType m) with
    | .ok i => pure i
    | .error e => throw (.fault (Fault.wrap .verify .invalidData e "instantiate module"))
  for (mem, i) in im.memories.toList.zipIdx do
    match inst.memory with
    | some live => ofExcept ((compareMemory (memoryName i) mem.view live.view).mapError .fault)
    | none => fault (Fault.notFound .verify "live memory" (memoryName i))
  for e in v.exports do
    if e.kind == .global then
      if let some want := im.globals.get? e.index then
        let live := inst.globals[e.index.toNat]?.getD 0
        let got := if want.type.isNarrow then live &&& 0xffffffff else live
        if got != want.bits then
          fault { phase := .verify, kind := .mismatch, path := [globalName e.index.toNat],
                  detail := "live value 0x" ++ Hex.ofNat got.toNat ++ ", image has " ++ want.text }
  logDebug "verify" "image matches instance"
    [("memories", .num im.memories.size), ("globals", .num im.globals.length)]

end Verify

end WasmImage
