import WasmImage.View.Basic
import WasmImage.Wasm.Encode

/-!
Writing a view back as a module. Everything but the data section is kept from the decoded
module. Each memory's segments become active data segments with constant offsets, emitted where
that memory's first active segment stood, or after the rest for memories that had none; passive
segments stay where they were. With a data count section, moving a passive segment would change
its index, which code may refer to, so that is refused.
-/

namespace WasmImage.View

open Wasm

/-- The constant expression `i32.const v`. -/
def constI32 (v : Int) : ByteArray :=
  Writer.signed (ByteArray.empty.push 0x41) v |>.push 0x0b

/-- The constant expression `i64.const v`. -/
def constI64 (v : Int) : ByteArray :=
  Writer.signed (ByteArray.empty.push 0x42) v |>.push 0x0b

/-- The data segments of memory `mem`: offsets as i64 constants for 64-bit memories, else as
i32 constants, which must fit 32 bits. -/
def dataSegments (v : View) (mem : Nat) : Except Fault (List DataSegment) :=
  match v.memories[mem]? with
  | none => .ok []
  | some md => md.segments.toList.zipIdx.mapM fun (seg, i) => do
    let offset ←
      if md.memory64 then pure (constI64 seg.offset.toInt64.toInt)
      else if seg.offset > 0xffffffff then
        throw (Fault.invalidData .encode [memoryName mem, "segment", toString i]
          ("offset 0x" ++ Hex.ofNat seg.offset.toNat ++ " exceeds 32-bit address space"))
      else pure (constI32 seg.offset.toUInt32.toInt32.toInt)
    return { flags := if mem = 0 then 0 else 2, memIdx := mem.toUInt32, offset := some offset,
             init := seg.data }

/-- The decoded module with the view's memory contents as its data section. -/
def toModule (v : View) : Except Fault Module := do
  let raw := v.raw
  let mut emitted := Array.replicate v.memories.size false
  let mut data : Array DataSegment := #[]
  for (seg, i) in raw.data.toList.zipIdx do
    if !seg.isActive then
      if data.size != i && raw.dataCount.isSome then
        throw { phase := .encode, kind := .unsupported, path := ["data", toString i],
                detail := s!"rewriting memory segments would renumber passive segment {i} to {data.size}" }
      data := data.push seg
    else
      let mem := seg.memIdx.toNat
      if mem < v.memories.size && !emitted[mem]! then
        emitted := emitted.set! mem true
        data := data ++ (← v.dataSegments mem)
  for mem in [0:v.memories.size] do
    if !emitted[mem]! then
      data := data ++ (← v.dataSegments mem)
  return { raw with data, dataCount := raw.dataCount.map fun _ => data.size.toUInt32 }

/-- The binary form of the view. -/
def encode (v : View) : Except Fault ByteArray :=
  (·.encode) <$> v.toModule

end WasmImage.View
