import WasmImage.Binary.Leb128

/-!
Appending the pieces of the binary format to a byte array: numbers, names, fixed words and
blocks prefixed with their length.
-/

namespace WasmImage.Writer

/-- Appends a list of bytes. -/
def pushAll (out : ByteArray) (bs : List UInt8) : ByteArray :=
  bs.foldl ByteArray.push out

/-- Appends the shortest unsigned encoding of `n`. -/
def unsigned (out : ByteArray) (n : Nat) : ByteArray :=
  pushAll out (Leb128.unsigned n)

/-- Appends a 32-bit index or count. -/
def u32 (out : ByteArray) (v : UInt32) : ByteArray :=
  unsigned out v.toNat

/-- Appends an unsigned 64-bit number. -/
def u64 (out : ByteArray) (v : UInt64) : ByteArray :=
  unsigned out v.toNat

/-- Appends the shortest signed encoding of `i`. -/
def signed (out : ByteArray) (i : Int) : ByteArray :=
  pushAll out (Leb128.signed i)

/-- Appends `data` after its length. -/
def sized (out data : ByteArray) : ByteArray :=
  u32 out data.size.toUInt32 ++ data

/-- Appends a name: the length of its UTF-8 bytes, then the bytes. -/
def name (out : ByteArray) (s : String) : ByteArray :=
  sized out s.toUTF8

/-- Appends a four-byte little-endian word. -/
def word32 (out : ByteArray) (v : UInt32) : ByteArray :=
  pushAll out [v.toUInt8, (v >>> 8).toUInt8, (v >>> 16).toUInt8, (v >>> 24).toUInt8]

end WasmImage.Writer
