import WasmImage.Binary.Cursor

/-!
Reading a module binary the way the reference engine reads it: one byte stream for the whole
module, where a section may read past its declared end (that is checked afterwards), failures as
text, and LEB128 numbers checked for overflow by their byte count and their unused high bits.

A read of a fixed number of bytes fails with `EOF` when no byte is left and with
`unexpected EOF` when some are; it then leaves the stream at its end. Two other reads take what
there is: one takes up to `n` bytes and fails only when the stream is already at its end, the
other skips `n` bytes and fails with `EOF` when fewer are left.
-/

namespace WasmImage.Engine

/-- A read of the engine's module binary; failures are text. -/
abbrev Scan := Reader String

namespace Scan

/-- The next byte. -/
def byte : Scan UInt8 := do
  let c ← get
  if h : c.pos < c.bytes.size then
    set { c with pos := c.pos + 1 }
    return c.bytes[c.pos]
  else
    throw "EOF"

/-- The next `n` bytes, all of them. -/
def full (n : Nat) : Scan ByteArray := do
  let c ← get
  if c.pos + n ≤ c.bytes.size then
    set { c with pos := c.pos + n }
    return c.bytes.extract c.pos (c.pos + n)
  else
    set { c with pos := c.bytes.size }
    throw (if c.pos < c.bytes.size then "unexpected EOF" else "EOF")

/-- Skips `n` bytes. -/
def skip (n : Nat) : Scan Unit := do
  discard (full n)

/-- Up to `n` bytes, as many as are left; at the end of the stream, even for no bytes, `EOF`. -/
def upTo (n : Nat) : Scan ByteArray := do
  let c ← get
  if c.pos < c.bytes.size then
    let stop := min (c.pos + n) c.bytes.size
    set { c with pos := stop }
    return c.bytes.extract c.pos stop
  else
    throw "EOF"

/-- Skips `n` bytes, or all that are left and then fails with `EOF` when they are fewer. -/
def discardN (n : Nat) : Scan Unit := do
  let c ← get
  let stop := min (c.pos + n) c.bytes.size
  set { c with pos := stop }
  if c.pos + n > c.bytes.size then throw "EOF"

/-- An unsigned LEB128 number of at most `maxLen` bytes whose last byte may have no bit above
`lastBits`; the value and the bytes it took. -/
def unsigned (maxLen lastBits : Nat) (overflow : String) : Scan (Nat × Nat) :=
  go 0 0 maxLen
where
  go (acc i : Nat) : Nat → Scan (Nat × Nat)
    | 0 => throw overflow
    | left + 1 => do
      let b ← byte
      if b < 0x80 then
        if left = 0 && b.toNat ≥ Nat.pow 2 lastBits then throw overflow
        return (acc + b.toNat * Nat.pow 2 (7 * i), i + 1)
      else go (acc + (b.toNat % 128) * Nat.pow 2 (7 * i)) (i + 1) left

/-- An unsigned 32-bit LEB128 number and the bytes it took. -/
def u32 : Scan (Nat × Nat) := unsigned 5 4 "overflows a 32-bit integer"

/-- The number `v` below `2 ^ width` read as a two's complement number. -/
def toSigned (width v : Nat) : Int :=
  if v ≥ Nat.pow 2 (width - 1) then (v : Int) - Nat.pow 2 width else v

/-- A signed LEB128 number of `width` bits, read until a byte without continuation; more than
`maxLen` bytes, or unused bits of the last byte that do not repeat the sign, overflow. -/
def signed (width maxLen unusedMask : Nat) (overflow : String) : Scan (Int × Nat) := do
  let c ← get
  go (c.bytes.size - c.pos + 1) 0 0 0
where
  go (fuel acc shift count : Nat) : Scan (Int × Nat) := do
    match fuel with
    | 0 => throw "readByte failed: EOF"
    | fuel + 1 =>
      let b ← (byte : Scan UInt8).tryCatch fun e => throw ("readByte failed: " ++ e)
      let acc := if shift < width then (acc + (b.toNat % 128) * Nat.pow 2 shift) % Nat.pow 2 width else acc
      let shift := shift + 7
      let count := count + 1
      if b < 0x80 then
        let v := if shift < width && b &&& 0x40 != 0 then
          acc + (Nat.pow 2 width - Nat.pow 2 shift) else acc
        let value := toSigned width v
        let unused := b.toNat &&& unusedMask
        if count > maxLen then throw overflow
        else if count = maxLen && value < 0 && unused != unusedMask then throw overflow
        else if count = maxLen && value ≥ 0 && unused != 0 then throw overflow
        return (value, count)
      else go fuel acc shift count

/-- A signed 32-bit LEB128 number and the bytes it took. -/
def s32 : Scan (Int × Nat) := signed 32 5 0x30 "overflows a 32-bit integer"

/-- A signed 64-bit LEB128 number and the bytes it took. -/
def s64 : Scan (Int × Nat) := signed 64 10 0x3e "overflows a 64-bit integer"

/-- A signed 33-bit LEB128 number, as block types are written: at most five bytes are read. -/
def s33 : Scan (Int × Nat) := do
  let (acc, last, count) ← go 0 0 0 5
  let v := if count * 7 < 33 && last &&& 0x40 != 0 then acc + (Nat.pow 2 33 - Nat.pow 2 (count * 7)) else acc
  let v := v % Nat.pow 2 33
  let value := toSigned 33 v
  let unused := last.toNat &&& 0x20
  if count > 5 then throw "overflows a 33-bit integer"
  else if count = 5 && value < 0 && unused != 0x20 then throw "overflows a 33-bit integer"
  else if count = 5 && value ≥ 0 && unused != 0 then throw "overflows a 33-bit integer"
  return (value, count)
where
  go (acc : Nat) (last : UInt8) (count : Nat) : Nat → Scan (Nat × UInt8 × Nat)
    | 0 => pure (acc, last, count)
    | left + 1 => do
      let b ← (byte : Scan UInt8).tryCatch fun e => throw ("readByte failed: " ++ e)
      let acc := acc + (b.toNat % 128) * Nat.pow 2 (7 * count)
      if b < 0x80 then pure (acc, b, count + 1) else go acc b (count + 1) left

/-- A length-prefixed UTF-8 name; `what` names it in failures. The value and the bytes taken. -/
def utf8 (what : String) : Scan (String × Nat) := do
  let (size, sizeLen) ← u32.tryCatch fun e => throw ("failed to read " ++ what ++ " size: " ++ e)
  if size = 0 then return ("", sizeLen)
  let data ← (full size).tryCatch fun e => throw ("failed to read " ++ what ++ ": " ++ e)
  match String.fromUTF8? data with
  | some s => return (s, size + sizeLen)
  | none => throw (what ++ " is not valid UTF-8")

/-- Runs `r` on `bytes` from `pos`; the outcome and the position it stopped at. -/
def runAt {α : Type} (r : Scan α) (bytes : ByteArray) (pos : Nat) : Except String α × Nat :=
  let (res, c) := (ExceptT.run r).run ⟨bytes, pos⟩
  (res, c.pos)

end Scan

end WasmImage.Engine
