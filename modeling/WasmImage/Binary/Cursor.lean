/-!
A cursor over a byte array: the bytes and the position of the next unread byte. Reading advances
the position. A read that fails says why, and leaves the cursor where the failing read stopped,
so that a caller can still report the position reached.
-/

namespace WasmImage

/-- Why a read from a cursor failed. -/
inductive ReadFault where
  /-- No byte was left where one was needed. -/
  | endOfInput
  /-- Fewer bytes were left than a read of fixed length asked for. -/
  | truncated
  /-- A number took more groups than its width allows; `pos` is where its last group ended. -/
  | overflow (pos : Nat)
  /-- The bytes of a name were not UTF-8; `pos` is where they ended. -/
  | badName (pos : Nat)
  deriving DecidableEq, Repr

/-- The text of a read fault. -/
def ReadFault.message : ReadFault → String
  | .endOfInput => "EOF"
  | .truncated => "unexpected EOF"
  | .overflow pos => s!"at position {pos}: leb128: overflow"
  | .badName pos => s!"at position {pos}: invalid UTF-8 in name"

/-- Bytes and the position of the next byte to read. -/
structure Cursor where
  bytes : ByteArray
  pos : Nat

namespace Cursor

/-- A cursor at the start of `bytes`. -/
def ofBytes (bytes : ByteArray) : Cursor := ⟨bytes, 0⟩

/-- How many bytes are left to read. -/
def remaining (c : Cursor) : Nat := c.bytes.size - c.pos

end Cursor

/-- A read from a cursor that may fail with `ε`; the cursor is kept after a failure. -/
abbrev Reader (ε : Type) := ExceptT ε (StateM Cursor)

namespace Reader

/-- Runs a read on fresh bytes: its outcome and the cursor it leaves. -/
def run {ε α : Type} (r : Reader ε α) (bytes : ByteArray) : Except ε α × Cursor :=
  (ExceptT.run r).run (Cursor.ofBytes bytes)

/-- The position of the next byte. -/
def position {ε : Type} : Reader ε Nat := do
  return (← get).pos

/-- How many bytes are left. -/
def remaining {ε : Type} : Reader ε Nat := do
  return (← get).remaining

/-- Lifts a read with faults of one kind into reads with faults of another. -/
def lift {ε ε' α : Type} (f : ε → ε') (r : Reader ε α) : Reader ε' α :=
  ExceptT.adapt f r

/-- The next byte. -/
def byte : Reader ReadFault UInt8 := do
  let c ← get
  if h : c.pos < c.bytes.size then
    set { c with pos := c.pos + 1 }
    return c.bytes[c.pos]
  else
    throw .endOfInput

/-- The next `n` bytes, all of them or none. -/
def bytes (n : Nat) : Reader ReadFault ByteArray := do
  let c ← get
  if c.pos + n ≤ c.bytes.size then
    set { c with pos := c.pos + n }
    return c.bytes.extract c.pos (c.pos + n)
  else
    throw .truncated

/-- Every byte that is left. -/
def rest {ε : Type} : Reader ε ByteArray := do
  let c ← get
  set { c with pos := c.bytes.size }
  return c.bytes.extract c.pos c.bytes.size

/-- The bytes between two positions of the cursor's array. -/
def slice {ε : Type} (start stop : Nat) : Reader ε ByteArray := do
  return (← get).bytes.extract start stop

/-- The little-endian number held by `bytes`. -/
def littleEndian (bytes : ByteArray) : Nat :=
  bytes.toList.foldr (fun b acc => acc * 256 + b.toNat) 0

/-- A fixed four-byte little-endian word. -/
def word32 : Reader ReadFault UInt32 := do
  return (littleEndian (← bytes 4)).toUInt32

/-- A fixed eight-byte little-endian word. -/
def word64 : Reader ReadFault UInt64 := do
  return (littleEndian (← bytes 8)).toUInt64

end Reader

end WasmImage
