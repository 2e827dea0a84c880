/-!
Hexadecimal text: lowercase digits, the fewest that spell a number or a number padded with zeros
to a width, and byte strings written two digits a byte.
-/

namespace WasmImage.Hex

/-- The lowercase digit of a value below sixteen. -/
def digit (d : Nat) : Char :=
  if d < 10 then Char.ofNat (48 + d) else Char.ofNat (87 + d)

/-- The digits of `n`, lowest first; none for zero. -/
def digitsRev (n : Nat) : List Char :=
  if n = 0 then [] else digit (n % 16) :: digitsRev (n / 16)
termination_by n
decreasing_by omega

/-- The fewest lowercase digits that spell `n`; zero is "0". -/
def ofNat (n : Nat) : String :=
  if n = 0 then "0" else String.ofList (digitsRev n).reverse

/-- The digits of `n` with zeros in front up to `width` characters. -/
def padded (width n : Nat) : String :=
  let s := ofNat n
  String.ofList (List.replicate (width - s.length) '0') ++ s

/-- A byte as two digits. -/
def byte (b : UInt8) : String := padded 2 b.toNat

/-- Every byte of `bytes` as two digits, in order. -/
def ofBytes (bytes : ByteArray) : String :=
  bytes.toList.foldl (fun acc b => acc ++ byte b) ""

/-- The value of one hexadecimal digit, either case. -/
def digitValue? (c : Char) : Option Nat :=
  if '0' ≤ c ∧ c ≤ '9' then some (c.toNat - 48)
  else if 'a' ≤ c ∧ c ≤ 'f' then some (c.toNat - 87)
  else if 'A' ≤ c ∧ c ≤ 'F' then some (c.toNat - 55)
  else none

/-- The bytes spelled by pairs of digits; `none` for an odd count or a character that is no
digit. -/
def toBytes? (s : String) : Option ByteArray :=
  go s.toList ByteArray.empty
where
  go : List Char → ByteArray → Option ByteArray
    | [], out => some out
    | hi :: lo :: rest, out => do
      let h ← digitValue? hi
      let l ← digitValue? lo
      go rest (out.push (h * 16 + l).toUInt8)
    | [_], _ => none

end WasmImage.Hex
