import WasmImage.Wasm.Types
import WasmImage.Text.Shortest
import WasmImage.Text.Hex

/-!
Values of numeric globals, held as raw bits, and their text. Integers are written as signed
decimals. Floats are written with the shortest digits that read back at their own precision:
positional when the leading digit's exponent is from -4 to 5, otherwise as `d.ddde±XX` with at
least two exponent digits; `NaN`, `+Inf` and `-Inf` for the special values, `-0` for negative
zero. A value of any other type is written as its type name and its bits in hexadecimal.
-/

namespace WasmImage

/-- A global's value: its type and its raw bits. -/
structure Value where
  type : Wasm.ValType
  bits : UInt64
  deriving DecidableEq, Repr

namespace Value

/-- A value of a number type; the bits of a 32-bit type are cut to 32. -/
def ofBits? (t : Wasm.ValType) (bits : UInt64) : Option Value :=
  if t.isNarrow then some ⟨t, bits &&& 0xffffffff⟩
  else if t == .i64 || t == .f64 then some ⟨t, bits⟩
  else none

/-- The low 32 bits. -/
def low32 (v : Value) : UInt32 := v.bits.toUInt32

/-- How floats are written: which exponents get positional notation. -/
structure FloatStyle where
  /-- The least leading exponent written positionally. -/
  minPositional : Int
  /-- The least leading exponent written with an exponent again. -/
  maxPositional : Int
  /-- The least number of exponent digits. -/
  expDigits : Nat

/-- Floats are positional for leading exponents from -4 to 5, and exponents have two digits
at least. -/
def floatStyle : FloatStyle := ⟨-4, 6, 2⟩

/-- The text of digits `ds` whose leading digit stands at exponent `lead`. -/
def decimalText (style : FloatStyle) (ds : List Char) (lead : Int) : String :=
  if lead < style.minPositional || lead ≥ style.maxPositional then
    let mantissa := match ds with
      | [] => "0"
      | [d] => String.ofList [d]
      | d :: rest => String.ofList (d :: '.' :: rest)
    let expText := toString lead.natAbs
    let padding := String.ofList (List.replicate (style.expDigits - expText.length) '0')
    mantissa ++ "e" ++ (if lead < 0 then "-" else "+") ++ padding ++ expText
  else if lead < 0 then
    "0." ++ String.ofList (List.replicate (lead.natAbs - 1) '0') ++ String.ofList ds
  else
    let whole := lead.toNat + 1
    let intPart := ds.take whole ++ List.replicate (whole - ds.length) '0'
    let fracPart := ds.drop whole
    String.ofList intPart ++ (if fracPart.isEmpty then "" else "." ++ String.ofList fracPart)

/-- The text of the float of format `f` with these bits. -/
def floatText (f : Shortest.Format) (bits : Nat) : String :=
  match Shortest.classify f bits with
  | .nan => "NaN"
  | .infinite neg => if neg then "-Inf" else "+Inf"
  | .zero neg => if neg then "-0" else "0"
  | .finite neg m e tight =>
    let (n, p) := Shortest.digits m e tight
    let (ds, lead) := Shortest.trimmed n p
    (if neg then "-" else "") ++ decimalText floatStyle ds lead

/-- The text of a value: its type and its number. -/
def text (v : Value) : String :=
  match v.type.byte with
  | 0x7f => s!"i32:{v.low32.toInt32.toInt}"
  | 0x7e => s!"i64:{v.bits.toInt64.toInt}"
  | 0x7d => "f32:" ++ floatText Shortest.binary32 v.low32.toNat
  | 0x7c => "f64:" ++ floatText Shortest.binary64 v.bits.toNat
  | _ => v.type.name ++ ":0x" ++ Hex.ofNat v.bits.toNat

end Value

end WasmImage
