/-!
The numeric instructions as the engine's interpreter computes them, on 64-bit words: an `i32` is
the low 32 bits of its word, an `i64` the whole word, and floats are words of their bits.

Integers are computed on natural numbers below `2 ^ width`, signed operations on their two's
complement value. Division by zero traps, as does the one signed division whose quotient does not
fit; a signed remainder takes the sign of the dividend. Shifts and rotations count modulo the
width.

Floats use the machine's IEEE arithmetic. The minimum and maximum pass on a NaN operand, and
order `-0` below `+0`; `nearest` rounds half to even; `abs`, `neg` and `copysign` work on the sign
bit alone. Truncation to an integer traps on NaN and on a value out of range, and its saturating
form clamps instead.
-/

namespace WasmImage.Engine.Numeric

/-- The number `x` below `2 ^ width` read as a two's complement number. -/
def toSigned (width x : Nat) : Int :=
  if x ≥ Nat.pow 2 (width - 1) then (x : Int) - Nat.pow 2 width else x

/-- The `width`-bit two's complement of `i`. -/
def ofSigned (width : Nat) (i : Int) : Nat := (i % (Nat.pow 2 width : Int)).toNat

/-- One for true, zero for false. -/
def ofBool (b : Bool) : UInt64 := if b then 1 else 0

/-- Leading zero bits of `x` in `width` bits. -/
def clz (width x : Nat) : Nat := if x = 0 then width else width - 1 - Nat.log2 x

/-- Trailing zero bits of `x` in `width` bits. -/
def ctz (width x : Nat) : Nat :=
  if x = 0 then width else go x width
where
  go (x : Nat) : Nat → Nat
    | 0 => 0
    | fuel + 1 => if x % 2 = 1 then 0 else go (x / 2) fuel + 1

/-- Set bits of `x` in `width` bits. -/
def popcnt (width x : Nat) : Nat := (List.range width).countP fun i => x.testBit i

/-- An integer test or comparison, by its position in the family: `eq`, `ne`, `lt_s`, `lt_u`,
`gt_s`, `gt_u`, `le_s`, `le_u`, `ge_s`, `ge_u`. -/
def compareInt (width k a b : Nat) : Bool :=
  let sa := toSigned width a
  let sb := toSigned width b
  match k with
  | 0 => a == b | 1 => a != b
  | 2 => sa < sb | 3 => a < b | 4 => sa > sb | 5 => a > b
  | 6 => sa ≤ sb | 7 => a ≤ b | 8 => sa ≥ sb | _ => a ≥ b

/-- An integer operator on two operands, by its position in the family: `add`, `sub`, `mul`,
`div_s`, `div_u`, `rem_s`, `rem_u`, `and`, `or`, `xor`, `shl`, `shr_s`, `shr_u`, `rotl`,
`rotr`. -/
def binaryInt (width k a b : Nat) : Except String Nat :=
  let m := Nat.pow 2 width
  let sa := toSigned width a
  let sb := toSigned width b
  let sh := b % width
  match k with
  | 0 => .ok ((a + b) % m)
  | 1 => .ok ((a + m - b) % m)
  | 2 => .ok ((a * b) % m)
  | 3 =>
    if b = 0 then .error "integer divide by zero"
    else if sa = -(Nat.pow 2 (width - 1) : Int) && sb = -1 then .error "integer overflow"
    else .ok (ofSigned width (sa.tdiv sb))
  | 4 => if b = 0 then .error "integer divide by zero" else .ok (a / b)
  | 5 => if b = 0 then .error "integer divide by zero" else .ok (ofSigned width (sa.tmod sb))
  | 6 => if b = 0 then .error "integer divide by zero" else .ok (a % b)
  | 7 => .ok (a &&& b)
  | 8 => .ok (a ||| b)
  | 9 => .ok (a ^^^ b)
  | 10 => .ok ((a <<< sh) % m)
  | 11 => .ok (ofSigned width (sa >>> sh))
  | 12 => .ok (a >>> sh)
  | 13 => .ok (((a <<< sh) ||| (a >>> (width - sh))) % m)
  | _ => .ok (((a >>> sh) ||| (a <<< (width - sh))) % m)

/-- The float of an `f32` word. -/
def f32 (w : UInt64) : Float32 := Float32.ofBits w.toUInt32

/-- The float of an `f64` word. -/
def f64 (w : UInt64) : Float := Float.ofBits w

/-- The word of an `f32`. -/
def ofF32 (x : Float32) : UInt64 := x.toBits.toUInt64

/-- The word of an `f64`. -/
def ofF64 (x : Float) : UInt64 := x.toBits

/-- A float comparison, by its position in the family: `eq`, `ne`, `lt`, `gt`, `le`, `ge`. -/
def compareFloat (k : Nat) (a b : Float) : Bool :=
  match k with
  | 0 => a == b | 1 => !(a == b) | 2 => a < b | 3 => a > b | 4 => a ≤ b | _ => a ≥ b

/-- Rounds toward zero. -/
def trunc (x : Float) : Float := if x < 0 then x.ceil else x.floor

/-- Rounds to the nearest integer, half to even, keeping the sign of a zero result. -/
def nearest (x : Float) : Float :=
  if x.isNaN || x.isInf || x == 0 then x
  else
    let f := x.floor
    let d := x - f
    let r := if d < 0.5 then f else if d > 0.5 then f + 1
      else if (f / 2).floor * 2 == f then f else f + 1
    if r == 0 then (if x < 0 then -0.0 else 0.0) else r

/-- The minimum: a NaN operand is passed on, and `-0` is below `+0`. -/
def fmin (x y : Float) : Float :=
  if x.isNaN then x
  else if y.isNaN then y
  else if x == 0 && y == 0 then (if x.toBits ≥ 0x8000000000000000 then x else y)
  else if x < y then x else y

/-- The maximum: a NaN operand is passed on, and `+0` is above `-0`. -/
def fmax (x y : Float) : Float :=
  if x.isNaN then x
  else if y.isNaN then y
  else if x == 0 && y == 0 then (if x.toBits ≥ 0x8000000000000000 then y else x)
  else if x > y then x else y

/-- The sign bit of a float word of `width` bits. -/
def signBit (width : Nat) : UInt64 := if width = 32 then 0x80000000 else 0x8000000000000000

/-- A float operator on one operand, by its position in the family: `abs`, `neg`, `ceil`,
`floor`, `trunc`, `nearest`, `sqrt`. -/
def unaryFloat (width k : Nat) (w : UInt64) : UInt64 :=
  let s := signBit width
  match k with
  | 0 => w &&& (s - 1)
  | 1 => w ^^^ s
  | _ =>
    if width = 32 then
      let x := f32 w
      match k with
      | 2 => ofF32 x.ceil
      | 3 => ofF32 x.floor
      | 4 => ofF32 (trunc x.toFloat).toFloat32
      | 5 => ofF32 (nearest x.toFloat).toFloat32
      | _ => ofF32 x.sqrt
    else
      let x := f64 w
      match k with
      | 2 => ofF64 x.ceil
      | 3 => ofF64 x.floor
      | 4 => ofF64 (trunc x)
      | 5 => ofF64 (nearest x)
      | _ => ofF64 x.sqrt

/-- A float operator on two operands, by its position in the family: `add`, `sub`, `mul`, `div`,
`min`, `max`, `copysign`. -/
def binaryFloat (width k : Nat) (a b : UInt64) : UInt64 :=
  let s := signBit width
  if k = 6 then (a &&& (s - 1)) ||| (b &&& s)
  else if width = 32 then
    let x := f32 a
    let y := f32 b
    match k with
    | 0 => ofF32 (x + y)
    | 1 => ofF32 (x - y)
    | 2 => ofF32 (x * y)
    | 3 => ofF32 (x / y)
    | 4 => ofF32 (fmin x.toFloat y.toFloat).toFloat32
    | _ => ofF32 (fmax x.toFloat y.toFloat).toFloat32
  else
    let x := f64 a
    let y := f64 b
    match k with
    | 0 => ofF64 (x + y)
    | 1 => ofF64 (x - y)
    | 2 => ofF64 (x * y)
    | 3 => ofF64 (x / y)
    | 4 => ofF64 (fmin x y)
    | _ => ofF64 (fmax x y)

/-- The float `x` truncated toward zero as an integer; `x` is finite and below `2 ^ 64` in size. -/
def truncInt (x : Float) : Int :=
  if x < 0 then -((-x).toUInt64.toNat : Int) else x.toUInt64.toNat

/-- The range of an integer that floats truncate to: whether it is signed, and its width. The
float `x` truncates into it when it lies strictly between the bounds, or at the lower bound
when that is the least signed integer. -/
def fitsTruncated (isSigned : Bool) (width : Nat) (x : Float) : Bool :=
  if isSigned then
    let lo := -(Float.ofNat (Nat.pow 2 (width - 1)))
    let hi := Float.ofNat (Nat.pow 2 (width - 1))
    (lo ≤ x && x < hi) || (width = 32 && lo - 1 < x && x < hi)
  else -1 < x && x < Float.ofNat (Nat.pow 2 width)

/-- Truncates `x` to an integer of the range: a NaN cannot be converted, and a value out of the
range overflows. -/
def truncTo (isSigned : Bool) (width : Nat) (x : Float) : Except String Nat :=
  if x.isNaN then .error "invalid conversion to integer"
  else if !fitsTruncated isSigned width x then .error "integer overflow"
  else .ok (ofSigned width (truncInt x))

/-- Truncates `x` to an integer of the range, a NaN to zero and a value out of the range to the
nearest end of it. -/
def truncSat (isSigned : Bool) (width : Nat) (x : Float) : Nat :=
  if x.isNaN then 0
  else if fitsTruncated isSigned width x then ofSigned width (truncInt x)
  else if isSigned then
    if x < 0 then ofSigned width (-(Nat.pow 2 (width - 1) : Int)) else Nat.pow 2 (width - 1) - 1
  else if x < 0 then 0 else Nat.pow 2 width - 1

/-- The `f32` nearest to integer `i`, for `i` of at most 64 bits. -/
def f32OfInt (i : Int) : Float32 :=
  if i < 0 then -(UInt64.toFloat32 (-i).toNat.toUInt64) else UInt64.toFloat32 i.toNat.toUInt64

/-- The `f64` nearest to integer `i`, for `i` of at most 64 bits. -/
def f64OfInt (i : Int) : Float :=
  if i < 0 then -(UInt64.toFloat (-i).toNat.toUInt64) else UInt64.toFloat i.toNat.toUInt64

/-- The float of a word of `width` bits as a 64-bit float. -/
def floatOf (width : Nat) (w : UInt64) : Float := if width = 32 then (f32 w).toFloat else f64 w

/-- A conversion, `0xa7` to `0xbf`, on word `w`. -/
def convert (op : Nat) (w : UInt64) : Except String UInt64 :=
  let lo := w.toNat % Nat.pow 2 32
  let trunc (isSigned : Bool) (from_ to_ : Nat) : Except String UInt64 :=
    (fun n => n.toUInt64) <$> truncTo isSigned to_ (floatOf from_ w)
  match op with
  | 0xa7 => .ok lo.toUInt64
  | 0xa8 => trunc true 32 32
  | 0xa9 => trunc false 32 32
  | 0xaa => trunc true 64 32
  | 0xab => trunc false 64 32
  | 0xac => .ok (ofSigned 64 (toSigned 32 lo)).toUInt64
  | 0xad => .ok lo.toUInt64
  | 0xae => trunc true 32 64
  | 0xaf => trunc false 32 64
  | 0xb0 => trunc true 64 64
  | 0xb1 => trunc false 64 64
  | 0xb2 => .ok (ofF32 (f32OfInt (toSigned 32 lo)))
  | 0xb3 => .ok (ofF32 (f32OfInt lo))
  | 0xb4 => .ok (ofF32 (f32OfInt (toSigned 64 w.toNat)))
  | 0xb5 => .ok (ofF32 (f32OfInt w.toNat))
  | 0xb6 => .ok (ofF32 (f64 w).toFloat32)
  | 0xb7 => .ok (ofF64 (f64OfInt (toSigned 32 lo)))
  | 0xb8 => .ok (ofF64 (f64OfInt lo))
  | 0xb9 => .ok (ofF64 (f64OfInt (toSigned 64 w.toNat)))
  | 0xba => .ok (ofF64 (f64OfInt w.toNat))
  | 0xbb => .ok (ofF64 (f32 w).toFloat)
  | 0xbc | 0xbe => .ok lo.toUInt64
  | _ => .ok w

/-- A saturating truncation, `0xfc` sub-opcodes 0 to 7, on word `w`. -/
def truncSatOp (sub : Nat) (w : UInt64) : UInt64 :=
  let from_ := if sub % 4 < 2 then 32 else 64
  let to_ := if sub < 4 then 32 else 64
  (truncSat (sub % 2 == 0) to_ (floatOf from_ w)).toUInt64

/-- Sign extension of the low `bits` bits of a `width`-bit word. -/
def extend (width bits : Nat) (w : UInt64) : UInt64 :=
  (ofSigned width (toSigned bits (w.toNat % Nat.pow 2 bits))).toUInt64

/-- The numeric instruction `op`, `0x45` to `0xc4`, on its operands, the first pushed first. -/
def apply (op : UInt8) (args : List UInt64) : Except String UInt64 :=
  let n := op.toNat
  let a := args.headD 0
  let b := (args.drop 1).headD 0
  let a32 := a.toNat % Nat.pow 2 32
  let b32 := b.toNat % Nat.pow 2 32
  if n = 0x45 then .ok (ofBool (a32 == 0))
  else if n ≤ 0x4f then .ok (ofBool (compareInt 32 (n - 0x46) a32 b32))
  else if n = 0x50 then .ok (ofBool (a == 0))
  else if n ≤ 0x5a then .ok (ofBool (compareInt 64 (n - 0x51) a.toNat b.toNat))
  else if n ≤ 0x60 then .ok (ofBool (compareFloat (n - 0x5b) (f32 a).toFloat (f32 b).toFloat))
  else if n ≤ 0x66 then .ok (ofBool (compareFloat (n - 0x61) (f64 a) (f64 b)))
  else if n = 0x67 then .ok (clz 32 a32).toUInt64
  else if n = 0x68 then .ok (ctz 32 a32).toUInt64
  else if n = 0x69 then .ok (popcnt 32 a32).toUInt64
  else if n ≤ 0x78 then (fun r => r.toUInt64) <$> binaryInt 32 (n - 0x6a) a32 b32
  else if n = 0x79 then .ok (clz 64 a.toNat).toUInt64
  else if n = 0x7a then .ok (ctz 64 a.toNat).toUInt64
  else if n = 0x7b then .ok (popcnt 64 a.toNat).toUInt64
  else if n ≤ 0x8a then (fun r => r.toUInt64) <$> binaryInt 64 (n - 0x7c) a.toNat b.toNat
  else if n ≤ 0x91 then .ok (unaryFloat 32 (n - 0x8b) a)
  else if n ≤ 0x98 then .ok (binaryFloat 32 (n - 0x92) a b)
  else if n ≤ 0x9f then .ok (unaryFloat 64 (n - 0x99) a)
  else if n ≤ 0xa6 then .ok (binaryFloat 64 (n - 0xa0) a b)
  else if n ≤ 0xbf then convert n a
  else if n = 0xc0 then .ok (extend 32 8 a)
  else if n = 0xc1 then .ok (extend 32 16 a)
  else if n = 0xc2 then .ok (extend 64 8 a)
  else if n = 0xc3 then .ok (extend 64 16 a)
  else .ok (extend 64 32 a)

end WasmImage.Engine.Numeric
