/-!
Shortest decimal digits of binary floating-point numbers. A finite float is `m * 2^e`; the reals
that round to it form an interval around it, its ends included when `m` is even. For one digit,
then two, and so on, the two neighbours of the value on the decimal grid of that many digits are
tested against the interval in exact arithmetic; the first length with a neighbour inside wins,
the nearer of two, and of two equally near the one with the even last digit.
-/

namespace WasmImage.Shortest

/-- A binary interchange format: how many fraction bits and exponent bits it has. -/
structure Format where
  fracBits : Nat
  expBits : Nat

/-- Single precision. -/
def binary32 : Format := ⟨23, 8⟩

/-- Double precision. -/
def binary64 : Format := ⟨52, 11⟩

/-- What a float's bits hold. -/
inductive Class where
  | nan
  | infinite (negative : Bool)
  | zero (negative : Bool)
  /-- The value `m * 2^e`, with `lowerTight` when the float below is nearer than the float above. -/
  | finite (negative : Bool) (m : Nat) (e : Int) (lowerTight : Bool)
  deriving DecidableEq, Repr

/-- Splits the bits of a float of format `f` into sign, exponent and fraction. -/
def classify (f : Format) (bits : Nat) : Class :=
  let frac := bits % Nat.pow 2 f.fracBits
  let biased := (bits / Nat.pow 2 f.fracBits) % Nat.pow 2 f.expBits
  let negative := (bits / Nat.pow 2 (f.fracBits + f.expBits)) % 2 = 1
  let bias : Int := Nat.pow 2 (f.expBits - 1) - 1
  if biased = Nat.pow 2 f.expBits - 1 then
    if frac = 0 then .infinite negative else .nan
  else if biased = 0 then
    if frac = 0 then .zero negative
    else .finite negative frac (1 - bias - f.fracBits) false
  else
    .finite negative (frac + Nat.pow 2 f.fracBits) (biased - bias - f.fracBits) (frac = 0 ∧ biased > 1)

/-- Compares `a * 10^p` with `b * 2^q` exactly. -/
def compareScaled (a : Nat) (p : Int) (b : Nat) (q : Int) : Ordering :=
  let left := a * Nat.pow 10 p.toNat * Nat.pow 2 (-q).toNat
  let right := b * Nat.pow 2 q.toNat * Nat.pow 10 (-p).toNat
  compare left right

/-- The number of decimal digits of a positive number. -/
def digitCount (n : Nat) : Nat := (toString n).length

/-- The exponent of the leading decimal digit of `m * 2^e`, for `m > 0`. -/
def leadingExponent (m : Nat) (e : Int) : Int :=
  if 0 ≤ e then digitCount (m * Nat.pow 2 e.toNat) - 1
  else
    let whole := m / Nat.pow 2 (-e).toNat
    if whole > 0 then digitCount whole - 1
    else -(firstPower 1 (2000 : Nat))
where
  /-- The least `j ≥ start` with `m * 10^j ≥ 2^(-e)`, tried for `fuel` steps. -/
  firstPower (start : Nat) : Nat → Int
    | 0 => start
    | fuel + 1 =>
      if m * Nat.pow 10 start ≥ Nat.pow 2 (-e).toNat then start else firstPower (start + 1) fuel

/-- The shortest digits of `m * 2^e`: a number `n` and the exponent `p` of its last digit, so
that `n * 10^p` lies in the rounding interval. -/
def digits (m : Nat) (e : Int) (lowerTight : Bool) : Nat × Int :=
  let x := leadingExponent m e
  -- the rounding interval, in units of 2^(e-2)
  let lo := if lowerTight then 4 * m - 1 else 4 * m - 2
  let hi := 4 * m + 2
  let closed := m % 2 = 0
  let inside (n : Nat) (p : Int) : Bool :=
    let aboveLo := match compareScaled n p lo (e - 2) with
      | .gt => true
      | .eq => closed
      | .lt => false
    let belowHi := match compareScaled n p hi (e - 2) with
      | .lt => true
      | .eq => closed
      | .gt => false
    aboveLo && belowHi
  let rec search (d : Nat) : Nat → Nat × Int
    | 0 => (0, 0)
    | fuel + 1 =>
      let p : Int := x - d + 1
      let num := m * Nat.pow 2 e.toNat * Nat.pow 10 (-p).toNat
      let den := Nat.pow 2 (-e).toNat * Nat.pow 10 p.toNat
      let below := num / den
      let above := if num % den = 0 then below else below + 1
      let inBelow := inside below p
      let inAbove := inside above p
      if inBelow && inAbove then
        -- the nearer of the two; a tie goes to the even one
        match compareScaled (below + above) p (8 * m) (e - 2) with
        | .lt => (above, p)
        | .gt => (below, p)
        | .eq => if below % 2 = 0 then (below, p) else (above, p)
      else if inBelow then (below, p)
      else if inAbove then (above, p)
      else if fuel = 0 then (below, p)
      else search (d + 1) fuel
  search 1 17

/-- The decimal digits of `n` without trailing zeros, and the exponent of the leading digit,
given that the last digit of `n` stands at exponent `p`. -/
def trimmed (n : Nat) (p : Int) : List Char × Int :=
  let s := (toString n).toList
  let lead := p + s.length - 1
  (s.reverse.dropWhile (· = '0') |>.reverse, lead)

end WasmImage.Shortest
