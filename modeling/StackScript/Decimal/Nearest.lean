import StackScript.Decimal.Shortest

/-!
# The double nearest to a decimal

`nearestBits num den` rounds the positive fraction `num / den` to the nearest double, a tie going
to the even mantissa, exactly as a correctly rounding reader does: everything is exact `Nat`
arithmetic on the fraction, never a chain of float operations.  Values past the largest double
become infinity and values below half the least subnormal become zero.

`read?` accepts the usual text of a floating point number: an optional sign, then `inf`,
`infinity` or `nan` in any case, or digits with an optional point (`5.`, `.5`) and an optional
exponent (`e` or `E`, optional sign, digits).
-/

namespace StackScript.Decimal

/-- Whether `num / den ≥ 2 ^ t`, decided by cross-multiplying. -/
def atLeastPow2 (num den : Nat) (t : Int) : Bool :=
  if 0 ≤ t then den * Nat.pow 2 t.toNat ≤ num else den ≤ num * Nat.pow 2 (-t).toNat

/-- The exponent `t` with `2 ^ t ≤ num / den < 2 ^ (t + 1)`, for positive `num` and `den`. -/
def floorLog2 (num den : Nat) : Int :=
  let guess : Int := (Nat.log2 num : Int) - (Nat.log2 den : Int)
  if atLeastPow2 num den guess then guess else guess - 1

/-- The quotient `num / (den * 2 ^ e)` rounded to the nearest natural number, ties to even. -/
def roundScaled (num den : Nat) (e : Int) : Nat :=
  let n := if 0 ≤ e then num else num * Nat.pow 2 (-e).toNat
  let d := if 0 ≤ e then den * Nat.pow 2 e.toNat else den
  let m := n / d
  let r := n % d
  if d < 2 * r ∨ (2 * r = d ∧ m % 2 = 1) then m + 1 else m

/-- The bits of the nearest double to `num / den` (both positive), without sign.  The mantissa
is taken with 53 significant bits, or fewer at the subnormal exponent `-1074`; a mantissa that
rounds up to `2 ^ 53` moves to the next exponent. -/
def nearestBits (num den : Nat) : Nat :=
  let e := max (floorLog2 num den - 52) (-1074)
  let m := roundScaled num den e
  let (m, e) := if m = Nat.pow 2 53 then (Nat.pow 2 52, e + 1) else (m, e)
  if m < Nat.pow 2 52 then m
  else
    let biased := e + 1075
    if 2047 ≤ biased then 2047 * Nat.pow 2 52
    else biased.toNat * Nat.pow 2 52 + (m - Nat.pow 2 52)

/-- The double nearest to `±mantissa * 10 ^ exp`.  Far outside the range of doubles the answer
is infinity or zero without arithmetic on the huge power. -/
def ofDecimal (negative : Bool) (mantissa : Nat) (exp : Int) : Float :=
  let sign := if negative then Nat.pow 2 63 else 0
  let size := (digitCount mantissa : Int) + exp
  let magnitude :=
    if mantissa = 0 then 0
    else if 310 < size then 2047 * Nat.pow 2 52
    else if size < -330 then 0
    else if 0 ≤ exp then nearestBits (mantissa * Nat.pow 10 exp.toNat) 1
    else nearestBits mantissa (Nat.pow 10 (-exp).toNat)
  Float.ofBits (UInt64.ofNat (sign + magnitude))

/-- The value of a list of decimal digits. -/
def digitsValue (ds : List Char) : Nat :=
  ds.foldl (fun acc c => 10 * acc + (c.toNat - '0'.toNat)) 0

/-- Whether a text is empty or all ASCII digits. -/
def allDigits (ds : List Char) : Bool := ds.all Char.isDigit

/-- The unsigned decimal syntax: digits with an optional point and at least one digit, then an
optional exponent.  Answers the mantissa and the power of ten. -/
def readUnsigned? (cs : List Char) : Option (Nat × Int) :=
  let body := cs.takeWhile fun c => c != 'e' && c != 'E'
  let tail := cs.dropWhile fun c => c != 'e' && c != 'E'
  let whole := body.takeWhile (· != '.')
  let afterWhole := body.dropWhile (· != '.')
  let frac := afterWhole.drop 1
  let exp? : Option Int :=
    match tail with
    | [] => some 0
    | _ :: rest =>
      match rest with
      | '+' :: ds => if !ds.isEmpty && allDigits ds then some (digitsValue ds) else none
      | '-' :: ds => if !ds.isEmpty && allDigits ds then some (-(digitsValue ds : Int)) else none
      | ds => if !ds.isEmpty && allDigits ds then some (digitsValue ds) else none
  if allDigits whole && allDigits frac && !(whole.isEmpty && frac.isEmpty) then
    exp?.map fun x => (digitsValue (whole ++ frac), x - frac.length)
  else none

/-- Read a floating point number from text, rounding to the nearest double. -/
def read? (text : String) : Option Float :=
  let cs := text.toList
  let (negative, rest) :=
    match cs with
    | '-' :: r => (true, r)
    | '+' :: r => (false, r)
    | r => (false, r)
  let word := String.ofList (rest.map Char.toLower)
  if word == "inf" || word == "infinity" then
    some (Float.ofBits (if negative then 0xFFF0000000000000 else 0x7FF0000000000000))
  else if word == "nan" then some (Float.ofBits 0x7FF8000000000000)
  else (readUnsigned? rest).map fun (m, x) => ofDecimal negative m x

end StackScript.Decimal
