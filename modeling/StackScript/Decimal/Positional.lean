import StackScript.Decimal.Shortest

/-!
# Numbers in positional notation

The language writes a number with its shortest decimal digits and never with an exponent:
`1e21` is written as `1` and twenty-one zeros, `5e-324` as `0.` and 323 zeros before the `5`.
A whole number has no fractional part (`2`, not `2.0`), negative zero keeps its sign (`-0`), and
the special values are `inf`, `-inf` and `NaN`, the last without a sign.
-/

namespace StackScript.Decimal

/-- A run of `n` zeros. -/
def zeros (n : Nat) : String := String.ofList (List.replicate n '0')

/-- Digits `ds` with the decimal point `point` places from their left end: before them when
`point` is not positive (with a leading `0.` and zeros), inside them, or after them followed by
zeros. -/
def placePoint (ds : String) (point : Int) : String :=
  let n := ds.length
  if point ≤ 0 then "0." ++ zeros (-point).toNat ++ ds
  else if point < n then
    String.ofList (ds.toList.take point.toNat) ++ "." ++ String.ofList (ds.toList.drop point.toNat)
  else ds ++ zeros (point.toNat - n)

/-- The positional text of `digits * 10 ^ exp`. -/
def positional (digits : Nat) (exp : Int) : String :=
  let ds := toString digits
  placePoint ds (ds.length + exp)

/-- The text of a number as the language prints it. -/
def render (x : Float) : String :=
  let b := x.toBits
  let e := exponentField b
  let f := fractionField b
  let sign := if signField b then "-" else ""
  if e = 2047 then (if f = 0 then sign ++ "inf" else "NaN")
  else if e = 0 ∧ f = 0 then sign ++ "0"
  else
    let (d, k) := (Binary.ofParts e f).shortest
    sign ++ positional d k

end StackScript.Decimal
