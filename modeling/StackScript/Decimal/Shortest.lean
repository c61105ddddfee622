/-!
# Shortest decimal digits of a double

A finite double stands for the interval of reals that round to it.  Its *shortest decimal* is the
number `digits * 10 ^ exp` of that interval with the fewest significant digits; when two of that
length lie in the interval, the one nearer the double wins, and an exact tie goes to the larger.

Everything here is exact arithmetic on `Nat` and `Int`: the bits are decoded into
`m * 2 ^ q` (`Binary.ofBits`), the interval is scaled to integers (`Binary.scaled`), and the
search tries the decimal grids `10 ^ k` from the coarsest down (`Scaled.shortest`).  On each grid
only the two grid points next to the value can be the nearest one inside the interval
(`Scaled.pick`).
-/

namespace StackScript.Decimal

/-- A finite positive double as `m * 2 ^ q`, with the distances to the ends of its rounding
interval in units of `2 ^ q`: the interval runs from `(m - below) * 2 ^ q` to
`(m + above) * 2 ^ q`, and its ends belong to it when `closed`. -/
structure Binary where
  m : Nat
  q : Int
  below : Nat
  above : Nat
  closed : Bool
deriving Repr, DecidableEq

/-- The interval of the double with biased exponent `e` and fraction `f` (not both zero, `e`
below 2047).  Mantissa and exponent are doubled, or quadrupled at a power of two, so that both
half-gaps are whole units.  Below a power of two the neighbour is half as far as above it.
Subnormal mantissas are counted in half units, so their intervals are always closed. -/
def Binary.ofParts (e f : Nat) : Binary :=
  if e = 0 then ⟨2 * f, -1075, 1, 1, true⟩
  else if f = 0 then ⟨4 * Nat.pow 2 52, (e : Int) - 1077, 1, 2, true⟩
  else ⟨2 * (Nat.pow 2 52 + f), (e : Int) - 1076, 1, 1, f % 2 == 0⟩

/-- The biased exponent of a bit pattern. -/
def exponentField (b : UInt64) : Nat := (b.toNat >>> 52) % 2048

/-- The fraction of a bit pattern. -/
def fractionField (b : UInt64) : Nat := b.toNat % Nat.pow 2 52

/-- Whether the sign bit of a bit pattern is set. -/
def signField (b : UInt64) : Bool := b.toNat >>> 63 == 1

/-- The interval of a finite nonzero double's magnitude, read from its bits. -/
def Binary.ofBits (b : UInt64) : Binary := Binary.ofParts (exponentField b) (fractionField b)

/-- The rounding interval with a common denominator: the reals `low / scale` to `high / scale`
around `value / scale`. -/
structure Scaled where
  low : Nat
  value : Nat
  high : Nat
  scale : Nat
  closed : Bool
deriving Repr, DecidableEq

/-- Scale the interval of `m * 2 ^ q` to integers: multiply by `2 ^ q` when `q` is not negative,
else divide by it through `scale`. -/
def Binary.scaled (x : Binary) : Scaled :=
  let up := Nat.pow 2 x.q.toNat
  { low := (x.m - x.below) * up, value := x.m * up, high := (x.m + x.above) * up,
    scale := Nat.pow 2 (-x.q).toNat, closed := x.closed }

/-- The grid `10 ^ k` as a fraction `unit / parts` of the scaled line: a grid point
`d * 10 ^ k` stands at `d * unit / parts` there. -/
def gridUnit (s : Scaled) (k : Int) : Nat × Nat :=
  if 0 ≤ k then (Nat.pow 10 k.toNat * s.scale, 1) else (s.scale, Nat.pow 10 (-k).toNat)

/-- The grid point of `10 ^ k` inside the interval that lies nearest the value, if the interval
holds any; of two equally near, the upper. -/
def Scaled.pick (s : Scaled) (k : Int) : Option Nat :=
  let (unit, parts) := gridUnit s k
  let a := s.low * parts
  let b := s.high * parts
  let c := s.value * parts
  let first := if s.closed then (a + unit - 1) / unit else a / unit + 1
  let last := if s.closed then b / unit else (b - 1) / unit
  if first ≤ last then
    let down := c / unit
    let up := down + 1
    if down < first then some up
    else if last < up then some down
    else if c - down * unit < up * unit - c then some down
    else some up
  else none

/-- The number of decimal digits of a natural number, at least one. -/
def digitCount (n : Nat) : Nat := (Nat.toDigits 10 n).length

/-- The exponent of the leading decimal digit of `value / scale`: the `E` with
`10 ^ E ≤ value / scale < 10 ^ (E + 1)`.  Both must be positive. -/
def Scaled.leadExponent (s : Scaled) : Int :=
  if s.scale ≤ s.value then (digitCount (s.value / s.scale) : Int) - 1
  else
    let j := digitCount s.scale - digitCount s.value
    if s.scale ≤ s.value * Nat.pow 10 j then -(j : Int) else -((j : Int) + 1)

/-- Remove trailing zeros of the digits into the exponent. -/
def trimZeros : Nat → Nat → Int → Nat × Int
  | 0, d, k => (d, k)
  | fuel + 1, d, k => if d ≠ 0 ∧ d % 10 = 0 then trimZeros fuel (d / 10) (k + 1) else (d, k)

/-- The exact decimal value of `m * 2 ^ q`, for a search that found nothing. -/
def Binary.exact (x : Binary) : Nat × Int :=
  if 0 ≤ x.q then (x.m * Nat.pow 2 x.q.toNat, 0) else (x.m * Nat.pow 5 (-x.q).toNat, x.q)

/-- Try the grids `10 ^ k`, `10 ^ (k - 1)`, … for `fuel` steps; the first with a point in the
interval gives the digits. -/
def Scaled.search (s : Scaled) (fallback : Nat × Int) : Nat → Int → Nat × Int
  | 0, _ => fallback
  | fuel + 1, k =>
    match s.pick k with
    | some d => (d, k)
    | none => s.search fallback fuel (k - 1)

/-- The shortest decimal of a finite positive double, as `(digits, exp)` with value
`digits * 10 ^ exp` and no trailing zero in `digits`.  The search starts one grid above the
leading digit, since the interval can reach the next power of ten, and ends seventeen digits
below it, where every double has a point. -/
def Binary.shortest (x : Binary) : Nat × Int :=
  let s := x.scaled
  let e := s.leadExponent
  let (d, k) := s.search x.exact 19 (e + 1)
  trimZeros 20 d k

end StackScript.Decimal
