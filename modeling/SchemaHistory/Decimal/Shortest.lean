import SchemaHistory.Decimal.Binary64

/-! # Shortest decimal text of a binary number

A finite number is written with the fewest significant digits that read back as the same number,
and among those with the digits nearest to it, a tie going to the even last digit.  The digits are
found by trying the decimal grids from coarse to fine: on each of them only the two neighbours of
the number can lie between the halfway points around it. -/
set_option autoImplicit false
namespace SchemaHistory.Binary64

/-- A decimal grid of spacing `10 ^ power` laid over quarters of `2 ^ exponent`: the point `c` of
the grid is compared with `x` quarters by comparing `c * point` with `x * quarter`. -/
structure Grid where
  point : Nat
  quarter : Nat

def Grid.of (power exponent : Int) : Grid :=
  let quarters := exponent - 2
  { point := Nat.pow 10 power.toNat * Nat.pow 2 (-quarters).toNat
    quarter := Nat.pow 10 (-power).toNat * Nat.pow 2 quarters.toNat }

/-- The power of ten at or just below the number. -/
def magnitude (mantissa : Nat) (exponent : Int) : Int :=
  let guess := Int.fdiv (((mantissa.log2 : Int) + exponent) * 30103) 100000
  let grid := Grid.of (guess + 1) exponent
  if grid.point ≤ 4 * mantissa * grid.quarter then guess + 1 else guess

/-- The point of the grid that reads back as the number and is nearest to it. -/
def onGrid? (mantissa : Nat) (exponent : Int) (grid : Grid) : Option Nat :=
  let value := 4 * mantissa * grid.quarter
  let above := (4 * mantissa + 2) * grid.quarter
  let gap := if mantissa = Nat.pow 2 52 ∧ leastExponent < exponent then 1 else 2
  let below := (4 * mantissa - gap) * grid.quarter
  let reads (c : Nat) : Bool :=
    let x := c * grid.point
    if mantissa % 2 = 0 then decide (below ≤ x) && decide (x ≤ above)
    else decide (below < x) && decide (x < above)
  let floor := value / grid.point
  match reads floor, reads (floor + 1) with
  | false, false => none
  | true, false => some floor
  | false, true => some (floor + 1)
  | true, true =>
    let down := value - floor * grid.point
    let up := (floor + 1) * grid.point - value
    if down < up then some floor
    else if up < down then some (floor + 1)
    else some (floor + floor % 2)

/-- Tries `count`, `count + 1`, … significant digits, `tries` times. -/
def digitsFrom (mantissa : Nat) (exponent top : Int) :
    (tries : Nat) → (count : Nat) → Nat × Int
  | 0, _ => (0, 0)
  | tries + 1, count =>
    let power := top - (count : Int) + 1
    match onGrid? mantissa exponent (Grid.of power exponent) with
    | some c => (c, power)
    | none => digitsFrom mantissa exponent top tries (count + 1)

/-- Digits and power of ten of the shortest text; seventeen digits always suffice. -/
def shortest (mantissa : Nat) (exponent : Int) : Nat × Int :=
  digitsFrom mantissa exponent (magnitude mantissa exponent) 17 1

/-- From `10 ^ -4` to below `10 ^ 16` a number is written with a point in its place, and with
`.0` when it is whole; other numbers have one digit before the point and an exponent with a sign
and at least two digits. -/
def placed (digits : List Char) (power : Int) : String :=
  let leading := power + (digits.length : Int) - 1
  if -4 ≤ leading ∧ leading < 16 then
    if 0 ≤ power then
      String.ofList (digits ++ List.replicate power.toNat '0') ++ ".0"
    else if 0 ≤ leading then
      let whole := leading.toNat + 1
      String.ofList (digits.take whole) ++ "." ++ String.ofList (digits.drop whole)
    else
      "0." ++ String.ofList (List.replicate (-leading - 1).toNat '0' ++ digits)
  else
    let fraction := digits.drop 1
    let size := toString leading.natAbs
    String.ofList (digits.take 1)
      ++ (if fraction.isEmpty then "" else "." ++ String.ofList fraction)
      ++ (if leading < 0 then "e-" else "e+")
      ++ (if size.length < 2 then "0" ++ size else size)

/-- Trailing zeros carried over to the power of ten. -/
def withoutZeros (digits : List Char) (power : Int) : List Char × Int :=
  let kept := (digits.reverse.dropWhile (· == '0')).reverse
  (kept, power + ((digits.length - kept.length : Nat) : Int))

def magnitudeText (mantissa : Nat) (exponent : Int) : String :=
  if mantissa = 0 then "0.0"
  else
    let (c, power) := shortest mantissa exponent
    let (digits, power) := withoutZeros (Nat.toDigits 10 c) power
    placed digits power

/-- The text of a number, where `infinity` and `notNumber` spell what no numeral can. -/
def text (infinity notNumber : String) : Binary64 → String
  | .nan => notNumber
  | .infinite negative => (if negative then "-" else "") ++ infinity
  | .finite negative mantissa exponent =>
    (if negative then "-" else "") ++ magnitudeText mantissa exponent

end SchemaHistory.Binary64
