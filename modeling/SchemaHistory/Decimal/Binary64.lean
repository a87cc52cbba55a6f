/-! # Binary floating point numbers of 64 bits

A finite number is `± mantissa · 2 ^ exponent` with a mantissa below `2 ^ 53` and an exponent from
`-1074` to `971`; the mantissa reaches `2 ^ 52` unless the exponent is the least one.  A decimal
numeral denotes the number nearest to it, a tie going to the even mantissa, and an infinity once it
is too large.  All arithmetic is on natural numbers. -/
set_option autoImplicit false
namespace SchemaHistory

inductive Binary64
  | finite (negative : Bool) (mantissa : Nat) (exponent : Int)
  | infinite (negative : Bool)
  | nan
  deriving DecidableEq, Repr

namespace Binary64

def leastExponent : Int := -1074
def greatestExponent : Int := 971

def zero (negative : Bool) : Binary64 := .finite negative 0 leastExponent

def isZero : Binary64 → Bool
  | .finite _ mantissa _ => mantissa == 0
  | _ => false

/-- The whole number that a number is, if it is one. -/
def whole? : Binary64 → Option Int
  | .finite negative mantissa exponent =>
    let den := Nat.pow 2 (-exponent).toNat
    let num := mantissa * Nat.pow 2 exponent.toNat
    if num % den = 0 then
      let n : Int := (num / den : Nat)
      some (if negative then -n else n)
    else none
  | _ => none

/-- The quotient to the nearest whole number, a half going to the even one. -/
def roundQuotient (num den : Nat) : Nat :=
  let quotient := num / den
  let twice := 2 * (num % den)
  if twice < den then quotient
  else if den < twice then quotient + 1
  else quotient + quotient % 2

/-- `num / den · 2 ^ (-exponent)` as a numerator and a denominator. -/
def scaled (num den : Nat) (exponent : Int) : Nat × Nat :=
  (num * Nat.pow 2 (-exponent).toNat, den * Nat.pow 2 exponent.toNat)

/-- The exponent with which the quotient has a mantissa of 53 bits, or the least one. -/
def exponentOf (num den : Nat) : Int :=
  let guess : Int := (num.log2 : Int) - (den.log2 : Int) - 52
  let (n, d) := scaled num den guess
  max leastExponent (if n / d < Nat.pow 2 52 then guess - 1 else guess)

def ofQuotient (negative : Bool) (num den : Nat) : Binary64 :=
  if num = 0 then zero negative
  else
    let exponent := exponentOf num den
    let (n, d) := scaled num den exponent
    let mantissa := roundQuotient n d
    let (mantissa, exponent) :=
      if mantissa = Nat.pow 2 53 then (Nat.pow 2 52, exponent + 1) else (mantissa, exponent)
    if greatestExponent < exponent then .infinite negative
    else .finite negative mantissa exponent

/-- The number nearest to `± digits · 10 ^ exponent`.  Numerals far outside the range are decided
by their length. -/
def ofDecimal (negative : Bool) (digits : Nat) (exponent : Int) : Binary64 :=
  let length : Int := (Nat.toDigits 10 digits).length
  if digits = 0 then zero negative
  else if 400 < exponent + length then .infinite negative
  else if exponent + length < -400 then zero negative
  else ofQuotient negative (digits * Nat.pow 10 exponent.toNat) (Nat.pow 10 (-exponent).toNat)

end Binary64
end SchemaHistory
