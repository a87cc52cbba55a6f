import SchemaHistory.Text.Basic
import SchemaHistory.Text.Blank
import SchemaHistory.Text.Digit

/-! # Decimal numerals

The number that a list of decimal digits denotes, and the numerals that people type: white space
around them is dropped, a sign may come first, the digits may come from any script, and single
underscores may stand between digits.  A numeral with more than 4300 digits, zeros in front
included, is not converted, however small its number is. -/
set_option autoImplicit false
namespace SchemaHistory.Text

def ofDigits (digits : List Nat) : Nat := digits.foldl (fun n d => n * 10 + d) 0

/-- The number of digits up to which a numeral is converted. -/
def digitLimit : Nat := 4300

/-- A numeral that has too many digits. -/
structure Overlong where
  digits : Nat
  deriving DecidableEq, Repr

def Overlong.message (o : Overlong) : Text :=
  "Exceeds the limit (" ++ ofNat digitLimit ++
    " digits) for integer string conversion: value has " ++ ofNat o.digits ++
    " digits; use sys.set_int_max_str_digits() to increase the limit"

def converted (digits : List Nat) : Except Overlong Nat :=
  if digitLimit < digits.length then .error ⟨digits.length⟩ else .ok (ofDigits digits)

/-- One of the digits from `0` to `9`. -/
def isWesternDigit (l : Letter) : Bool := l.satisfies Char.isDigit

def digitValues (digits : Text) : List Nat := digits.map fun l => l.code - '0'.toNat

/-- The number that digits from `0` to `9` denote. -/
def digitsValue (digits : Text) : Nat := ofDigits (digitValues digits)

/-- The number that digits from `0` to `9` are converted to. -/
def natural (digits : Text) : Except Overlong Nat := converted (digitValues digits)

def isSpaceLetter (l : Letter) : Bool := l.satisfies isSpace

def trimmed (t : Text) : Text :=
  ((t.dropWhile isSpaceLetter).reverse.dropWhile isSpaceLetter).reverse

/-- Digits, as `digit?` knows them, with single underscores between them; `digitDue` says that one
has to follow. -/
def groupedDigits? (digit? : Char → Option Nat) (digitDue : Bool) : Text → Option (List Nat)
  | [] => if digitDue then none else some []
  | .surrogate _ :: _ => none
  | .char c :: rest =>
    match digit? c with
    | some d => (groupedDigits? digit? false rest).map (d :: ·)
    | none => if c = '_' ∧ digitDue = false then groupedDigits? digit? true rest else none

def unsigned? (t : Text) : Option Int := do
  let digits ← groupedDigits? digit? true t
  (converted digits).toOption

def signed? : Text → Option Int
  | .char '-' :: rest => (unsigned? rest).map Int.neg
  | .char '+' :: rest => unsigned? rest
  | t => unsigned? t

def int? (t : Text) : Option Int := signed? (trimmed t)

theorem natural_eq (digits : Text) : natural digits =
    if digitLimit < digits.length then .error ⟨digits.length⟩ else .ok (digitsValue digits) := by
  rw [natural, converted, digitValues, List.length_map, digitsValue, digitValues]

end SchemaHistory.Text
