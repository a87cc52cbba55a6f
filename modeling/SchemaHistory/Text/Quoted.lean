import SchemaHistory.Text.Basic
import SchemaHistory.Text.Printable

/-! # Quoted texts in messages

A text in a message stands between single quotes, or between double quotes when it holds a single
quote and no double one.  The quote in use and the backslash are escaped, tab, line feed and
carriage return have short escapes, and every other letter that is not printable is written by its
number in two, four or eight hexadecimal digits. -/
set_option autoImplicit false
namespace SchemaHistory.Text

def hexDigits (width n : Nat) : List Char :=
  let digits := Nat.toDigits 16 n
  List.replicate (width - digits.length) '0' ++ digits

def quoteFor (t : Text) : Char :=
  if .char '\'' ∈ t ∧ .char '"' ∉ t then '"' else '\''

def escapeNumber (n : Nat) : List Char :=
  if n < 0x100 then '\\' :: 'x' :: hexDigits 2 n
  else if n < 0x10000 then '\\' :: 'u' :: hexDigits 4 n
  else '\\' :: 'U' :: hexDigits 8 n

def quoteLetter (quote : Char) : Letter → List Char
  | .surrogate offset => escapeNumber (Letter.surrogate offset).code
  | .char c =>
    if c = quote ∨ c = '\\' then ['\\', c]
    else if c = '\t' then ['\\', 't']
    else if c = '\n' then ['\\', 'n']
    else if c = '\r' then ['\\', 'r']
    else if isPrintable c then [c]
    else escapeNumber c.toNat

def quoted (t : Text) : Text :=
  let quote := quoteFor t
  ofChars (quote :: t.flatMap (quoteLetter quote) ++ [quote])

end SchemaHistory.Text
