import SchemaHistory.Diagnostic
import SchemaHistory.Text.Blank

/-! # Tokens of the schema language

Words, whole numbers and single symbols, each with the place of its first letter.  Blank characters
and comments, which start with two slashes and end before the next line feed, only separate tokens.
`scan` cuts a text into tokens up to its end or up to the first letter that starts none. -/
set_option autoImplicit false
namespace SchemaHistory

inductive Lexeme
  | word (text : Text)
  | number (digits : Text)
  | symbol (c : Char)
  deriving DecidableEq, Repr

def Lexeme.text : Lexeme → Text
  | .word text => text
  | .number digits => digits
  | .symbol c => [.char c]

structure Token where
  lexeme : Lexeme
  position : Position
  deriving DecidableEq, Repr

/-- The tokens in front of the ending: the end of the text, or what is wrong there. -/
structure Scan where
  tokens : List Token
  ending : Except Diagnostic Position
  deriving Repr

namespace Scan

def isWordStart (c : Char) : Bool := c.isAlpha || c == '_'

def isWordPart (l : Letter) : Bool := l.satisfies fun c => c.isAlphanum || c == '_'

def isDigit (l : Letter) : Bool := l.satisfies Char.isDigit

def symbols : List Char := ['#', '[', ']', '(', ')', '\x7b', '\x7d', '<', '>', ',', ':', ';', '=']

def isSymbol (c : Char) : Bool := symbols.contains c

def startsComment (c : Char) (rest : Text) : Bool := c == '/' && rest.head? == some (.char '/')

def inLine (l : Letter) : Bool := decide (l ≠ .char '\n')

def put (token : Token) (scan : Scan) : Scan := { scan with tokens := token :: scan.tokens }

def refused (l : Letter) (p : Position) : Scan :=
  ⟨[], .error ⟨.text (.unexpectedCharacter l), some p⟩⟩

/-- Scans what stands from the cursor on. -/
def ofText (file : Option Text) (p : Cursor) : Text → Scan
  | [] => ⟨[], .ok (p.position file)⟩
  | .surrogate offset :: _ => refused (.surrogate offset) (p.position file)
  | .char c :: rest =>
    if Text.isBlank c then ofText file (p.after (.char c)) rest
    else if startsComment c rest then
      ofText file (p.afterAll (.char c :: rest.takeWhile inLine)) (rest.dropWhile inLine)
    else if isWordStart c then
      let word : Text := .char c :: rest.takeWhile isWordPart
      put ⟨.word word, p.position file⟩
        (ofText file (p.afterAll word) (rest.dropWhile isWordPart))
    else if c.isDigit then
      let digits : Text := .char c :: rest.takeWhile isDigit
      put ⟨.number digits, p.position file⟩
        (ofText file (p.afterAll digits) (rest.dropWhile isDigit))
    else if isSymbol c then
      put ⟨.symbol c, p.position file⟩ (ofText file (p.after (.char c)) rest)
    else refused (.char c) (p.position file)
termination_by t => t.length
decreasing_by
  all_goals first
    | exact Nat.lt_succ_self _
    | exact Nat.lt_succ_of_le ((List.dropWhile_sublist _).length_le)

end Scan

def scan (text : Text) (file : Option Text) : Scan := Scan.ofText file Cursor.start text

end SchemaHistory
