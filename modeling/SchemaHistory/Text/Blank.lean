/-! # Blank characters

White space is what Unicode calls so.  The characters that separate the words of a schema text are
white space and the four information separators U+001C to U+001F. -/
set_option autoImplicit false
namespace SchemaHistory.Text

/-- The code points of white space, as closed intervals. -/
def spaceRanges : List (Nat × Nat) :=
  [(0x09, 0x0D), (0x20, 0x20), (0x85, 0x85), (0xA0, 0xA0), (0x1680, 0x1680), (0x2000, 0x200A),
    (0x2028, 0x2029), (0x202F, 0x202F), (0x205F, 0x205F), (0x3000, 0x3000)]

def isSpace (c : Char) : Bool :=
  spaceRanges.any fun r => decide (r.1 ≤ c.toNat) && decide (c.toNat ≤ r.2)

def isSeparator (c : Char) : Bool := decide (0x1C ≤ c.toNat) && decide (c.toNat ≤ 0x1F)

def isBlank (c : Char) : Bool := isSpace c || isSeparator c

theorem isBlank_newline : isBlank '\n' = true := by decide

end SchemaHistory.Text
