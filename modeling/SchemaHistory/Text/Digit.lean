/-! # Decimal digits

The decimal digits of all the scripts of Unicode 14.  Every script has its ten digits in a row, from
its zero on. -/
set_option autoImplicit false
namespace SchemaHistory.Text

/-- The code points of the zeros in ascending order. -/
def zeros : List Nat :=
  [0x30, 0x660, 0x6F0, 0x7C0, 0x966, 0x9E6, 0xA66, 0xAE6, 0xB66, 0xBE6, 0xC66, 0xCE6, 0xD66,
    0xDE6, 0xE50, 0xED0, 0xF20, 0x1040, 0x1090, 0x17E0, 0x1810, 0x1946, 0x19D0, 0x1A80, 0x1A90,
    0x1B50, 0x1BB0, 0x1C40, 0x1C50, 0xA620, 0xA8D0, 0xA900, 0xA9D0, 0xA9F0, 0xAA50, 0xABF0,
    0xFF10, 0x104A0, 0x10D30, 0x11066, 0x110F0, 0x11136, 0x111D0, 0x112F0, 0x11450, 0x114D0,
    0x11650, 0x116C0, 0x11730, 0x118E0, 0x11950, 0x11C50, 0x11D50, 0x11DA0, 0x16A60, 0x16AC0,
    0x16B50, 0x1D7CE, 0x1D7D8, 0x1D7E2, 0x1D7EC, 0x1D7F6, 0x1E140, 0x1E2F0, 0x1E950, 0x1FBF0]

def isDigitFrom (c : Char) (first : Nat) : Bool :=
  decide (first ≤ c.toNat) && decide (c.toNat < first + 10)

/-- The value of a digit. -/
def digit? (c : Char) : Option Nat :=
  (zeros.find? (isDigitFrom c)).map fun first => c.toNat - first

theorem digit?_lt {c : Char} {d : Nat} (found : digit? c = some d) : d < 10 := by
  obtain ⟨first, hit, rfl⟩ := Option.map_eq_some_iff.mp found
  have inside := List.find?_some hit
  simp only [isDigitFrom, Bool.and_eq_true, decide_eq_true_eq] at inside
  omega

end SchemaHistory.Text
