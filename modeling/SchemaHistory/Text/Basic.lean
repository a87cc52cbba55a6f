/-! # Texts

A text is a list of letters.  A letter is a character, or a surrogate: one half of a character
beyond U+FFFF that stands without the other half.  No character set can write a surrogate down, but
escapes can name one, so documents and arguments may hold it; it counts as one letter.  A literal
string stands for the text of its characters. -/
set_option autoImplicit false
namespace SchemaHistory

inductive Letter
  | char (c : Char)
  | surrogate (offset : Fin 0x800)
  deriving DecidableEq, Repr

namespace Letter

def code : Letter → Nat
  | .char c => c.toNat
  | .surrogate offset => 0xD800 + offset.val

/-- The letter with a code below U+10000. -/
def ofUnit (n : Nat) : Letter :=
  if 0xD800 ≤ n ∧ n < 0xE000 then .surrogate (Fin.ofNat 0x800 (n - 0xD800))
  else .char (Char.ofNat n)

/-- Whether the letter is a character of the given class. -/
def satisfies (p : Char → Bool) : Letter → Bool
  | .char c => p c
  | .surrogate _ => false

/-- The character, where U+FFFD stands for a surrogate. -/
def shown : Letter → Char
  | .char c => c
  | .surrogate _ => Char.ofNat 0xFFFD

end Letter

abbrev Text := List Letter

namespace Text

def ofLetter (l : Letter) : Text := [l]

def ofChars (cs : List Char) : Text := cs.map Letter.char

def ofString (s : String) : Text := ofChars s.toList

instance : Coe String Text := ⟨ofString⟩

/-- What can be printed of a text. -/
def string (t : Text) : String := String.ofList (t.map Letter.shown)

/-- The string that a text without surrogates is. -/
def string? (t : Text) : Option String :=
  if t.all (Letter.satisfies fun _ => true) then some t.string else none

def ofInt (n : Int) : Text := ofString (toString n)

def ofNat (n : Nat) : Text := ofString (toString n)

def join (separator : Text) (parts : List Text) : Text := separator.intercalate parts

/-- The order of texts letter by letter. -/
def precedes (s t : Text) : Bool := decide (s.map Letter.code < t.map Letter.code)

/-- What follows the given words, if the text starts with them. -/
def after? (words t : Text) : Option Text :=
  if words.isPrefixOf t then some (t.drop words.length) else none

@[simp] theorem map_shown_ofChars (cs : List Char) : (ofChars cs).map Letter.shown = cs := by
  induction cs with
  | nil => rfl
  | cons c cs ih => simpa [ofChars, Letter.shown] using ih

@[simp] theorem string_ofString (s : String) : (ofString s).string = s := by
  simp [ofString, string]

@[simp] theorem string?_ofString (s : String) : (ofString s).string? = some s := by
  have whole : (ofString s).all (Letter.satisfies fun _ => true) = true := by
    simp [ofString, ofChars, Letter.satisfies]
  simp [string?, whole]

end Text
end SchemaHistory
