import SchemaHistory.Decimal.Shortest
import SchemaHistory.Json.Basic
import SchemaHistory.Text.Quoted

/-! # JSON text

`Json.write` writes a value in printable ASCII characters.  A layout fixes what stands between the
parts: nothing (`compact`), single spaces (`spaced`), or line breaks, each followed by the
indentation of one level as often as there are levels (`indented`).  Empty arrays and objects have
nothing between their brackets in any layout. -/
set_option autoImplicit false
namespace SchemaHistory.Json

inductive Layout
  | compact
  | spaced
  | indented (level : Text)
  deriving DecidableEq, Repr

def Layout.indentedBy (width : Nat) : Layout := .indented (List.replicate width (.char ' '))

def Layout.lineBreak : Layout → (depth : Nat) → Text
  | .compact, _ => []
  | .spaced, _ => []
  | .indented level, depth => .char '\n' :: (List.replicate depth level).flatten

def Layout.comma : Layout → (depth : Nat) → Text
  | .spaced, _ => ", "
  | layout, depth => .char ',' :: layout.lineBreak depth

def Layout.colon : Layout → Text
  | .compact => ":"
  | _ => ": "

def escapeUnit (n : Nat) : Text := Text.ofChars ('\\' :: 'u' :: Text.hexDigits 4 n)

/-- A character beyond U+FFFF is written as its two halves in UTF-16. -/
def escapeChar (c : Char) : Text :=
  if c = '"' then "\\\""
  else if c = '\\' then "\\\\"
  else if c = '\n' then "\\n"
  else if c = '\r' then "\\r"
  else if c = '\t' then "\\t"
  else if c = '\x0c' then "\\f"
  else if c = '\x08' then "\\b"
  else if 0x20 ≤ c.toNat ∧ c.toNat < 0x7F then [.char c]
  else if c.toNat < 0x10000 then escapeUnit c.toNat
  else
    let offset := c.toNat - 0x10000
    escapeUnit (0xD800 + offset / 0x400) ++ escapeUnit (0xDC00 + offset % 0x400)

def escapeLetter : Letter → Text
  | .char c => escapeChar c
  | .surrogate offset => escapeUnit (Letter.surrogate offset).code

def stringText (s : Text) : Text := .char '"' :: s.flatMap escapeLetter ++ [.char '"']

mutual

/-- The text of a value that stands at the given depth. -/
def text (layout : Layout) (depth : Nat) : Json → Text
  | .null => "null"
  | .bool true => "true"
  | .bool false => "false"
  | .int n => Text.ofInt n
  | .real x => x.text "Infinity" "NaN"
  | .str s => stringText s
  | .arr [] => "[]"
  | .arr (item :: items) =>
    .char '[' :: (layout.lineBreak (depth + 1) ++ (text layout (depth + 1) item
      ++ (itemsText layout (depth + 1) items ++ (layout.lineBreak depth ++ [.char ']']))))
  | .obj [] => "\x7b\x7d"
  | .obj ((name, value) :: members) =>
    .char '\x7b' :: (layout.lineBreak (depth + 1) ++ (stringText name ++ (layout.colon
      ++ (text layout (depth + 1) value ++ (membersText layout (depth + 1) members
      ++ (layout.lineBreak depth ++ [.char '\x7d']))))))

def itemsText (layout : Layout) (depth : Nat) : List Json → Text
  | [] => []
  | item :: items =>
    layout.comma depth ++ (text layout depth item ++ itemsText layout depth items)

def membersText (layout : Layout) (depth : Nat) : List (Text × Json) → Text
  | [] => []
  | (name, value) :: members =>
    layout.comma depth ++ (stringText name ++ (layout.colon ++ (text layout depth value
      ++ membersText layout depth members)))

end

def write (layout : Layout) (value : Json) : Text := text layout 0 value

end SchemaHistory.Json
