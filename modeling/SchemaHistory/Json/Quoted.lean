import SchemaHistory.Decimal.Shortest
import SchemaHistory.Json.Basic
import SchemaHistory.Text.Quoted

/-! # JSON values in messages

A message that rejects a value shows it.  `quoted` writes texts between quotes; `shown` is the same
but leaves a text that is the whole value as it is. -/
set_option autoImplicit false
namespace SchemaHistory.Json

mutual

def quoted : Json → Text
  | .null => "None"
  | .bool true => "True"
  | .bool false => "False"
  | .int n => Text.ofInt n
  | .real x => x.text "inf" "nan"
  | .str s => Text.quoted s
  | .arr [] => "[]"
  | .arr (item :: items) => "[" ++ quoted item ++ quotedItems items ++ "]"
  | .obj [] => "\x7b\x7d"
  | .obj ((name, value) :: members) =>
    "\x7b" ++ Text.quoted name ++ ": " ++ quoted value ++ quotedMembers members ++ "\x7d"

def quotedItems : List Json → Text
  | [] => []
  | item :: items => ", " ++ quoted item ++ quotedItems items

def quotedMembers : List (Text × Json) → Text
  | [] => []
  | (name, value) :: members =>
    ", " ++ Text.quoted name ++ ": " ++ quoted value ++ quotedMembers members

end

def shown : Json → Text
  | .str s => s
  | value => value.quoted

@[simp] theorem shown_str (s : Text) : shown (.str s) = s := rfl

end SchemaHistory.Json
