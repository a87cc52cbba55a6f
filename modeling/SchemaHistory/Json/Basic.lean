import SchemaHistory.Decimal.Binary64
import SchemaHistory.Table
import SchemaHistory.Text.Basic

/-! # JSON values

Whole numbers are kept exactly and apart from numbers with a fraction or an exponent.  An object is
the list of its members in the order in which their names first appeared, each name once. -/
set_option autoImplicit false
namespace SchemaHistory

inductive Json
  | null
  | bool (b : Bool)
  | int (n : Int)
  | real (x : Binary64)
  | str (s : Text)
  | arr (items : List Json)
  | obj (members : List (Text × Json))
  deriving Repr, Inhabited

namespace Json

/-- The object with the given members, of which a later one replaces an earlier namesake. -/
def ofMembers (members : List (Text × Json)) : Json := .obj (Table.ofList members)

def find? (name : Text) (members : List (Text × Json)) : Option Json :=
  Table.find? name members

def has (name : Text) (members : List (Text × Json)) : Bool :=
  (find? name members).isSome

def isText : Json → Bool
  | .str _ => true
  | _ => false

/-- The string that a value is. -/
def string? : Json → Option String
  | .str s => s.string?
  | _ => none

/-- A member is smaller than its object, so reading may descend into it. -/
theorem sizeOf_lt_of_find? {name : Text} {members : List (Text × Json)} {value : Json}
    (found : find? name members = some value) : sizeOf value < sizeOf (Json.obj members) := by
  have size := List.sizeOf_lt_of_mem (Table.mem_of_find? found)
  have pair : sizeOf (name, value) = 1 + sizeOf name + sizeOf value := rfl
  rw [Json.obj.sizeOf_spec]
  omega

theorem sizeOf_lt_of_mem {items : List Json} {item : Json} (inside : item ∈ items) :
    sizeOf item < sizeOf (Json.arr items) := by
  have size := List.sizeOf_lt_of_mem inside
  rw [Json.arr.sizeOf_spec]
  omega

/-- Values that count as nothing where an optional member is looked at: null, false, zero and
whatever is empty. -/
def isBlank : Json → Bool
  | .null => true
  | .bool b => !b
  | .int n => n == 0
  | .real x => x.isZero
  | .str s => s.isEmpty
  | .arr items => items.isEmpty
  | .obj members => members.isEmpty

end Json
end SchemaHistory
