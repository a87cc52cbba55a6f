import SchemaHistory.Json.Equality

/-! # Sorted members and values that count as equal

`Json.sorted` puts the members of every object in the order of their names.  `Json.key` gives two
values the same key when they count as equal: numbers by what they amount to, where a truth value
is 0 or 1, and objects without regard to the order of their members. -/
set_option autoImplicit false
namespace SchemaHistory.Json

/-- Puts a member in front of the first one with a greater name. -/
def insertSorted (name : Text) (value : Json) : List (Text × Json) → List (Text × Json)
  | [] => [(name, value)]
  | (n, v) :: rest =>
    if Text.precedes name n then (name, value) :: (n, v) :: rest
    else (n, v) :: insertSorted name value rest

mutual

def sorted : Json → Json
  | .arr items => .arr (sortedItems items)
  | .obj members => .obj (sortedMembers members)
  | value => value

def sortedItems : List Json → List Json
  | [] => []
  | item :: items => sorted item :: sortedItems items

def sortedMembers : List (Text × Json) → List (Text × Json)
  | [] => []
  | (name, value) :: members => insertSorted name (sorted value) (sortedMembers members)

end

mutual

def key : Json → Json
  | .bool b => .int (if b then 1 else 0)
  | .real x =>
    match x.whole? with
    | some n => .int n
    | none => .real x
  | .arr items => .arr (itemKeys items)
  | .obj members => .obj (memberKeys members)
  | value => value

def itemKeys : List Json → List Json
  | [] => []
  | item :: items => key item :: itemKeys items

def memberKeys : List (Text × Json) → List (Text × Json)
  | [] => []
  | (name, value) :: members => insertSorted name (key value) (memberKeys members)

end

/-- Whether two values count as equal; what is not a number does not equal itself. -/
def equals (a b : Json) : Bool := decide (a ≠ .real .nan) && decide (a.key = b.key)

/-- Arrays and objects cannot be looked up in a table. -/
def canBeLookedUp : Json → Bool
  | .arr _ => false
  | .obj _ => false
  | _ => true

@[simp] theorem key_str (s : Text) : key (.str s) = .str s := by rw [key]; all_goals simp

end SchemaHistory.Json
