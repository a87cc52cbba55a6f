import SchemaHistory.Declaration.Primitive
import SchemaHistory.Source.Position

/-! # Type expressions

What a field or a tuple variant may hold.  A schema text names types by words and gives lengths of
arrays by whole numbers; a declaration document may put any value there, and it is kept as it was
given.  `TypeExpr.text` is the expression in the schema language, without its positions, and
`TypeExpr.form` is what an export shows: that text, or a name that stands alone as it was given.
The texts of the items of a tuple are joined, so a name that is no text cannot be an item where the
expression has to be written. -/
set_option autoImplicit false
namespace SchemaHistory

inductive TypeExpr
  | primitive (kind : Primitive) (position : Option Position)
  | named (name : Json) (position : Option Position)
  | optional (inner : TypeExpr) (position : Option Position)
  | reference (inner : TypeExpr) (position : Option Position)
  | array (inner : TypeExpr) (size : Json) (position : Option Position)
  | slice (inner : TypeExpr) (position : Option Position)
  | tuple (items : List TypeExpr) (position : Option Position)
  deriving Repr, Inhabited

namespace TypeExpr

/-- The expression that a lone word stands for. -/
def ofWord (word : Text) (position : Option Position) : TypeExpr :=
  match Primitive.named? word with
  | some p => .primitive p position
  | none => .named (.str word) position

mutual

def text : TypeExpr → Text
  | .primitive kind _ => kind.name
  | .named name _ => name.shown
  | .optional inner _ => "opt<" ++ text inner ++ ">"
  | .reference inner _ => "ref<" ++ text inner ++ ">"
  | .array inner size _ => "[" ++ text inner ++ "; " ++ size.shown ++ "]"
  | .slice inner _ => "[" ++ text inner ++ "]"
  | .tuple items _ => "(" ++ Text.join ", " (texts items) ++ ")"

def texts : List TypeExpr → List Text
  | [] => []
  | item :: items => text item :: texts items

end

@[simp] theorem texts_eq_map (items : List TypeExpr) : texts items = items.map text := by
  induction items with
  | nil => rfl
  | cons item items ih => simp [texts, ih]

def form : TypeExpr → Json
  | .named name _ => name
  | other => .str other.text

mutual

def isWritable : TypeExpr → Bool
  | .primitive _ _ => true
  | .named _ _ => true
  | .optional inner _ => isWritable inner
  | .reference inner _ => isWritable inner
  | .array inner _ _ => isWritable inner
  | .slice inner _ => isWritable inner
  | .tuple items _ => areJoinable items

/-- The expressions can be written one after the other in one text. -/
def areJoinable : List TypeExpr → Bool
  | [] => true
  | item :: items => isWritable item && item.form.isText && areJoinable items

end

end TypeExpr
end SchemaHistory
