import SchemaHistory.Declaration.TypeExpr

/-! # Declarations

A schema is a list of declarations: records, whose members are fields, and enums, whose members are
variants.  Any of them may carry a version header, which says in which versions it was added and
removed.  The payload of a variant decides what else belongs to it.  Names are texts, except that a
declaration document may name an item by any value that is not blank. -/
set_option autoImplicit false
namespace SchemaHistory

/-- A version header names at least one of the two versions. -/
structure Header where
  added : Option Literal
  removed : Option Literal
  position : Option Position
  present : added.isSome = true ∨ removed.isSome = true
  deriving DecidableEq, Repr

namespace Header

def adding (added : Literal) (removed : Option Literal) (position : Option Position) : Header :=
  ⟨some added, removed, position, .inl rfl⟩

def removing (removed : Literal) (position : Option Position) : Header :=
  ⟨none, some removed, position, .inr rfl⟩

end Header

structure Field where
  name : Json
  type : TypeExpr
  header : Option Header
  position : Option Position
  deriving Repr, Inhabited

inductive Payload
  | unit
  | int (discriminant : Located Nat)
  | tuple (types : List TypeExpr)
  | struct (fields : List Field)
  deriving Repr, Inhabited

structure Variant where
  name : Json
  payload : Payload
  header : Option Header
  position : Option Position
  deriving Repr, Inhabited

/-- The kinds of types: a node may only be used through a reference, the others never so. -/
inductive Kind
  | struct
  | node
  | enum
  deriving DecidableEq, Repr

def Kind.name : Kind → String
  | .struct => "struct"
  | .node => "node"
  | .enum => "enum"

inductive Body
  | record (node : Bool) (fields : List Field)
  | enum (variants : List Variant)
  deriving Repr, Inhabited

structure Decl where
  name : Json
  body : Body
  header : Option Header
  position : Option Position
  deriving Repr, Inhabited

namespace Payload

/-- The fields of a struct variant; other variants have none. -/
def fields : Payload → List Field
  | .struct fields => fields
  | _ => []

def isStruct : Payload → Bool
  | .struct _ => true
  | _ => false

end Payload

namespace Variant

def fieldText (f : Field) : Text := f.name.shown ++ ": " ++ f.type.text

/-- The variant in the schema language, without version headers. -/
def text (v : Variant) : Text :=
  match v.payload with
  | .unit => v.name.shown
  | .int discriminant => v.name.shown ++ " = " ++ Text.ofNat discriminant.value
  | .tuple types => v.name.shown ++ "(" ++ Text.join ", " (types.map TypeExpr.text) ++ ")"
  | .struct fields =>
    v.name.shown ++ " \x7b " ++ Text.join ", " (fields.map fieldText) ++ " \x7d"

/-- The text of the variant, or its name as it was given if there is nothing else to say. -/
def form (v : Variant) : Json :=
  match v.payload with
  | .unit => v.name
  | _ => .str v.text

def isWritable (v : Variant) : Bool :=
  match v.payload with
  | .unit => true
  | .int _ => true
  | .tuple types => TypeExpr.areJoinable types
  | .struct fields => fields.all fun f => f.type.isWritable

end Variant

namespace Decl

def kind (d : Decl) : Kind :=
  match d.body with
  | .record true _ => .node
  | .record false _ => .struct
  | .enum _ => .enum

def isNode (d : Decl) : Bool := decide (d.kind = .node)

def fields (d : Decl) : List Field :=
  match d.body with
  | .record _ fields => fields
  | .enum _ => []

def variants (d : Decl) : List Variant :=
  match d.body with
  | .record _ _ => []
  | .enum variants => variants

end Decl
end SchemaHistory
