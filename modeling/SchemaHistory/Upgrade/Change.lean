import SchemaHistory.Json.Equality
import SchemaHistory.Json.Quoted

/-! # Changes between two versions

A type, a field or a variant is removed, added, or redefined, which means that its name stands for
another declaration than before.  Only an addition keeps what could be used before. -/
set_option autoImplicit false
namespace SchemaHistory

/-- The kind of item, and for a field or a variant the path of what contains it. -/
inductive Scope
  | type
  | field (owner : Text)
  | variant (owner : Text)
  deriving DecidableEq, Repr

/-- What happened, with the form of the item before and after. -/
inductive Edit
  | removed (old : Json)
  | added (new : Json)
  | redefined (old new : Json)
  deriving DecidableEq, Repr

structure Change where
  scope : Scope
  name : Json
  edit : Edit
  deriving DecidableEq, Repr

namespace Scope

def label : Scope → String
  | .type => "TYPE"
  | .field _ => "FIELD"
  | .variant _ => "VARIANT"

def memberPath (owner : Text) (name : Json) : Text := owner ++ "." ++ name.shown

/-- The path of an item; that of a type is its name as it was given. -/
def pathOf (name : Json) : Scope → Json
  | .type => name
  | .field owner => .str (memberPath owner name)
  | .variant owner => .str (memberPath owner name)

end Scope

namespace Edit

def label : Edit → String
  | .removed _ => "REMOVED"
  | .added _ => "ADDED"
  | .redefined _ _ => "REDEFINED"

def isBreaking : Edit → Bool
  | .removed _ => true
  | .added _ => false
  | .redefined _ _ => true

def old? : Edit → Option Json
  | .removed old => some old
  | .added _ => none
  | .redefined old _ => some old

def new? : Edit → Option Json
  | .removed _ => none
  | .added new => some new
  | .redefined _ new => some new

end Edit

namespace Change

def kind (c : Change) : String := c.scope.label ++ "_" ++ c.edit.label

def path (c : Change) : Json := c.scope.pathOf c.name

def isBreaking (c : Change) : Bool := c.edit.isBreaking

def message (c : Change) : Text :=
  match c.scope, c.edit with
  | .type, .removed _ => "Type '" ++ c.name.shown ++ "' was removed"
  | .type, .added new => "Type '" ++ c.name.shown ++ "' (" ++ new.shown ++ ") added"
  | .type, .redefined _ _ =>
    "Type '" ++ c.name.shown ++ "' is backed by a different declaration"
  | .field owner, .removed _ => "Field '" ++ c.name.shown ++ "' was removed from '" ++ owner ++ "'"
  | .field owner, .added _ => "Field '" ++ c.name.shown ++ "' added to '" ++ owner ++ "'"
  | .field owner, .redefined _ _ =>
    "Field '" ++ c.name.shown ++ "' of '" ++ owner ++ "' is backed by a different declaration"
  | .variant owner, .removed _ =>
    "Variant '" ++ c.name.shown ++ "' was removed from enum '" ++ owner ++ "'"
  | .variant owner, .added _ =>
    "Variant '" ++ c.name.shown ++ "' added to enum '" ++ owner ++ "'"
  | .variant owner, .redefined _ _ =>
    "Variant '" ++ c.name.shown ++ "' of '" ++ owner ++ "' is backed by a different declaration"

def status (c : Change) : String := if c.isBreaking then "BREAKING" else "OK"

/-- The kind and the path behind the status. -/
def headline (c : Change) : Text :=
  "[" ++ c.status ++ "] " ++ c.kind ++ ": " ++ c.path.shown

def text (c : Change) : Text := c.headline ++ " - " ++ c.message

def json (c : Change) : Json :=
  .obj [("kind", .str c.kind), ("path", c.path), ("breaking", .bool c.isBreaking),
    ("old_value", c.edit.old?.getD .null), ("new_value", c.edit.new?.getD .null),
    ("message", .str c.message)]

end Change
end SchemaHistory
