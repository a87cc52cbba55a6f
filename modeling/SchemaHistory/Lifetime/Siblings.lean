import SchemaHistory.Inspection
import SchemaHistory.Json.Order
import SchemaHistory.Lifetime.Basic

/-! # Siblings

The types of a schema are siblings, and so are the fields of a record, the variants of an enum and
the fields of a struct variant.  Siblings may share a name only if they never live in the same
version.  An item without a header of its own never shares its name. -/
set_option autoImplicit false
namespace SchemaHistory

structure Sibling where
  name : Json
  hasHeader : Bool
  lifetime : Lifetime
  position : Option Position
  deriving DecidableEq, Repr

namespace Sibling

/-- The first lifetime has ended when the second one starts. -/
def endsBefore (first later : Lifetime) : Bool :=
  match first.removed with
  | none => false
  | some removed => decide (removed ≤ later.added)

/-- Whether two siblings can never live in the same version. -/
def disjoint (left right : Sibling) : Bool :=
  if !left.hasHeader || !right.hasHeader then false
  else if left.lifetime.added = right.lifetime.added then false
  else if left.lifetime.added < right.lifetime.added then endsBefore left.lifetime right.lifetime
  else endsBefore right.lifetime left.lifetime

def clashes (earlier item : Sibling) : Bool :=
  Json.equals earlier.name item.name && !disjoint earlier item

end Sibling

/-- The siblings accepted so far, in the order of their declaration. -/
abbrev Siblings := List Sibling

/-- Accepts one more sibling, or rejects it and leaves the others as they are. -/
def Siblings.add (siblings : Siblings) (item : Sibling) : Except Diagnostic Siblings :=
  if siblings.any fun earlier => earlier.clashes item then
    .error ⟨.sharedName item.name, item.position⟩
  else .ok (siblings ++ [item])

/-- Compares the items with the siblings that it holds, and holds those that it does not reject. -/
def Siblings.inspector : Inspector Siblings Sibling := fun item => do
  for earlier in ← get do
    if earlier.clashes item then throw ⟨.sharedName item.name, item.position⟩
  modify (· ++ [item])

end SchemaHistory
