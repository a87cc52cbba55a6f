import SchemaHistory.Declaration.Basic

/-! # Snapshots

A snapshot says which declarations live in one version and with which members, by their places in
the schema.  A struct variant also lists its fields. -/
set_option autoImplicit false
namespace SchemaHistory

inductive MemberSlot
  | plain (index : Nat)
  | struct (index : Nat) (fields : List Nat)
  deriving DecidableEq, Repr

structure TypeSlot where
  index : Nat
  members : List MemberSlot
  deriving DecidableEq, Repr

structure Snapshot where
  version : Int
  types : List TypeSlot
  deriving DecidableEq, Repr

def MemberSlot.index : MemberSlot → Nat
  | .plain index => index
  | .struct index _ => index

/-- A slot without fields of its own, the only kind that fits a field of a record. -/
def MemberSlot.isPlain : MemberSlot → Bool
  | .plain _ => true
  | .struct _ _ => false

namespace Snapshot

def isEmpty (s : Snapshot) : Bool := s.types.isEmpty

/-- The types of a snapshot with the declarations that they stand for. -/
def declared (decls : List Decl) (s : Snapshot) : List (TypeSlot × Decl) :=
  s.types.filterMap fun slot => decls[slot.index]?.map fun decl => (slot, decl)

end Snapshot

namespace TypeSlot

def fields (decl : Decl) (slot : TypeSlot) : List Field :=
  slot.members.filterMap fun m => decl.fields[m.index]?

def variants (decl : Decl) (slot : TypeSlot) : List (MemberSlot × Variant) :=
  slot.members.filterMap fun m => decl.variants[m.index]?.map fun v => (m, v)

end TypeSlot

/-- The fields that live where the slot of their variant stands; none for a slot without fields. -/
def MemberSlot.fields (v : Variant) : MemberSlot → List Field
  | .plain _ => []
  | .struct _ fields => fields.filterMap fun i => v.payload.fields[i]?

end SchemaHistory
