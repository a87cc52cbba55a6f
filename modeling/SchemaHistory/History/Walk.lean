import SchemaHistory.Enumeration.Style
import SchemaHistory.History.Basic
import SchemaHistory.Lifetime.Siblings

/-! # The walk through the declarations

The items of a schema are visited in the order in which they were written.  A visit resolves the
lifetime of the item, places it, and accepts its name among its siblings; a variant first has to
fit the style of its enum, the name of a type is accepted after its members, and a field of a
struct variant is placed after its name was accepted.  The walk ends at the first item that is
rejected and keeps the placements made up to there. -/
set_option autoImplicit false
namespace SchemaHistory

/-- The placements of a part of the walk, and how that part ended. -/
structure Walk (α : Type) where
  placements : List Placement
  result : Except Diagnostic α

namespace Walk

def done {α : Type} (a : α) : Walk α := ⟨[], .ok a⟩

def check {α : Type} (result : Except Diagnostic α) : Walk α := ⟨[], result⟩

def place (lifetime : Lifetime) (slot : Slot) : Walk Unit := ⟨[⟨lifetime, slot⟩], .ok ()⟩

def followedBy {α β : Type} (w : Walk α) (next : α → Walk β) : Walk β :=
  match w.result with
  | .error d => ⟨w.placements, .error d⟩
  | .ok a => ⟨w.placements ++ (next a).placements, (next a).result⟩

instance : Monad Walk where
  pure := done
  bind := followedBy

def ofField (f : Field) (l : Lifetime) : Sibling := ⟨f.name, f.header.isSome, l, f.position⟩
def ofVariant (v : Variant) (l : Lifetime) : Sibling := ⟨v.name, v.header.isSome, l, v.position⟩
def ofDecl (d : Decl) (l : Lifetime) : Sibling := ⟨d.name, d.header.isSome, l, d.position⟩

/-- Visits the fields of a record that lives in `container`, from the field with number `i` on. -/
def fields (limit : Int) (container : Lifetime) (i : Nat) (siblings : Siblings) :
    List Field → Walk Unit
  | [] => done ()
  | f :: rest => do
    let lifetime ← check (Lifetime.resolveWithin limit f.header (some container))
    place lifetime (.member (.plain i))
    let siblings ← check (siblings.add (ofField f lifetime))
    fields limit container (i + 1) siblings rest

def variantFields (limit : Int) (container : Lifetime) (i : Nat) (siblings : Siblings) :
    List Field → Walk Unit
  | [] => done ()
  | f :: rest => do
    let lifetime ← check (Lifetime.resolveWithin limit f.header (some container))
    let siblings ← check (siblings.add (ofField f lifetime))
    place lifetime (.field i)
    variantFields limit container (i + 1) siblings rest

def slotOf (i : Nat) (v : Variant) : MemberSlot :=
  if v.payload.isStruct then .struct i [] else .plain i

def variants (limit : Int) (enumName : Json) (container : Lifetime) (i : Nat)
    (style : Option Style) (siblings : Siblings) : List Variant → Walk Unit
  | [] => done ()
  | v :: rest => do
    let style ← check (Style.step enumName style v)
    let lifetime ← check (Lifetime.resolveWithin limit v.header (some container))
    place lifetime (.member (slotOf i v))
    let siblings ← check (siblings.add (ofVariant v lifetime))
    variantFields limit lifetime 0 [] v.payload.fields
    variants limit enumName container (i + 1) style siblings rest

def members (limit : Int) (container : Lifetime) (d : Decl) : Walk Unit :=
  match d.body with
  | .record _ fs => fields limit container 0 [] fs
  | .enum vs => variants limit d.name container 0 none [] vs

def types (limit : Int) (i : Nat) (siblings : Siblings) : List Decl → Walk Unit
  | [] => done ()
  | d :: rest => do
    let lifetime ← check (Lifetime.resolveWithin limit d.header none)
    place lifetime (.type i)
    members limit lifetime d
    let siblings ← check (siblings.add (ofDecl d lifetime))
    types limit (i + 1) siblings rest

end Walk

namespace History

/-- The walk through a whole schema in which no header may mention a version above `limit`. -/
def walk (limit : Int) (decls : List Decl) : Walk Unit := Walk.types limit 0 [] decls

/-- The snapshots of all versions of a schema, the first one for version 1. -/
def ofDeclarations (limit : Int) (decls : List Decl) : Except Diagnostic (List Snapshot) :=
  match (walk limit decls).result with
  | .error d => .error d
  | .ok _ => .ok (empty.placeAll (walk limit decls).placements).snapshots

end History
end SchemaHistory
