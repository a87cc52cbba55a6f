import SchemaHistory.Digest.Sha256
import SchemaHistory.History.Walk
import SchemaHistory.Json.Order
import SchemaHistory.Json.Writer
import SchemaHistory.References
import SchemaHistory.Text.Bytes

/-! # Compiled schemas

A schema compiles to the snapshots of its versions, once no item of it is rejected, no version is
empty and the references inside every version hold.  A compiled schema is exported as a JSON value
in which every version spells out its types; the fingerprint is the digest of that value.  Since a
schema is digested as soon as it is compiled, all types that live in some version must be
writable. -/
set_option autoImplicit false
namespace SchemaHistory

structure Compiled where
  decls : List Decl
  snapshots : List Snapshot
  deriving Repr

/-- A version was asked for that a schema of `count` versions does not have. -/
structure MissingVersion where
  version : Int
  count : Nat
  deriving DecidableEq, Repr

def MissingVersion.message (m : MissingVersion) : Text :=
  "version " ++ Text.ofInt m.version ++ " does not exist (1.." ++ Text.ofNat m.count ++ ")"

namespace Snapshot

def fieldJson (f : Field) : Json := .obj [("name", f.name), ("type", f.type.form)]

def fieldsMember (fields : List Field) : Text × Json := ("fields", .arr (fields.map fieldJson))

/-- What a variant shows besides its name: the slot decides which fields of it live. -/
def payloadMembers (slot : MemberSlot) (v : Variant) : List (Text × Json) :=
  match v.payload, slot with
  | .int n, _ => [("discriminant", .int n.value)]
  | .tuple types, _ => [("values", .arr (types.map TypeExpr.form))]
  | _, .struct i inner => [fieldsMember (MemberSlot.fields v (.struct i inner))]
  | _, .plain _ => []

def variantJson (slot : MemberSlot) (v : Variant) : Json :=
  .obj (("name", v.name) :: payloadMembers slot v)

def membersMember (slot : TypeSlot) (d : Decl) : Text × Json :=
  match d.body with
  | .record _ _ => fieldsMember (slot.fields d)
  | .enum _ => ("variants", .arr ((slot.variants d).map fun m => variantJson m.1 m.2))

def typeJson (slot : TypeSlot) (d : Decl) : Json :=
  .obj [("name", d.name), ("kind", .str d.kind.name), membersMember slot d]

/-- The version with its types and members by name. -/
def json (decls : List Decl) (s : Snapshot) : Json :=
  .obj [("version", .int s.version),
    ("types", .arr ((s.declared decls).map fun t => typeJson t.1 t.2))]

def typeNames (decls : List Decl) (s : Snapshot) : List Json :=
  (s.declared decls).map fun t => t.2.name

/-- A record lists its fields by plain slots. -/
def typeFits (slot : TypeSlot) (d : Decl) : Bool :=
  match d.body with
  | .record _ _ => slot.members.all MemberSlot.isPlain
  | .enum _ => true

/-- Whether the members of all types are listed as their declarations have them. -/
def fits (decls : List Decl) (s : Snapshot) : Bool :=
  (s.declared decls).all fun t => typeFits t.1 t.2

def fieldsAreWritable (fields : List Field) : Bool := fields.all fun f => f.type.isWritable

def variantIsWritable (slot : MemberSlot) (v : Variant) : Bool :=
  match v.payload, slot with
  | .int _, _ => true
  | .tuple types, _ => types.all TypeExpr.isWritable
  | _, .struct i inner => fieldsAreWritable (MemberSlot.fields v (.struct i inner))
  | _, .plain _ => true

def typeIsWritable (slot : TypeSlot) (d : Decl) : Bool :=
  match d.body with
  | .record _ _ => fieldsAreWritable (slot.fields d)
  | .enum _ => (slot.variants d).all fun m => variantIsWritable m.1 m.2

/-- Whether all types that live in the version can be written. -/
def isWritable (decls : List Decl) (s : Snapshot) : Bool :=
  (s.declared decls).all fun t => typeIsWritable t.1 t.2

def exported (decls : List Decl) (s : Snapshot) : Except Rejection Json :=
  if !s.fits decls then .error .misplacedFields
  else if s.isWritable decls then .ok (s.json decls)
  else .error .unusableName

end Snapshot

namespace Compiled

def checkSnapshot (decls : List Decl) (s : Snapshot) : Except Rejection Unit :=
  if s.isEmpty then .error (.diagnostic ⟨.emptyVersion s.version, none⟩)
  else References.check decls s

def checkSnapshots (decls : List Decl) : List Snapshot → Except Rejection Unit
  | [] => .ok ()
  | s :: rest => do
    checkSnapshot decls s
    checkSnapshots decls rest

def isExportable (c : Compiled) : Bool :=
  c.snapshots.all fun s => s.fits c.decls && s.isWritable c.decls

/-- Compiles a schema whose headers may mention versions up to `limit`. -/
def ofDeclarations (limit : Int) (decls : List Decl) : Except Rejection Compiled := do
  let snapshots ← (History.ofDeclarations limit decls).mapError Rejection.diagnostic
  checkSnapshots decls snapshots
  let compiled : Compiled := ⟨decls, snapshots⟩
  if compiled.isExportable then .ok compiled else .error .unusableName

def versions (c : Compiled) : Nat := c.snapshots.length

def snapshot? (c : Compiled) (version : Int) : Except MissingVersion Snapshot :=
  if version < 1 then .error ⟨version, c.versions⟩
  else match c.snapshots[(version - 1).toNat]? with
    | some s => .ok s
    | none => .error ⟨version, c.versions⟩

def json (c : Compiled) : Json :=
  .obj [("versions", .arr (c.snapshots.map (Snapshot.json c.decls)))]

/-- The export with sorted members. -/
def text (layout : Json.Layout) (c : Compiled) : Text := c.json.sorted.write layout

/-- The text that is digested. -/
def canonical (c : Compiled) : Text := c.text .compact

/-- The digest of the canonical text. -/
def fingerprint (c : Compiled) : Text := "sha256:" ++ Sha256.hex c.canonical.bytes

def typeNames (c : Compiled) (version : Int) : Except MissingVersion (List Json) :=
  (c.snapshot? version).map (Snapshot.typeNames c.decls)

end Compiled
end SchemaHistory
