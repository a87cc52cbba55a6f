import SchemaHistory.Declaration.Basic

/-! # Schemas written as documents

A declaration document is a JSON object whose member `types` lists the declarations.  This module
reads and writes such documents.  What a document leaves out has a default: a missing list is
empty, a missing variant kind is `unit`, and headers and positions may be absent.  Members with
other names are not looked at.

A faulty document is rejected at the first fault, where the parts of an item are read in the order
name, kind, discriminant, types, fields, header, position and only then the item itself is judged.
Two of the faults say that a value has the wrong shape: `wrongShape` where an item or a list was
due, and `noMembers` where a value that cannot have members was asked for one it may lack. -/
set_option autoImplicit false
namespace SchemaHistory

inductive DocumentFault
  | missing (member : Text)
  | wrongShape
  | noMembers
  | badNumber (value : Json)
  | emptyHeader
  | unknownPrimitive (name : Json)
  | unknownTypeExpr (kind : Json)
  | unknownVariantKind (kind : Json)
  | unknownKind (kind : Json)
  | emptyFieldName
  | emptyVariantName
  | emptyTypeName
  | discriminantMismatch (variantName : Json)
  | negativeDiscriminant (value : Int)
  | typesMismatch (variantName : Json)
  | fieldsMismatch (variantName : Json)
  deriving Repr

def DocumentFault.message : DocumentFault → Text
  | .missing member => member
  | .wrongShape => "a value has the wrong shape"
  | .noMembers => "a value that is not an object has no members"
  | .badNumber value => "Invalid integer literal " ++ value.quoted
  | .emptyHeader => "version annotation must contain at least one of 'add' or 'rem'"
  | .unknownPrimitive name =>
    "Invalid primitive '" ++ name.shown ++ "'. Valid primitives: " ++
      (Json.arr (Primitive.all.map fun p => .str p.name)).quoted
  | .unknownTypeExpr kind => "Invalid value kind '" ++ kind.shown ++ "'"
  | .unknownVariantKind kind => kind.quoted ++ " is not a valid VariantKind"
  | .unknownKind kind => kind.quoted ++ " is not a valid DeclKind"
  | .emptyFieldName => "Field name cannot be empty"
  | .emptyVariantName => "Variant name cannot be empty"
  | .emptyTypeName => "Type name cannot be empty"
  | .discriminantMismatch variantName =>
    "discriminant is required exactly for INT variant '" ++ variantName.shown ++ "'"
  | .negativeDiscriminant value => "discriminant must be non-negative, got " ++ Text.ofInt value
  | .typesMismatch variantName =>
    "values are only allowed on TUPLE variant '" ++ variantName.shown ++ "'"
  | .fieldsMismatch variantName =>
    "fields are only allowed on STRUCT variant '" ++ variantName.shown ++ "'"

namespace Document

abbrev Members := List (Text × Json)

def required (name : Text) (members : Members) : Except DocumentFault Json :=
  match Json.find? name members with
  | some value => .ok value
  | none => .error (.missing name)

/-- The values that a list value consists of: an object is walked by its names, a text by its
characters. -/
def elements : Json → Except DocumentFault (List Json)
  | .arr items => .ok items
  | .obj members => .ok (members.map fun m => .str m.1)
  | .str s => .ok (s.map fun l => .str [l])
  | _ => .error .wrongShape

/-- The elements of a member that may be left out. -/
def listIn (name : Text) (members : Members) : Except DocumentFault (List Json) :=
  elements ((Json.find? name members).getD (.arr []))

def place (members : Members) : Except DocumentFault Position := do
  let line ← required "line" members
  let column ← required "column" members
  .ok ⟨line, column, none⟩

def placeDocument (p : Position) : Members := [("line", p.line), ("column", p.column)]

/-- The member `location` of an item; whatever is blank there is no position. -/
def positionIn (members : Members) : Except DocumentFault (Option Position) :=
  match Json.find? "location" members with
  | none => .ok none
  | some value =>
    if value.isBlank then .ok none
    else match value with
      | .obj inner => (place inner).map some
      | _ => .error .wrongShape

def positionMember : Option Position → Members
  | none => []
  | some p => [("location", .obj (placeDocument p))]

/-- A number stands alone or, with its place, in an object. -/
def literal : Json → Except DocumentFault Literal
  | .int n => .ok ⟨n, none⟩
  | .obj members =>
    match (Json.find? "value" members).getD .null with
    | .int n =>
      if Json.has "line" members then (place members).map fun p => ⟨n, some p⟩
      else .ok ⟨n, none⟩
    | value => .error (.badNumber value)
  | value => .error (.badNumber value)

def literalDocument (n : Literal) : Json :=
  match n.position with
  | none => .int n.value
  | some p => .obj (("value", .int n.value) :: placeDocument p)

def optionalLiteral (name : Text) (members : Members) :
    Except DocumentFault (Option Literal) :=
  match Json.find? name members with
  | none => .ok none
  | some value => (literal value).map some

def optionalMember (name : Text) : Option Literal → Members
  | none => []
  | some n => [(name, literalDocument n)]

end Document

open Document

namespace Header

def make (added removed : Option Literal) (position : Option Position) :
    Except DocumentFault Header :=
  match added, removed with
  | none, none => .error .emptyHeader
  | some n, m => .ok (adding n m position)
  | none, some m => .ok (removing m position)

/-- A text or a list is asked for the words `add` and `rem` before its members are missed. -/
def mentions (word : Text) : Json → Bool
  | .str s => (List.range (s.length + 1)).any fun i => word.isPrefixOf (s.drop i)
  | .arr items => items.any fun item => decide (item = .str word)
  | _ => false

def ofValue : Json → Except DocumentFault (Option Header)
  | .null => .ok none
  | .obj members => do
    let added ← optionalLiteral "add" members
    let removed ← optionalLiteral "rem" members
    let position ← positionIn members
    (make added removed position).map some
  | .str s =>
    if mentions "add" (.str s) || mentions "rem" (.str s) then .error .wrongShape
    else .error .noMembers
  | .arr items =>
    if mentions "add" (.arr items) || mentions "rem" (.arr items) then .error .wrongShape
    else .error .noMembers
  | _ => .error .wrongShape

/-- The header of an item, in its member `version`. -/
def ofMembers (members : Members) : Except DocumentFault (Option Header) :=
  ofValue ((Json.find? "version" members).getD .null)

def document (h : Header) : Json :=
  .obj (optionalMember "add" h.added ++ optionalMember "rem" h.removed
    ++ positionMember h.position)

def member : Option Header → Members
  | none => []
  | some h => [("version", h.document)]

end Header

namespace TypeExpr

mutual

def ofDocument (value : Json) : Except DocumentFault TypeExpr :=
  match value with
  | .obj members => do
    let kind ← required "kind" members
    let position ← positionIn members
    let inner : Except DocumentFault TypeExpr :=
      match found : Json.find? "of" members with
      | none => .error (.missing "of")
      | some inner =>
        have := Json.sizeOf_lt_of_find? found
        ofDocument inner
    match kind.string? with
    | some "primitive" => do
      match ← required "name" members with
      | .str name =>
        match Primitive.named? name with
        | some p => .ok (.primitive p position)
        | none => .error (.unknownPrimitive (.str name))
      | name => .error (.unknownPrimitive name)
    | some "composite" => do .ok (.named (← required "name" members) position)
    | some "opt" => do .ok (.optional (← inner) position)
    | some "ref" => do .ok (.reference (← inner) position)
    | some "array" => do
      let inner ← inner
      let size ← required "size" members
      .ok (.array inner size position)
    | some "slice" => do .ok (.slice (← inner) position)
    | some "tuple" =>
      match found : Json.find? "items" members with
      | none => .error (.missing "items")
      | some (.arr items) => do
        have _array := Json.sizeOf_lt_of_find? found
        .ok (.tuple (← ofDocuments items) position)
      | some other => do
        if (← elements other).isEmpty then .ok (.tuple [] position) else .error .wrongShape
    | _ => .error (.unknownTypeExpr kind)
  | _ => .error .wrongShape
termination_by sizeOf value
decreasing_by
  · assumption
  · rw [Json.arr.sizeOf_spec] at _array
    omega

def ofDocuments (values : List Json) : Except DocumentFault (List TypeExpr) :=
  match values with
  | [] => .ok []
  | value :: values => do
    let first ← ofDocument value
    let rest ← ofDocuments values
    .ok (first :: rest)
termination_by sizeOf values

end

mutual

def document : TypeExpr → Json
  | .primitive kind p =>
    .obj (("kind", .str "primitive") :: ("name", .str kind.name) :: positionMember p)
  | .named name p => .obj (("kind", .str "composite") :: ("name", name) :: positionMember p)
  | .optional inner p => .obj (("kind", .str "opt") :: ("of", document inner) :: positionMember p)
  | .reference inner p => .obj (("kind", .str "ref") :: ("of", document inner) :: positionMember p)
  | .array inner size p =>
    .obj (("kind", .str "array") :: ("of", document inner) :: ("size", size) :: positionMember p)
  | .slice inner p => .obj (("kind", .str "slice") :: ("of", document inner) :: positionMember p)
  | .tuple items p =>
    .obj (("kind", .str "tuple") :: ("items", .arr (documents items)) :: positionMember p)

def documents : List TypeExpr → List Json
  | [] => []
  | item :: items => document item :: documents items

end

@[simp] theorem documents_eq_map (items : List TypeExpr) :
    documents items = items.map document := by
  induction items with
  | nil => rfl
  | cons item items ih => simp [documents, ih]

end TypeExpr

/-- A name is any value that is not blank; `fault` is what a blank one amounts to. -/
def Document.checkedName (fault : DocumentFault) (name : Json) : Except DocumentFault Json :=
  if name.isBlank then .error fault else .ok name

namespace Field

def make (name : Json) (type : TypeExpr) (header : Option Header) (position : Option Position) :
    Except DocumentFault Field := do
  let name ← checkedName .emptyFieldName name
  .ok ⟨name, type, header, position⟩

def ofDocument : Json → Except DocumentFault Field
  | .obj members => do
    let name ← required "name" members
    let type ← required "value" members >>= TypeExpr.ofDocument
    let header ← Header.ofMembers members
    let position ← positionIn members
    make name type header position
  | _ => .error .wrongShape

def document (f : Field) : Json :=
  .obj (("name", f.name) :: ("value", f.type.document) ::
    (Header.member f.header ++ positionMember f.position))

end Field

namespace Variant

inductive Shape
  | unit
  | int
  | tuple
  | struct
  deriving DecidableEq, Repr

def Shape.named? (value : Json) : Option Shape :=
  match value.string? with
  | some "unit" => some .unit
  | some "int" => some .int
  | some "tuple" => some .tuple
  | some "struct" => some .struct
  | _ => none

/-- Puts the payload together; whatever the shape has no place for must be absent. -/
def payloadOf (name : Json) (shape : Shape) (discriminant : Option Literal)
    (types : List TypeExpr) (fields : List Field) : Except DocumentFault Payload :=
  if decide (shape = .int) != discriminant.isSome then .error (.discriminantMismatch name)
  else if discriminant.any fun n => decide (n.value < 0) then
    .error (.negativeDiscriminant ((discriminant.map Located.value).getD 0))
  else if !types.isEmpty && decide (shape ≠ .tuple) then .error (.typesMismatch name)
  else if !fields.isEmpty && decide (shape ≠ .struct) then .error (.fieldsMismatch name)
  else match shape, discriminant with
    | .int, some n => .ok (.int ⟨n.value.toNat, n.position⟩)
    | .tuple, _ => .ok (.tuple types)
    | .struct, _ => .ok (.struct fields)
    | _, _ => .ok .unit

def optionalDiscriminant (members : Members) : Except DocumentFault (Option Literal) :=
  match (Json.find? "discriminant" members).getD .null with
  | .null => .ok none
  | value => (literal value).map some

def ofDocument : Json → Except DocumentFault Variant
  | .obj members => do
    let name ← required "name" members
    let kind := (Json.find? "kind" members).getD (.str "unit")
    let shape ← match Shape.named? kind with
      | some shape => .ok shape
      | none => .error (.unknownVariantKind kind)
    let discriminant ← optionalDiscriminant members
    let types ← listIn "values" members >>= List.mapM TypeExpr.ofDocument
    let fields ← listIn "fields" members >>= List.mapM Field.ofDocument
    let header ← Header.ofMembers members
    let position ← positionIn members
    let name ← checkedName .emptyVariantName name
    let payload ← payloadOf name shape discriminant types fields
    .ok ⟨name, payload, header, position⟩
  | _ => .error .noMembers

def payloadMembers : Payload → Members
  | .unit => [("kind", .str "unit")]
  | .int n =>
    [("kind", .str "int"), ("discriminant", literalDocument ⟨(n.value : Int), n.position⟩)]
  | .tuple types => [("kind", .str "tuple"), ("values", .arr (types.map TypeExpr.document))]
  | .struct fields => [("kind", .str "struct"), ("fields", .arr (fields.map Field.document))]

def document (v : Variant) : Json :=
  .obj (("name", v.name) ::
    (payloadMembers v.payload ++ Header.member v.header ++ positionMember v.position))

end Variant

namespace Decl

def kindNamed? (value : Json) : Option Kind :=
  match value.string? with
  | some "struct" => some .struct
  | some "node" => some .node
  | some "enum" => some .enum
  | _ => none

def bodyOf (kind : Kind) (members : Members) : Except DocumentFault Body :=
  match kind with
  | .enum => do
    let variants ← listIn "variants" members >>= List.mapM Variant.ofDocument
    .ok (.enum variants)
  | kind => do
    let fields ← listIn "fields" members >>= List.mapM Field.ofDocument
    .ok (.record (decide (kind = .node)) fields)

/-- A declaration that is known to be of the given kind. -/
def ofMembers (kind : Kind) (members : Members) : Except DocumentFault Decl := do
  let name ← required "name" members
  let body ← bodyOf kind members
  let header ← Header.ofMembers members
  let position ← positionIn members
  let name ← checkedName .emptyTypeName name
  .ok ⟨name, body, header, position⟩

def ofDocument : Json → Except DocumentFault Decl
  | .obj members => do
    let kind ← required "kind" members
    match kindNamed? kind with
    | some kind => ofMembers kind members
    | none => .error (.unknownKind kind)
  | _ => .error .wrongShape

def bodyMember : Body → Text × Json
  | .record _ fields => ("fields", .arr (fields.map Field.document))
  | .enum variants => ("variants", .arr (variants.map Variant.document))

def document (d : Decl) : Json :=
  .obj (("kind", .str d.kind.name) :: ("name", d.name) :: bodyMember d.body ::
    (Header.member d.header ++ positionMember d.position))

end Decl

def declarationsOfDocument : Json → Except DocumentFault (List Decl)
  | .obj members => listIn "types" members >>= List.mapM Decl.ofDocument
  | _ => .error .noMembers

def documentOfDeclarations (decls : List Decl) : Json :=
  .obj [("types", .arr (decls.map Decl.document))]

end SchemaHistory
