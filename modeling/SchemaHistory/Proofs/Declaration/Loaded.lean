import SchemaHistory.Declaration.Document
import SchemaHistory.Proofs.Declaration.Relocated
import SchemaHistory.Proofs.Results

/-! # What is read from a document

A field, a variant or a declaration is read from the members of an object exactly when each of its
parts is (`ReadFrom`, for each of them).  No name that was read is blank, and no place that was read
has a file, so dropping the names of files changes nothing in declarations that come from a document
(`declarations_loaded`). -/
set_option autoImplicit false
namespace SchemaHistory

open Document

theorem Document.checkedName_eq_ok_iff {fault : DocumentFault} {name checked : Json} :
    checkedName fault name = .ok checked ↔ name = checked ∧ checked.isBlank = false := by
  unfold checkedName
  split
  · rename_i blank
    constructor
    · intro read
      cases read
    · rintro ⟨rfl, named⟩
      rw [blank] at named
      cases named
  · rename_i named
    rw [Except.ok.injEq]
    constructor
    · rintro rfl
      exact ⟨rfl, Bool.eq_false_of_not_eq_true named⟩
    · exact And.left

/-! ## Names -/

def Field.IsNamed (f : Field) : Prop := f.name.isBlank = false

structure Variant.IsNamed (v : Variant) : Prop where
  name : v.name.isBlank = false
  fields : ∀ f ∈ v.payload.fields, f.IsNamed

def Body.IsNamed : Body → Prop
  | .record _ fields => ∀ f ∈ fields, f.IsNamed
  | .enum variants => ∀ v ∈ variants, v.IsNamed

structure Decl.IsNamed (d : Decl) : Prop where
  name : d.name.isBlank = false
  body : d.body.IsNamed

/-! ## The parts of an item -/

structure Field.ReadFrom (members : Members) (f : Field) : Prop where
  name : required "name" members = .ok f.name
  type : (required "value" members >>= TypeExpr.ofDocument) = .ok f.type
  header : Header.ofMembers members = .ok f.header
  position : positionIn members = .ok f.position
  named : f.IsNamed

theorem Field.ofDocument_eq_ok_iff {value : Json} {f : Field} :
    ofDocument value = .ok f ↔ ∃ members, value = .obj members ∧ ReadFrom members f := by
  constructor
  · intro read
    cases value with
    | obj members =>
        simp only [ofDocument, make, bind_eq_ok_iff, checkedName_eq_ok_iff] at read
        obtain ⟨name, hasName, type, hasType, header, hasHeader, position, hasPosition, checked,
          ⟨rfl, named⟩, equal⟩ := read
        cases equal
        exact ⟨members, rfl, hasName, bind_eq_ok_iff.mpr hasType, hasHeader, hasPosition, named⟩
    | _ => cases read
  · rintro ⟨members, rfl, parts⟩
    have checked : checkedName .emptyFieldName f.name = .ok f.name :=
      checkedName_eq_ok_iff.mpr ⟨rfl, parts.named⟩
    simp only [ofDocument, make, bind_eq_ok_iff]
    exact ⟨f.name, parts.name, f.type, bind_eq_ok_iff.mp parts.type, f.header, parts.header,
      f.position, parts.position, f.name, checked, rfl⟩

def Payload.ReadFrom (members : Members) (name : Json) (payload : Payload) : Prop :=
  ∃ shape discriminant types fields,
    Variant.Shape.named? ((Json.find? "kind" members).getD (.str "unit")) = some shape ∧
    Variant.optionalDiscriminant members = .ok discriminant ∧
    (listIn "values" members >>= List.mapM TypeExpr.ofDocument) = .ok types ∧
    (listIn "fields" members >>= List.mapM Field.ofDocument) = .ok fields ∧
    Variant.payloadOf name shape discriminant types fields = .ok payload

structure Variant.ReadFrom (members : Members) (v : Variant) : Prop where
  name : required "name" members = .ok v.name
  payload : v.payload.ReadFrom members v.name
  header : Header.ofMembers members = .ok v.header
  position : positionIn members = .ok v.position
  named : v.name.isBlank = false

theorem Variant.ofDocument_eq_ok_iff {value : Json} {v : Variant} :
    ofDocument value = .ok v ↔ ∃ members, value = .obj members ∧ ReadFrom members v := by
  constructor
  · intro read
    cases value with
    | obj members =>
        simp only [ofDocument, bind_eq_ok_iff] at read
        obtain ⟨name, hasName, read⟩ := read
        split at read
        · rename_i shape shaped
          simp only [bind_eq_ok_iff, checkedName_eq_ok_iff] at read
          obtain ⟨_, known, discriminant, hasDiscriminant, types, hasTypes, fields, hasFields,
            header, hasHeader, position, hasPosition, checked, ⟨rfl, named⟩, payload, hasPayload,
            equal⟩ := read
          cases known
          cases equal
          exact ⟨members, rfl, hasName,
            ⟨shape, discriminant, types, fields, shaped, hasDiscriminant,
              bind_eq_ok_iff.mpr hasTypes, bind_eq_ok_iff.mpr hasFields, hasPayload⟩,
            hasHeader, hasPosition, named⟩
        · cases read
    | _ => cases read
  · rintro ⟨members, rfl, parts⟩
    obtain ⟨shape, discriminant, types, fields, shaped, hasDiscriminant, hasTypes, hasFields,
      hasPayload⟩ := parts.payload
    have checked : checkedName .emptyVariantName v.name = .ok v.name :=
      checkedName_eq_ok_iff.mpr ⟨rfl, parts.named⟩
    simp only [ofDocument, shaped, bind_eq_ok_iff]
    exact ⟨v.name, parts.name, shape, rfl, discriminant, hasDiscriminant, types,
      bind_eq_ok_iff.mp hasTypes, fields, bind_eq_ok_iff.mp hasFields, v.header, parts.header,
      v.position, parts.position, v.name, checked, v.payload, hasPayload, rfl⟩

structure Decl.ReadFrom (members : Members) (d : Decl) : Prop where
  name : required "name" members = .ok d.name
  body : ∃ value kind, required "kind" members = .ok value ∧ kindNamed? value = some kind ∧
    bodyOf kind members = .ok d.body
  header : Header.ofMembers members = .ok d.header
  position : positionIn members = .ok d.position
  named : d.name.isBlank = false

theorem Decl.ofDocument_eq_ok_iff {value : Json} {d : Decl} :
    ofDocument value = .ok d ↔ ∃ members, value = .obj members ∧ ReadFrom members d := by
  constructor
  · intro read
    cases value with
    | obj members =>
        simp only [ofDocument, bind_eq_ok_iff] at read
        obtain ⟨value, hasKind, read⟩ := read
        split at read
        · rename_i kind known
          simp only [ofMembers, bind_eq_ok_iff, checkedName_eq_ok_iff] at read
          obtain ⟨name, hasName, body, hasBody, header, hasHeader, position, hasPosition, checked,
            ⟨rfl, named⟩, equal⟩ := read
          cases equal
          exact ⟨members, rfl, hasName, ⟨value, kind, hasKind, known, hasBody⟩, hasHeader,
            hasPosition, named⟩
        · cases read
    | _ => cases read
  · rintro ⟨members, rfl, parts⟩
    obtain ⟨value, kind, hasKind, known, hasBody⟩ := parts.body
    have checked : checkedName .emptyTypeName d.name = .ok d.name :=
      checkedName_eq_ok_iff.mpr ⟨rfl, parts.named⟩
    simp only [ofDocument, bind_eq_ok_iff]
    refine ⟨value, hasKind, ?_⟩
    simp only [known, ofMembers, bind_eq_ok_iff]
    exact ⟨d.name, parts.name, d.body, hasBody, d.header, parts.header, d.position,
      parts.position, d.name, checked, rfl⟩

/-! ## Places without files -/

theorem Document.withoutFile_of_place {members : Members} {p : Position}
    (read : place members = .ok p) : p.withoutFile = p := by
  simp only [place, bind_eq_ok_iff] at read
  obtain ⟨line, hasLine, column, hasColumn, equal⟩ := read
  cases equal
  rfl

theorem Document.fileless_of_positionIn {members : Members} {p : Option Position}
    (read : positionIn members = .ok p) : fileless p = p := by
  unfold positionIn at read
  split at read
  · cases read
    rfl
  · split at read
    · cases read
      rfl
    · split at read
      · obtain ⟨q, hasPlace, rfl⟩ := map_eq_ok_iff.mp read
        exact congrArg some (withoutFile_of_place hasPlace)
      · cases read

theorem Document.relocate_of_literal {value : Json} {n : Literal} (read : literal value = .ok n) :
    n.relocate fileless = n := by
  unfold literal at read
  split at read
  · cases read
    rfl
  · split at read
    · split at read
      · obtain ⟨p, hasPlace, rfl⟩ := map_eq_ok_iff.mp read
        exact congrArg (Located.mk _) (congrArg some (withoutFile_of_place hasPlace))
      · cases read
        rfl
    · cases read
  · cases read

theorem Document.relocate_of_optionalLiteral {name : Text} {members : Members}
    {n : Option Literal} (read : optionalLiteral name members = .ok n) :
    n.map (Located.relocate fileless) = n := by
  unfold optionalLiteral at read
  split at read
  · cases read
    rfl
  · obtain ⟨m, hasLiteral, rfl⟩ := map_eq_ok_iff.mp read
    exact congrArg some (relocate_of_literal hasLiteral)

theorem Header.parts_of_make {added removed : Option Literal} {p : Option Position} {h : Header}
    (read : make added removed p = .ok h) :
    h.added = added ∧ h.removed = removed ∧ h.position = p := by
  cases added with
  | some n =>
      cases read
      exact ⟨rfl, rfl, rfl⟩
  | none =>
      cases removed with
      | some m =>
          cases read
          exact ⟨rfl, rfl, rfl⟩
      | none => cases read

theorem Header.relocate_eq_self {f : Option Position → Option Position} {h : Header}
    (added : h.added.map (Located.relocate f) = h.added)
    (removed : h.removed.map (Located.relocate f) = h.removed)
    (position : f h.position = h.position) : h.relocate f = h := by
  obtain ⟨a, r, p, present⟩ := h
  simp only [relocate, mk.injEq]
  exact ⟨added, removed, position⟩

theorem Header.relocate_of_members {members : Members} {h : Option Header}
    (read : ofMembers members = .ok h) : h.map (Header.relocate fileless) = h := by
  unfold ofMembers at read
  cases found : (Json.find? "version" members).getD .null with
  | null =>
      rw [found] at read
      cases read
      rfl
  | obj inner =>
      rw [found] at read
      simp only [ofValue, bind_eq_ok_iff, map_eq_ok_iff] at read
      obtain ⟨added, hasAdded, removed, hasRemoved, position, hasPosition, g, made, rfl⟩ := read
      obtain ⟨rfl, rfl, rfl⟩ := parts_of_make made
      exact congrArg some (relocate_eq_self (relocate_of_optionalLiteral hasAdded)
        (relocate_of_optionalLiteral hasRemoved) (fileless_of_positionIn hasPosition))
  | str s =>
      rw [found, ofValue] at read
      split at read <;> cases read
  | arr items =>
      rw [found, ofValue] at read
      split at read <;> cases read
  | bool b =>
      rw [found] at read
      cases read
  | int n =>
      rw [found] at read
      cases read
  | real x =>
      rw [found] at read
      cases read

/-! ## Expressions -/

namespace TypeExpr

/-- The expressions that can be read from an object at the given place, each from its parts. -/
inductive ReadFrom (p : Option Position) : TypeExpr → Prop
  | primitive {kind : Primitive} : ReadFrom p (.primitive kind p)
  | named {name : Json} : ReadFrom p (.named name p)
  | optional {value : Json} {t : TypeExpr} (inner : ofDocument value = .ok t) :
      ReadFrom p (.optional t p)
  | reference {value : Json} {t : TypeExpr} (inner : ofDocument value = .ok t) :
      ReadFrom p (.reference t p)
  | array {value size : Json} {t : TypeExpr} (inner : ofDocument value = .ok t) :
      ReadFrom p (.array t size p)
  | slice {value : Json} {t : TypeExpr} (inner : ofDocument value = .ok t) :
      ReadFrom p (.slice t p)
  | tuple {values : List Json} {items : List TypeExpr} (inner : ofDocuments values = .ok items) :
      ReadFrom p (.tuple items p)

theorem exists_inner {members : Members} {t : TypeExpr}
    (read : (match _found : Json.find? "of" members with
      | none => Except.error (DocumentFault.missing "of")
      | some inner => ofDocument inner) = .ok t) : ∃ value, ofDocument value = .ok t := by
  split at read
  · cases read
  · exact ⟨_, read⟩

theorem readFrom_of_ofDocument {value : Json} {t : TypeExpr} (read : ofDocument value = .ok t) :
    ∃ p, fileless p = p ∧ ReadFrom p t := by
  cases value with
  | obj members =>
      rw [ofDocument] at read
      simp only [bind_eq_ok_iff] at read
      obtain ⟨kind, -, p, hasPosition, read⟩ := read
      refine ⟨p, fileless_of_positionIn hasPosition, ?_⟩
      -- one case for every kind of expression, in the order in which the kinds are told apart
      split at read
      · obtain ⟨name, -, read⟩ := bind_eq_ok_iff.mp read
        split at read
        · split at read <;> cases read
          exact .primitive
        · cases read
      · obtain ⟨name, -, equal⟩ := bind_eq_ok_iff.mp read
        cases equal
        exact .named
      · obtain ⟨inner, hasInner, equal⟩ := bind_eq_ok_iff.mp read
        obtain ⟨value, own⟩ := exists_inner hasInner
        cases equal
        exact .optional own
      · obtain ⟨inner, hasInner, equal⟩ := bind_eq_ok_iff.mp read
        obtain ⟨value, own⟩ := exists_inner hasInner
        cases equal
        exact .reference own
      · obtain ⟨inner, hasInner, read⟩ := bind_eq_ok_iff.mp read
        obtain ⟨size, -, equal⟩ := bind_eq_ok_iff.mp read
        obtain ⟨value, own⟩ := exists_inner hasInner
        cases equal
        exact .array own
      · obtain ⟨inner, hasInner, equal⟩ := bind_eq_ok_iff.mp read
        obtain ⟨value, own⟩ := exists_inner hasInner
        cases equal
        exact .slice own
      · split at read
        · cases read
        · obtain ⟨items, hasItems, equal⟩ := bind_eq_ok_iff.mp read
          cases equal
          exact .tuple hasItems
        · obtain ⟨none, -, read⟩ := bind_eq_ok_iff.mp read
          split at read <;> cases read
          exact .tuple ofDocuments.eq_1
      · cases read
  | _ =>
      rw [ofDocument] at read
      · cases read
      · exact fun inner equal => by cases equal

mutual

theorem relocate_of_document : (t : TypeExpr) → (value : Json) → ofDocument value = .ok t →
    t.relocate fileless = t
  | .primitive kind p, _, read => by
      obtain ⟨_, place, read⟩ := readFrom_of_ofDocument read
      cases read with
      | primitive => rw [relocate, place]
  | .named name p, _, read => by
      obtain ⟨_, place, read⟩ := readFrom_of_ofDocument read
      cases read with
      | named => rw [relocate, place]
  | .optional inner p, _, read => by
      obtain ⟨_, place, read⟩ := readFrom_of_ofDocument read
      cases read with
      | optional read => rw [relocate, place, relocate_of_document inner _ read]
  | .reference inner p, _, read => by
      obtain ⟨_, place, read⟩ := readFrom_of_ofDocument read
      cases read with
      | reference read => rw [relocate, place, relocate_of_document inner _ read]
  | .array inner size p, _, read => by
      obtain ⟨_, place, read⟩ := readFrom_of_ofDocument read
      cases read with
      | array read => rw [relocate, place, relocate_of_document inner _ read]
  | .slice inner p, _, read => by
      obtain ⟨_, place, read⟩ := readFrom_of_ofDocument read
      cases read with
      | slice read => rw [relocate, place, relocate_of_document inner _ read]
  | .tuple items p, _, read => by
      obtain ⟨_, place, read⟩ := readFrom_of_ofDocument read
      cases read with
      | tuple read => rw [relocate, place, relocateItems_of_documents items _ read]

theorem relocateItems_of_documents : (items : List TypeExpr) → (values : List Json) →
    ofDocuments values = .ok items → relocateItems fileless items = items
  | [], _, _ => rfl
  | item :: items, values, read => by
      cases values with
      | nil =>
          rw [ofDocuments] at read
          cases read
      | cons value values =>
          simp only [ofDocuments, bind_eq_ok_iff] at read
          obtain ⟨first, head, others, tail, equal⟩ := read
          cases equal
          rw [relocateItems, relocate_of_document item _ head,
            relocateItems_of_documents items _ tail]

end
end TypeExpr

/-! ## Declarations -/

theorem Field.relocate_of_document {value : Json} {f : Field} (read : ofDocument value = .ok f) :
    f.IsNamed ∧ f.relocate fileless = f := by
  obtain ⟨members, rfl, parts⟩ := ofDocument_eq_ok_iff.mp read
  obtain ⟨inner, -, hasType⟩ := bind_eq_ok_iff.mp parts.type
  refine ⟨parts.named, ?_⟩
  rw [relocate, TypeExpr.relocate_of_document f.type inner hasType,
    Header.relocate_of_members parts.header, fileless_of_positionIn parts.position]

theorem Field.relocate_of_documents {values : List Json} {fs : List Field}
    (read : values.mapM ofDocument = .ok fs) :
    (∀ f ∈ fs, f.IsNamed) ∧ fs.map (relocate fileless) = fs := by
  have each := forall_of_mapM (fun _ _ _ => relocate_of_document) read
  exact ⟨fun f member => (each f member).1, map_eq_self_of_forall fun f member => (each f member).2⟩

theorem Variant.cases_of_payloadOf {name : Json} {shape : Shape} {discriminant : Option Literal}
    {types : List TypeExpr} {fields : List Field} {payload : Payload}
    (read : payloadOf name shape discriminant types fields = .ok payload) :
    payload = .unit ∨ (∃ n, discriminant = some n ∧ payload = .int ⟨n.value.toNat, n.position⟩) ∨
      payload = .tuple types ∨ payload = .struct fields := by
  unfold payloadOf at read
  split_ifs at read
  split at read <;> cases read
  · exact .inr (.inl ⟨_, rfl, rfl⟩)
  · exact .inr (.inr (.inl rfl))
  · exact .inr (.inr (.inr rfl))
  · exact .inl rfl

theorem Variant.relocate_of_optionalDiscriminant {members : Members} {n : Literal}
    (read : optionalDiscriminant members = .ok (some n)) : n.relocate fileless = n := by
  unfold optionalDiscriminant at read
  split at read
  · cases read
  · obtain ⟨m, hasLiteral, equal⟩ := map_eq_ok_iff.mp read
    cases equal
    exact relocate_of_literal hasLiteral

theorem Payload.relocate_of_members {members : Members} {name : Json} {payload : Payload}
    (read : payload.ReadFrom members name) :
    (∀ f ∈ payload.fields, f.IsNamed) ∧ payload.relocate fileless = payload := by
  obtain ⟨shape, discriminant, types, fields, -, hasDiscriminant, hasTypes, hasFields, built⟩ :=
    read
  rcases Variant.cases_of_payloadOf built with rfl | ⟨n, rfl, rfl⟩ | rfl | rfl
  · exact ⟨List.forall_mem_nil _, rfl⟩
  · have own := Variant.relocate_of_optionalDiscriminant hasDiscriminant
    have place : fileless n.position = n.position := congrArg Located.position own
    exact ⟨List.forall_mem_nil _, congrArg (fun p => int ⟨n.value.toNat, p⟩) place⟩
  · obtain ⟨values, -, hasTypes⟩ := bind_eq_ok_iff.mp hasTypes
    have each := forall_of_mapM (fun value _ t => TypeExpr.relocate_of_document t value) hasTypes
    exact ⟨List.forall_mem_nil _, congrArg tuple (map_eq_self_of_forall each)⟩
  · obtain ⟨values, -, hasFields⟩ := bind_eq_ok_iff.mp hasFields
    obtain ⟨named, same⟩ := Field.relocate_of_documents hasFields
    exact ⟨named, congrArg struct same⟩

theorem Variant.relocate_of_document {value : Json} {v : Variant}
    (read : ofDocument value = .ok v) : v.IsNamed ∧ v.relocate fileless = v := by
  obtain ⟨members, rfl, parts⟩ := ofDocument_eq_ok_iff.mp read
  obtain ⟨named, same⟩ := Payload.relocate_of_members parts.payload
  refine ⟨⟨parts.named, named⟩, ?_⟩
  rw [relocate, same, Header.relocate_of_members parts.header,
    fileless_of_positionIn parts.position]

theorem Body.relocate_of_members {kind : Kind} {members : Members} {body : Body}
    (read : Decl.bodyOf kind members = .ok body) :
    body.IsNamed ∧ body.relocate fileless = body := by
  have record {values : List Json} {node : Bool} {fs : List Field}
      (hasFields : values.mapM Field.ofDocument = .ok fs) :
      (Body.record node fs).IsNamed ∧
        (Body.record node fs).relocate fileless = .record node fs := by
    obtain ⟨named, same⟩ := Field.relocate_of_documents hasFields
    exact ⟨named, congrArg (Body.record node) same⟩
  cases kind with
  | struct =>
      simp only [Decl.bodyOf, bind_eq_ok_iff] at read
      obtain ⟨fs, ⟨values, -, hasFields⟩, equal⟩ := read
      cases equal
      exact record hasFields
  | node =>
      simp only [Decl.bodyOf, bind_eq_ok_iff] at read
      obtain ⟨fs, ⟨values, -, hasFields⟩, equal⟩ := read
      cases equal
      exact record hasFields
  | enum =>
      simp only [Decl.bodyOf, bind_eq_ok_iff] at read
      obtain ⟨vs, ⟨values, -, hasVariants⟩, equal⟩ := read
      cases equal
      have each := forall_of_mapM (fun _ _ _ => Variant.relocate_of_document) hasVariants
      exact ⟨fun v member => (each v member).1,
        congrArg Body.enum (map_eq_self_of_forall fun v member => (each v member).2)⟩

theorem Decl.relocate_of_document {value : Json} {d : Decl} (read : ofDocument value = .ok d) :
    d.IsNamed ∧ d.withoutFile = d := by
  obtain ⟨members, rfl, parts⟩ := ofDocument_eq_ok_iff.mp read
  obtain ⟨_, kind, -, -, hasBody⟩ := parts.body
  obtain ⟨named, same⟩ := Body.relocate_of_members hasBody
  refine ⟨⟨parts.named, named⟩, ?_⟩
  rw [withoutFile, relocate, same, Header.relocate_of_members parts.header,
    fileless_of_positionIn parts.position]

/-- Loaded declarations have no blank names and no files. -/
theorem declarations_loaded {document : Json} {decls : List Decl}
    (read : declarationsOfDocument document = .ok decls) :
    ∀ d ∈ decls, d.IsNamed ∧ d.withoutFile = d := by
  cases document with
  | obj members =>
      obtain ⟨values, -, hasTypes⟩ := bind_eq_ok_iff.mp read
      exact forall_of_mapM (fun _ _ _ => Decl.relocate_of_document) hasTypes
  | _ => cases read

end SchemaHistory
