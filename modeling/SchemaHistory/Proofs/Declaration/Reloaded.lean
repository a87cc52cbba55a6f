import SchemaHistory.Proofs.Declaration.Loaded
import SchemaHistory.Proofs.Grammar.Spelled
import SchemaHistory.Proofs.Table

/-! # Loading what was dumped

A dump of declarations is read back as the same declarations without the names of their files, if
no name in them is blank (`declarations_of_dump`).  Declarations that were loaded have no blank
names and no files, so loading their dump changes nothing; declarations that were read from a text
have names of the schema language, so loading their dump drops the file alone
(`declarations_reloaded`). -/
set_option autoImplicit false
namespace SchemaHistory

open Document

/-! ## Numbers and places -/

theorem Json.find?_append (name : Text) (members rest : Members) :
    find? name (members ++ rest) = (find? name members).or (find? name rest) :=
  Table.find?_append name members rest

namespace Document

theorem literal_literalDocument (n : Literal) :
    literal (literalDocument n) = .ok (n.relocate fileless) := by
  obtain ⟨value, position⟩ := n
  cases position with
  | none => rfl
  | some p => rfl

theorem positionIn_positionMember (p : Option Position) :
    positionIn (positionMember p) = .ok (fileless p) := by
  cases p with
  | none => rfl
  | some p => rfl

theorem find?_positionMember {name : Text} (p : Option Position) (other : "location" ≠ name) :
    Json.find? name (positionMember p) = none := by
  cases p with
  | none => rfl
  | some p => exact if_neg other

theorem find?_optionalMember_same (name : Text) (n : Option Literal) :
    Json.find? name (optionalMember name n) = n.map literalDocument := by
  cases n with
  | none => rfl
  | some n => exact if_pos rfl

theorem find?_optionalMember_other {name word : Text} (n : Option Literal) (other : word ≠ name) :
    Json.find? name (optionalMember word n) = none := by
  cases n with
  | none => rfl
  | some n => exact if_neg other

theorem optionalLiteral_of_find? {name : Text} {members : Members} {n : Option Literal}
    (found : Json.find? name members = n.map literalDocument) :
    optionalLiteral name members = .ok (n.map (Located.relocate fileless)) := by
  unfold optionalLiteral
  rw [found]
  cases n with
  | none => rfl
  | some n =>
      change (literal (literalDocument n)).map some = _
      rw [literal_literalDocument]
      rfl

theorem positionIn_of_find? {members : Members} {p : Option Position}
    (found : Json.find? "location" members = Json.find? "location" (positionMember p)) :
    positionIn members = .ok (fileless p) := by
  rw [← positionIn_positionMember]
  unfold positionIn
  rw [found]

end Document

/-! ## Headers -/

namespace Header

theorem make_eq (h : Header) : make h.added h.removed h.position = .ok h := by
  obtain ⟨added, removed, position, present⟩ := h
  cases added with
  | some n => rfl
  | none =>
      cases removed with
      | some m => rfl
      | none => rcases present with absent | absent <;> cases absent

section
variable (added removed : Option Literal) (p : Option Position)

abbrev membersOf : Members :=
  optionalMember "add" added ++ optionalMember "rem" removed ++ positionMember p

theorem find?_add : Json.find? "add" (membersOf added removed p) = added.map literalDocument := by
  rw [Json.find?_append, Json.find?_append, find?_optionalMember_same,
    find?_optionalMember_other removed (by decide), find?_positionMember p (by decide),
    Option.or_none, Option.or_none]

theorem find?_rem :
    Json.find? "rem" (membersOf added removed p) = removed.map literalDocument := by
  rw [Json.find?_append, Json.find?_append, find?_optionalMember_same,
    find?_optionalMember_other added (by decide), find?_positionMember p (by decide),
    Option.none_or, Option.or_none]

theorem find?_location : Json.find? "location" (membersOf added removed p) =
    Json.find? "location" (positionMember p) := by
  rw [Json.find?_append, Json.find?_append, find?_optionalMember_other added (by decide),
    find?_optionalMember_other removed (by decide), Option.none_or, Option.none_or]

end

theorem ofValue_document (h : Header) :
    ofValue h.document = .ok (some (h.relocate fileless)) := by
  have adds := optionalLiteral_of_find? (find?_add h.added h.removed h.position)
  have rems := optionalLiteral_of_find? (find?_rem h.added h.removed h.position)
  have place := positionIn_of_find? (find?_location h.added h.removed h.position)
  have whole := make_eq (h.relocate fileless)
  rw [document, ofValue, adds, rems, place]
  exact congrArg (Except.map some) whole

end Header

/-! ## What stands last in the document of an item -/

section
variable (h : Option Header) (p : Option Position)

abbrev Document.closing : Members := Header.member h ++ positionMember p

theorem Header.ofMembers_closing :
    ofMembers (closing h p) = .ok (h.map (Header.relocate fileless)) := by
  unfold ofMembers
  cases h with
  | none =>
      change ofValue ((Json.find? "version" (positionMember p)).getD .null) = _
      rw [find?_positionMember p (by decide)]
      rfl
  | some h => exact ofValue_document h

theorem Document.find?_closing {name : Text} (notVersion : "version" ≠ name)
    (notLocation : "location" ≠ name) : Json.find? name (closing h p) = none := by
  rw [Json.find?_append, find?_positionMember p notLocation, Option.or_none]
  cases h with
  | none => rfl
  | some h => exact if_neg notVersion

theorem Document.positionIn_closing : positionIn (closing h p) = .ok (fileless p) := by
  cases h with
  | none => exact positionIn_positionMember p
  | some h => exact positionIn_positionMember p

end

/-! ## Expressions -/

namespace TypeExpr

/-- An expression around another one is read from its place and from the inner expression. -/
theorem wrapped_document {inner : TypeExpr} (wrap : TypeExpr → Option Position → TypeExpr)
    (p : Option Position) (own : ofDocument inner.document = .ok (inner.relocate fileless)) :
    (do
      let position ← positionIn (positionMember p)
      let inner ← ofDocument inner.document
      .ok (wrap inner position)) = Except.ok (wrap (inner.relocate fileless) (fileless p)) := by
  rw [positionIn_positionMember, own]
  rfl

mutual

/-- By induction on the expression, whose document has the same parts. -/
theorem ofDocument_document : (t : TypeExpr) →
    ofDocument t.document = .ok (t.relocate fileless)
  | .primitive kind p => by
      rw [document, ofDocument]
      change (do
        let position ← positionIn (positionMember p)
        match Primitive.named? kind.name with
        | some kind => .ok (primitive kind position)
        | none => .error (.unknownPrimitive (.str kind.name))) = _
      rw [positionIn_positionMember, Primitive.named?_name]
      rfl
  | .named name p => by
      rw [document, ofDocument]
      change (do
        let position ← positionIn (positionMember p)
        .ok (named name position)) = _
      rw [positionIn_positionMember]
      rfl
  | .optional inner p => by
      rw [document, ofDocument]
      exact wrapped_document optional p (ofDocument_document inner)
  | .reference inner p => by
      rw [document, ofDocument]
      exact wrapped_document reference p (ofDocument_document inner)
  | .array inner size p => by
      rw [document, ofDocument]
      exact wrapped_document (array · size) p (ofDocument_document inner)
  | .slice inner p => by
      rw [document, ofDocument]
      exact wrapped_document slice p (ofDocument_document inner)
  | .tuple items p => by
      rw [document, ofDocument]
      change (do
        let position ← positionIn (positionMember p)
        let items ← ofDocuments (documents items)
        .ok (tuple items position)) = _
      rw [positionIn_positionMember, ofDocuments_documents items]
      rfl

theorem ofDocuments_documents : (items : List TypeExpr) →
    ofDocuments (documents items) = .ok (relocateItems fileless items)
  | [] => by
      rw [documents, ofDocuments]
      rfl
  | item :: items => by
      rw [documents, ofDocuments, ofDocument_document item, ofDocuments_documents items]
      rfl

end
end TypeExpr

/-! ## Payloads -/

namespace Variant
variable {name : Json}

theorem optionalDiscriminant_int (n : Located Nat) {rest : Members} :
    optionalDiscriminant (("name", name) :: (payloadMembers (.int n) ++ rest)) =
      .ok (some ⟨n.value, fileless n.position⟩) := by
  obtain ⟨value, position⟩ := n
  cases position with
  | none => rfl
  | some p => rfl

theorem payloadOf_int (n : Nat) (p : Option Position) :
    payloadOf name .int (some ⟨n, p⟩) [] [] = .ok (.int ⟨n, p⟩) := by
  have number : ¬(n : Int) < 0 := by omega
  simp [payloadOf, number]

theorem payloadOf_tuple (types : List TypeExpr) :
    payloadOf name .tuple none types [] = .ok (.tuple types) := by
  simp [payloadOf]

theorem payloadOf_struct (fields : List Field) :
    payloadOf name .struct none [] fields = .ok (.struct fields) := by
  simp [payloadOf]

end Variant

/-! ## Declarations -/

theorem Field.readFrom_document {f : Field} (named : f.IsNamed) :
    ReadFrom (("name", f.name) :: ("value", f.type.document) :: closing f.header f.position)
      (f.relocate fileless) where
  name := rfl
  type := TypeExpr.ofDocument_document f.type
  header := Header.ofMembers_closing f.header f.position
  position := positionIn_closing f.header f.position
  named := named

theorem Field.ofDocument_document {f : Field} (named : f.IsNamed) :
    ofDocument f.document = .ok (f.relocate fileless) :=
  ofDocument_eq_ok_iff.mpr ⟨_, rfl, readFrom_document named⟩

section
variable {h : Option Header} {p : Option Position} {name : Json}

/-- The payload is read from its own members, for the others do not bear their names. -/
theorem Payload.readFrom_members {payload : Payload} (named : ∀ f ∈ payload.fields, f.IsNamed) :
    (payload.relocate fileless).ReadFrom
      (("name", name) :: (Variant.payloadMembers payload ++ closing h p)) name := by
  have noDiscriminant : Variant.optionalDiscriminant (closing h p) = .ok none := by
    rw [Variant.optionalDiscriminant, find?_closing h p (by decide) (by decide)]
    rfl
  have noTypes : (listIn "values" (closing h p) >>= List.mapM TypeExpr.ofDocument) = .ok [] := by
    rw [listIn, find?_closing h p (by decide) (by decide)]
    rfl
  have noFields : (listIn "fields" (closing h p) >>= List.mapM Field.ofDocument) = .ok [] := by
    rw [listIn, find?_closing h p (by decide) (by decide)]
    rfl
  cases payload with
  | unit => exact ⟨.unit, none, [], [], rfl, noDiscriminant, noTypes, noFields, rfl⟩
  | int n =>
      exact ⟨.int, some ⟨n.value, fileless n.position⟩, [], [], rfl,
        Variant.optionalDiscriminant_int n, noTypes, noFields,
        Variant.payloadOf_int n.value (fileless n.position)⟩
  | tuple types =>
      have read := mapM_eq_ok_of_forall fun t (_ : t ∈ types) => TypeExpr.ofDocument_document t
      exact ⟨.tuple, none, types.map (TypeExpr.relocate fileless), [], rfl, noDiscriminant, read,
        noFields, Variant.payloadOf_tuple _⟩
  | struct fields =>
      have read := mapM_eq_ok_of_forall fun f member => Field.ofDocument_document (named f member)
      exact ⟨.struct, none, [], fields.map (Field.relocate fileless), rfl, noDiscriminant, noTypes,
        read, Variant.payloadOf_struct _⟩

end

theorem Variant.readFrom_document {v : Variant} (named : v.IsNamed) :
    ReadFrom (("name", v.name) :: (payloadMembers v.payload ++ closing v.header v.position))
      (v.relocate fileless) where
  name := rfl
  payload := Payload.readFrom_members named.fields
  header := by
    have closed := Header.ofMembers_closing v.header v.position
    obtain ⟨name, payload, header, position⟩ := v
    cases payload <;> exact closed
  position := by
    have closed := positionIn_closing v.header v.position
    obtain ⟨name, payload, header, position⟩ := v
    cases payload <;> exact closed
  named := named.name

theorem Variant.ofDocument_document {v : Variant} (named : v.IsNamed) :
    ofDocument v.document = .ok (v.relocate fileless) := by
  refine ofDocument_eq_ok_iff.mpr ⟨_, ?_, readFrom_document named⟩
  rw [document, List.append_assoc]

theorem Decl.kindNamed?_name (kind : Kind) : kindNamed? (.str kind.name) = some kind := by
  cases kind <;> rfl

theorem Decl.bodyOf_document {d : Decl} (named : d.body.IsNamed) {kind name : Json}
    {rest : Members} :
    bodyOf d.kind (("kind", kind) :: ("name", name) :: bodyMember d.body :: rest) =
      .ok (d.body.relocate fileless) := by
  obtain ⟨_, body, _, _⟩ := d
  cases body with
  | record node fs =>
      have read := mapM_eq_ok_of_forall fun f member => Field.ofDocument_document (named f member)
      cases node with
      | true => exact bind_eq_ok_iff.mpr ⟨_, read, rfl⟩
      | false => exact bind_eq_ok_iff.mpr ⟨_, read, rfl⟩
  | enum vs =>
      have read := mapM_eq_ok_of_forall fun v member => Variant.ofDocument_document (named v member)
      exact bind_eq_ok_iff.mpr ⟨_, read, rfl⟩

theorem Decl.readFrom_document {d : Decl} (named : d.IsNamed) :
    ReadFrom (("kind", .str d.kind.name) :: ("name", d.name) :: bodyMember d.body ::
      closing d.header d.position) d.withoutFile where
  name := rfl
  body := ⟨.str d.kind.name, d.kind, rfl, kindNamed?_name d.kind, bodyOf_document named.body⟩
  header := by
    have closed := Header.ofMembers_closing d.header d.position
    obtain ⟨name, body, header, position⟩ := d
    cases body <;> exact closed
  position := by
    have closed := positionIn_closing d.header d.position
    obtain ⟨name, body, header, position⟩ := d
    cases body <;> exact closed
  named := named.name

theorem Decl.ofDocument_document {d : Decl} (named : d.IsNamed) :
    ofDocument d.document = .ok d.withoutFile :=
  ofDocument_eq_ok_iff.mpr ⟨_, rfl, readFrom_document named⟩

/-- A dump of declarations without blank names is read back, up to the names of files. -/
theorem declarations_of_dump {decls : List Decl} (named : ∀ d ∈ decls, d.IsNamed) :
    declarationsOfDocument (documentOfDeclarations decls) = .ok (decls.map Decl.withoutFile) :=
  mapM_eq_ok_of_forall fun d member => Decl.ofDocument_document (named d member)

/-! ## Declarations that come from a text -/

theorem Json.IsName.isNamed {name : Json} (word : name.IsName) : name.isBlank = false := by
  obtain ⟨w, rfl, letters⟩ := word
  cases w with
  | nil => cases letters
  | cons l w => rfl

theorem Field.Spelled.isNamed {f : Field} (spelled : f.Spelled) : f.IsNamed :=
  spelled.name.isNamed

theorem Variant.Spelled.isNamed {v : Variant} (spelled : v.Spelled) : v.IsNamed := by
  obtain ⟨name, payload, header, position⟩ := v
  refine ⟨spelled.name.isNamed, ?_⟩
  have inside := spelled.payload
  cases payload with
  | struct fs => exact fun f member => (inside f member).isNamed
  | _ => exact List.forall_mem_nil _

theorem Decl.Spelled.isNamed {d : Decl} (spelled : d.Spelled) : d.IsNamed := by
  obtain ⟨name, body, header, position⟩ := d
  refine ⟨spelled.name.isNamed, ?_⟩
  have inside := spelled.body
  cases body with
  | record node fs => exact fun f member => (inside f member).isNamed
  | enum vs => exact fun v member => (inside v member).isNamed

/-- Loading a dump gives back what was loaded before, and what was read from a text it gives back
without the names of files. -/
theorem declarations_reloaded :
    (∀ document decls, declarationsOfDocument document = .ok decls →
      declarationsOfDocument (documentOfDeclarations decls) = .ok decls) ∧
    ∀ text file decls, declarationsOfText text file = .ok decls →
      declarationsOfDocument (documentOfDeclarations decls) =
        .ok (decls.map Decl.withoutFile) := by
  constructor
  · intro document decls read
    have loaded := declarations_loaded read
    have same := map_eq_self_of_forall fun d member => (loaded d member).2
    rw [declarations_of_dump fun d member => (loaded d member).1, same]
  · intro text file decls read
    exact declarations_of_dump fun d member => (spelled_of_text read d member).isNamed

def looseDocument : Json :=
  let place := .obj [("line", .int 3), ("column", .int 5)]
  let number := .obj [("value", .int 2), ("line", .int 3), ("column", .int 9)]
  let items := .arr [.obj [("kind", .str "primitive"), ("name", .str "u8")]]
  .obj [("note", .null), ("types", .arr
    [.obj [("kind", .str "enum"), ("name", .str "E"), ("location", .obj []), ("variants", .arr
      [.obj [("name", .str "A")],
       .obj [("kind", .str "int"), ("name", .str "B"), ("discriminant", number),
         ("version", .obj [("rem", .int 4), ("add", number)]), ("location", place)],
       .obj [("kind", .str "tuple"), ("name", .str "C"), ("values", .arr
         [.obj [("kind", .str "tuple"), ("items", items), ("location", place)]])]])]])]

theorem declarations_reloaded_loose :
    (∃ decls, declarationsOfDocument looseDocument = .ok decls ∧
      declarationsOfDocument (documentOfDeclarations decls) = .ok decls) ∧
    ∃ decls, declarationsOfText "#[add(2)] node N { f: ref<N> }" (some "n") = .ok decls ∧
      declarationsOfDocument (documentOfDeclarations decls) =
        .ok (decls.map Decl.withoutFile) := by
  constructor
  · cases read : declarationsOfDocument looseDocument with
    | ok decls => exact ⟨decls, rfl, declarations_reloaded.1 looseDocument decls read⟩
    | error fault =>
        have loads : (declarationsOfDocument looseDocument).isOk = true := by decide +kernel
        rw [read] at loads
        cases loads
  · cases read : declarationsOfText "#[add(2)] node N { f: ref<N> }" (some "n") with
    | ok decls => exact ⟨decls, rfl, declarations_reloaded.2 _ _ decls read⟩
    | error fault =>
        have reads : (declarationsOfText "#[add(2)] node N { f: ref<N> }" (some "n")).isOk =
            true := by decide +kernel
        rw [read] at reads
        cases reads

end SchemaHistory
