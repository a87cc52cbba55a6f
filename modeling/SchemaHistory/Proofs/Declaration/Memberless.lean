import SchemaHistory.Proofs.Declaration.Loaded

/-! # Values that are asked for members in vain

Of all faults of a document `noMembers` is the one that is not turned into a message.  It arises in
three places only: where the document itself is no object, where a variant is none, and where a
version header is a text or a list that does not have the words `add` and `rem` in it.
`AsksInVain` says when reading a document comes to such a place before it meets another fault, and
`noMembers_iff` that the fault arises nowhere else. -/
set_option autoImplicit false
namespace SchemaHistory

open Document

section
variable {ε α : Type}

def FirstOf (load : Json → Except ε α) (kind : Json → Prop) (items : List Json) : Prop :=
  ∃ before item after, items = before ++ item :: after ∧
    (∀ earlier ∈ before, ∃ a, load earlier = .ok a) ∧ kind item

theorem mapM_eq_error_iff {load : Json → Except ε α} {items : List Json} {e : ε} :
    items.mapM load = .error e ↔ FirstOf load (fun item => load item = .error e) items := by
  induction items with
  | nil =>
      constructor
      · intro rejected
        cases rejected
      · rintro ⟨before, item, after, split, -⟩
        cases before <;> cases split
  | cons item rest ih =>
      rw [List.mapM_cons, bind_eq_error_iff]
      constructor
      · rintro (own | ⟨a, loaded, rejected⟩)
        · exact ⟨[], item, rest, rfl, List.forall_mem_nil _, own⟩
        · rcases bind_eq_error_iff.mp rejected with later | ⟨others, -, last⟩
          · obtain ⟨before, other, after, rfl, earlier, own⟩ := ih.mp later
            exact ⟨item :: before, other, after, rfl,
              List.forall_mem_cons.mpr ⟨⟨a, loaded⟩, earlier⟩, own⟩
          · cases last
      · rintro ⟨before, other, after, split, earlier, own⟩
        cases before with
        | nil =>
            cases split
            exact .inl own
        | cons first before =>
            cases split
            obtain ⟨⟨a, loaded⟩, earlier⟩ := List.forall_mem_cons.mp earlier
            have later := ih.mpr ⟨before, other, after, rfl, earlier, own⟩
            exact .inr ⟨a, loaded, bind_eq_error_iff.mpr (.inl later)⟩

end

/-! ## Parts that never lack members -/

/-- The reading does not come to a value that is asked for members in vain. -/
def Document.Served {α : Type} (x : Except DocumentFault α) : Prop := x ≠ .error .noMembers

namespace Document

section
variable {α β : Type} {x : Except DocumentFault α}

theorem Served.bind {f : α → Except DocumentFault β} (first : Served x)
    (second : ∀ a, Served (f a)) : Served (x >>= f) := by
  intro rejected
  rcases bind_eq_error_iff.mp rejected with own | ⟨a, -, later⟩
  · exact first own
  · exact second a later

theorem Served.map {f : α → β} (first : Served x) : Served (x.map f) :=
  fun rejected => first (map_eq_error_iff.mp rejected)

@[simp] theorem served_ok (a : α) : Served (.ok a : Except DocumentFault α) := by
  simp [Served]

@[simp] theorem served_error_iff {fault : DocumentFault} :
    Served (.error fault : Except DocumentFault α) ↔ fault ≠ .noMembers := by
  simp [Served]

theorem Served.bind_noMembers_iff {f : α → Except DocumentFault β} (first : Served x) :
    (x >>= f) = .error .noMembers ↔ ∃ a, x = .ok a ∧ f a = .error .noMembers := by
  rw [bind_eq_error_iff, or_iff_right first]

/-- In front of parts that never lack members it depends on what comes first. -/
theorem bind_noMembers_iff {f : α → Except DocumentFault β} (rest : ∀ a, Served (f a)) :
    (x >>= f) = .error .noMembers ↔ x = .error .noMembers := by
  rw [bind_eq_error_iff]
  exact or_iff_left fun ⟨a, _, rejected⟩ => rest a rejected

end

theorem served_required (name : Text) (members : Members) : Served (required name members) := by
  unfold required
  split <;> simp

theorem served_elements (value : Json) : Served (elements value) := by
  unfold elements
  split <;> simp

theorem served_listIn (name : Text) (members : Members) : Served (listIn name members) :=
  served_elements _

theorem served_place (members : Members) : Served (place members) :=
  (served_required _ _).bind fun _ => (served_required _ _).bind fun _ => served_ok _

theorem served_positionIn (members : Members) : Served (positionIn members) := by
  unfold positionIn
  split
  · simp
  · split_ifs
    · simp
    · split
      · exact (served_place _).map
      · simp

theorem served_literal (value : Json) : Served (literal value) := by
  unfold literal
  split
  · simp
  · split
    · split_ifs
      · exact (served_place _).map
      · simp
    · simp
  · simp

theorem served_optionalLiteral (name : Text) (members : Members) :
    Served (optionalLiteral name members) := by
  unfold optionalLiteral
  split
  · simp
  · exact (served_literal _).map

theorem served_checkedName {fault : DocumentFault} (other : fault ≠ .noMembers) (name : Json) :
    Served (checkedName fault name) := by
  unfold checkedName
  split_ifs
  · exact served_error_iff.mpr other
  · simp

theorem served_optionalDiscriminant (members : Members) :
    Served (Variant.optionalDiscriminant members) := by
  unfold Variant.optionalDiscriminant
  split
  · simp
  · exact (served_literal _).map

theorem served_payloadOf (name : Json) (shape : Variant.Shape) (discriminant : Option Literal)
    (types : List TypeExpr) (fields : List Field) :
    Served (Variant.payloadOf name shape discriminant types fields) := by
  unfold Variant.payloadOf
  split_ifs
  iterate 4 simp
  split <;> simp

theorem served_make (added removed : Option Literal) (position : Option Position) :
    Served (Header.make added removed position) := by
  unfold Header.make
  split <;> simp

/-! ## Type expressions -/

theorem served_inner {members : Members}
    (served : ∀ value, Json.find? "of" members = some value → Served (TypeExpr.ofDocument value)) :
    Served (match _found : Json.find? "of" members with
      | none => Except.error (DocumentFault.missing "of")
      | some inner => TypeExpr.ofDocument inner) := by
  split
  · simp
  · rename_i value found
    exact served value found

mutual

theorem served_type (value : Json) : Served (TypeExpr.ofDocument value) := by
  cases value with
  | obj members =>
      have inner := served_inner fun value (found : Json.find? "of" members = some value) =>
        have smaller := Json.sizeOf_lt_of_find? found
        served_type value
      rw [TypeExpr.ofDocument]
      refine (served_required _ _).bind fun kind => (served_positionIn _).bind fun position => ?_
      dsimp only
      -- one case for every kind of expression, in the order in which the kinds are told apart
      split
      · refine (served_required _ _).bind fun name => ?_
        split
        · split <;> simp
        · simp
      · exact (served_required _ _).bind fun _ => served_ok _
      · exact inner.bind fun _ => served_ok _
      · exact inner.bind fun _ => served_ok _
      · exact inner.bind fun _ => (served_required _ _).bind fun _ => served_ok _
      · exact inner.bind fun _ => served_ok _
      · split
        · simp
        · rename_i items found
          have smaller := Json.sizeOf_lt_of_find? found
          exact (served_types items).bind fun _ => served_ok _
        · refine (served_elements _).bind fun _ => ?_
          split_ifs <;> simp
      · simp
  | _ =>
      rw [TypeExpr.ofDocument]
      · simp
      · exact fun inner equal => by cases equal
termination_by sizeOf value
decreasing_by
  · exact smaller
  · rw [Json.arr.sizeOf_spec] at smaller
    omega

theorem served_types (values : List Json) : Served (TypeExpr.ofDocuments values) := by
  cases values with
  | nil =>
      rw [TypeExpr.ofDocuments]
      simp
  | cons value values =>
      rw [TypeExpr.ofDocuments]
      exact (served_type value).bind fun _ => (served_types values).bind fun _ => served_ok _
termination_by sizeOf values

end

theorem served_mapM_types (values : List Json) : Served (values.mapM TypeExpr.ofDocument) := by
  intro rejected
  obtain ⟨before, value, after, -, -, own⟩ := mapM_eq_error_iff.mp rejected
  exact served_type value own

end Document

/-! ## Where members are asked for in vain -/

namespace Header

/-- The member `version` is a text or a list and has none of the words in it that are looked for. -/
def Wordless (members : Members) : Prop :=
  ∃ value, Json.find? "version" members = some value ∧
    ((∃ s, value = .str s) ∨ ∃ items, value = .arr items) ∧
    mentions "add" value = false ∧ mentions "rem" value = false

theorem served_object (members : Members) : Served (ofValue (.obj members)) :=
  (served_optionalLiteral _ _).bind fun _ => (served_optionalLiteral _ _).bind fun _ =>
    (served_positionIn _).bind fun _ => (served_make _ _ _).map

theorem ofValue_noMembers_iff {value : Json} :
    ofValue value = .error .noMembers ↔
      ((∃ s, value = .str s) ∨ ∃ items, value = .arr items) ∧
        mentions "add" value = false ∧ mentions "rem" value = false := by
  cases value with
  | obj members => exact iff_of_false (served_object members) (by simp)
  | str s =>
      rw [ofValue, ← Bool.or_eq_false_iff]
      split_ifs with mentioned <;> simp [mentioned]
  | arr items =>
      rw [ofValue, ← Bool.or_eq_false_iff]
      split_ifs with mentioned <;> simp [mentioned]
  | _ => simp [ofValue]

theorem ofMembers_noMembers_iff {members : Members} :
    ofMembers members = .error .noMembers ↔ Wordless members := by
  unfold ofMembers Wordless
  cases found : Json.find? "version" members with
  | none => simp [ofValue]
  | some value => simp [ofValue_noMembers_iff]

end Header

def Field.AsksInVain (value : Json) : Prop :=
  ∃ members, value = .obj members ∧ (∃ name, required "name" members = .ok name) ∧
    (∃ t, (required "value" members >>= TypeExpr.ofDocument) = .ok t) ∧ Header.Wordless members

theorem Field.noMembers_iff {value : Json} :
    ofDocument value = .error .noMembers ↔ AsksInVain value := by
  cases value with
  | obj members =>
      have typed : Served (required "value" members >>= TypeExpr.ofDocument) :=
        (served_required _ _).bind served_type
      have made (name : Json) (type : TypeExpr) (header : Option Header)
          (position : Option Position) : Served (make name type header position) :=
        (served_checkedName DocumentFault.noConfusion name).bind fun _ => served_ok _
      have rest (name : Json) (type : TypeExpr) (header : Option Header) :
          Served (positionIn members >>= make name type header) :=
        (served_positionIn _).bind (made name type header)
      simp only [ofDocument, (served_required _ _).bind_noMembers_iff, typed.bind_noMembers_iff,
        bind_noMembers_iff (rest _ _), Header.ofMembers_noMembers_iff]
      constructor
      · rintro ⟨name, named, type, read, wordless⟩
        exact ⟨members, rfl, ⟨name, named⟩, ⟨type, read⟩, wordless⟩
      · rintro ⟨_, ⟨⟩, ⟨name, named⟩, ⟨type, read⟩, wordless⟩
        exact ⟨name, named, type, read, wordless⟩
  | _ => simp [ofDocument, AsksInVain]

/-- The variant is no object, or reading it comes to a field or to a header that asks in vain. -/
def Variant.AsksInVain (value : Json) : Prop :=
  (∀ members, value ≠ .obj members) ∨
    ∃ members, value = .obj members ∧ (∃ name, required "name" members = .ok name) ∧
      (∃ shape, Shape.named? ((Json.find? "kind" members).getD (.str "unit")) = some shape) ∧
      (∃ n, optionalDiscriminant members = .ok n) ∧
      (∃ types, (listIn "values" members >>= List.mapM TypeExpr.ofDocument) = .ok types) ∧
      ((∃ items, listIn "fields" members = .ok items ∧
          FirstOf Field.ofDocument Field.AsksInVain items) ∨
        (∃ fields, (listIn "fields" members >>= List.mapM Field.ofDocument) = .ok fields) ∧
          Header.Wordless members)

theorem fields_noMembers_iff {name : Text} {members : Members} :
    (listIn name members >>= List.mapM Field.ofDocument) = .error .noMembers ↔
      ∃ items, listIn name members = .ok items ∧
        FirstOf Field.ofDocument Field.AsksInVain items := by
  simp only [(served_listIn _ _).bind_noMembers_iff, mapM_eq_error_iff, Field.noMembers_iff]

theorem Variant.rest_noMembers_iff {members : Members} {name : Json} {shape : Shape}
    {discriminant : Option Literal} {types : List TypeExpr} :
    (do
      let fields ← listIn "fields" members >>= List.mapM Field.ofDocument
      let header ← Header.ofMembers members
      let position ← positionIn members
      let name ← checkedName .emptyVariantName name
      let payload ← payloadOf name shape discriminant types fields
      .ok (⟨name, payload, header, position⟩ : Variant)) = .error .noMembers ↔
    (∃ items, listIn "fields" members = .ok items ∧
        FirstOf Field.ofDocument Field.AsksInVain items) ∨
      (∃ fields, (listIn "fields" members >>= List.mapM Field.ofDocument) = .ok fields) ∧
        Header.Wordless members := by
  have rest (fields : List Field) (header : Option Header) : Served (do
      let position ← positionIn members
      let name ← checkedName .emptyVariantName name
      let payload ← payloadOf name shape discriminant types fields
      .ok (⟨name, payload, header, position⟩ : Variant)) :=
    (served_positionIn _).bind fun _ =>
      (served_checkedName DocumentFault.noConfusion name).bind fun name =>
        (served_payloadOf name shape discriminant types fields).bind fun _ => served_ok _
  rw [bind_eq_error_iff, fields_noMembers_iff]
  simp only [bind_noMembers_iff (rest _), Header.ofMembers_noMembers_iff, exists_and_right]

theorem Variant.noMembers_iff {value : Json} :
    ofDocument value = .error .noMembers ↔ AsksInVain value := by
  cases value with
  | obj members =>
      have typed : Served (listIn "values" members >>= List.mapM TypeExpr.ofDocument) :=
        (served_listIn _ _).bind served_mapM_types
      rw [ofDocument, (served_required _ _).bind_noMembers_iff]
      cases shaped : Shape.named? ((Json.find? "kind" members).getD (.str "unit")) with
      | none =>
          refine iff_of_false ?_ ?_
          · rintro ⟨name, -, rejected⟩
            simp only [shaped] at rejected
            cases rejected
          · rintro (noObject | ⟨_, ⟨⟩, -, ⟨shape, named⟩, -⟩)
            · exact noObject members rfl
            · cases shaped.symm.trans named
      | some shape =>
          simp only [shaped, (served_ok shape).bind_noMembers_iff,
            (served_optionalDiscriminant _).bind_noMembers_iff, typed.bind_noMembers_iff,
            rest_noMembers_iff]
          constructor
          · rintro ⟨name, named, _, -, n, discriminant, types, read, inVain⟩
            exact .inr ⟨members, rfl, ⟨name, named⟩, ⟨shape, shaped⟩, ⟨n, discriminant⟩,
              ⟨types, read⟩, inVain⟩
          · rintro (noObject |
              ⟨_, ⟨⟩, ⟨name, named⟩, -, ⟨n, discriminant⟩, ⟨types, read⟩, inVain⟩)
            · exact (noObject members rfl).elim
            · exact ⟨name, named, shape, rfl, n, discriminant, types, read, inVain⟩
  | _ => exact iff_of_true rfl (.inl fun _ equal => by cases equal)

def Body.AsksInVain (kind : Kind) (members : Members) : Prop :=
  match kind with
  | .enum => ∃ items, listIn "variants" members = .ok items ∧
      FirstOf Variant.ofDocument Variant.AsksInVain items
  | _ => ∃ items, listIn "fields" members = .ok items ∧
      FirstOf Field.ofDocument Field.AsksInVain items

def Decl.AsksInVain (value : Json) : Prop :=
  ∃ members kind, value = .obj members ∧
    (∃ word, required "kind" members = .ok word ∧ kindNamed? word = some kind) ∧
    (∃ name, required "name" members = .ok name) ∧
    (Body.AsksInVain kind members ∨
      (∃ body, bodyOf kind members = .ok body) ∧ Header.Wordless members)

theorem Decl.body_noMembers_iff {kind : Kind} {members : Members} :
    bodyOf kind members = .error .noMembers ↔ Body.AsksInVain kind members := by
  cases kind with
  | enum =>
      unfold bodyOf Body.AsksInVain
      simp only [bind_noMembers_iff fun _ => served_ok _, (served_listIn _ _).bind_noMembers_iff,
        mapM_eq_error_iff, Variant.noMembers_iff]
  | struct | node =>
      unfold bodyOf Body.AsksInVain
      rw [bind_noMembers_iff fun _ => served_ok _, fields_noMembers_iff]

theorem Decl.members_noMembers_iff {kind : Kind} {members : Members} :
    ofMembers kind members = .error .noMembers ↔
      (∃ name, required "name" members = .ok name) ∧
        (Body.AsksInVain kind members ∨
          (∃ body, bodyOf kind members = .ok body) ∧ Header.Wordless members) := by
  have rest (name : Json) (body : Body) (header : Option Header) : Served (do
      let position ← positionIn members
      let name ← checkedName .emptyTypeName name
      .ok (⟨name, body, header, position⟩ : Decl)) :=
    (served_positionIn _).bind fun _ =>
      (served_checkedName DocumentFault.noConfusion name).bind fun _ => served_ok _
  have behind (name : Json) (body : Body) : (do
      let header ← Header.ofMembers members
      let position ← positionIn members
      let name ← checkedName .emptyTypeName name
      .ok (⟨name, body, header, position⟩ : Decl)) = .error .noMembers ↔
        Header.Wordless members := by
    rw [bind_noMembers_iff (rest name body), Header.ofMembers_noMembers_iff]
  simp only [ofMembers, (served_required _ _).bind_noMembers_iff, bind_eq_error_iff (α := Body),
    body_noMembers_iff, behind, exists_and_right]

theorem Decl.noMembers_iff {value : Json} :
    ofDocument value = .error .noMembers ↔ AsksInVain value := by
  cases value with
  | obj members =>
      rw [ofDocument, (served_required _ _).bind_noMembers_iff]
      constructor
      · rintro ⟨word, given, rejected⟩
        cases named : kindNamed? word with
        | none =>
            rw [named] at rejected
            cases rejected
        | some kind =>
            rw [named] at rejected
            exact ⟨members, kind, rfl, ⟨word, given, named⟩, members_noMembers_iff.mp rejected⟩
      · rintro ⟨_, kind, ⟨⟩, ⟨word, given, named⟩, inVain⟩
        refine ⟨word, given, ?_⟩
        rw [named]
        exact members_noMembers_iff.mpr inVain
  | _ => simp [ofDocument, AsksInVain]

/-- The document is no object, or reading it comes to a declaration that asks in vain. -/
def AsksInVain (value : Json) : Prop :=
  (∀ members, value ≠ .obj members) ∨
    ∃ members items, value = .obj members ∧ listIn "types" members = .ok items ∧
      FirstOf Decl.ofDocument Decl.AsksInVain items

theorem noMembers_iff {value : Json} :
    declarationsOfDocument value = .error .noMembers ↔ AsksInVain value := by
  cases value with
  | obj members =>
      simp only [declarationsOfDocument, (served_listIn _ _).bind_noMembers_iff,
        mapM_eq_error_iff, Decl.noMembers_iff]
      constructor
      · rintro ⟨items, listed, inVain⟩
        exact .inr ⟨members, items, rfl, listed, inVain⟩
      · rintro (noObject | ⟨_, items, ⟨⟩, listed, inVain⟩)
        · exact (noObject members rfl).elim
        · exact ⟨items, listed, inVain⟩
  | _ => exact iff_of_true rfl (.inl fun _ equal => by cases equal)

end SchemaHistory
