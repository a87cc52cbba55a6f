import SchemaHistory.Proofs.Declaration.Loaded
import SchemaHistory.Proofs.Grammar.Schemas
import SchemaHistory.Proofs.Json.Numbers

/-! # Numbers in declarations

`Decl.Each` says something of all whole numbers in a declaration apart from its places: those in its
names, in the sizes of its expressions, in its discriminants and in its headers.  Loading a document
invents no numbers, neither in the declarations nor in the message of a fault
(`yields_declarations`), and the numbers in a schema text are small (`each_of_text`). -/
set_option autoImplicit false
namespace SchemaHistory

open Document Grammar

section
variable (p : Int → Prop)

inductive TypeExpr.Each : TypeExpr → Prop
  | primitive {kind : Primitive} {q : Option Position} : Each (.primitive kind q)
  | named {name : Json} {q : Option Position} (own : name.Each p) : Each (.named name q)
  | optional {t : TypeExpr} {q : Option Position} (inner : Each t) : Each (.optional t q)
  | reference {t : TypeExpr} {q : Option Position} (inner : Each t) : Each (.reference t q)
  | array {t : TypeExpr} {size : Json} {q : Option Position} (inner : Each t)
      (sized : size.Each p) : Each (.array t size q)
  | slice {t : TypeExpr} {q : Option Position} (inner : Each t) : Each (.slice t q)
  | tuple {items : List TypeExpr} {q : Option Position} (each : ∀ t ∈ items, Each t) :
      Each (.tuple items q)

structure Header.Each (h : Header) : Prop where
  added : ∀ n ∈ h.added, p n.value
  removed : ∀ n ∈ h.removed, p n.value

structure Field.Each (f : Field) : Prop where
  name : f.name.Each p
  type : f.type.Each p
  header : ∀ h ∈ f.header, h.Each p

def Payload.Each : Payload → Prop
  | .unit => True
  | .int n => p n.value
  | .tuple ts => ∀ t ∈ ts, t.Each p
  | .struct fs => ∀ f ∈ fs, f.Each p

structure Variant.Each (v : Variant) : Prop where
  name : v.name.Each p
  payload : v.payload.Each p
  header : ∀ h ∈ v.header, h.Each p

def Body.Each : Body → Prop
  | .record _ fs => ∀ f ∈ fs, f.Each p
  | .enum vs => ∀ v ∈ vs, v.Each p

structure Decl.Each (d : Decl) : Prop where
  name : d.name.Each p
  body : d.body.Each p
  header : ∀ h ∈ d.header, h.Each p

end

/-! ## Documents -/

/-- The numbers that the message of a fault shows. -/
def DocumentFault.Each (p : Int → Prop) : DocumentFault → Prop
  | .badNumber value => value.Each p
  | .unknownPrimitive name => name.Each p
  | .unknownTypeExpr kind => kind.Each p
  | .unknownVariantKind kind => kind.Each p
  | .unknownKind kind => kind.Each p
  | .discriminantMismatch variantName => variantName.Each p
  | .negativeDiscriminant value => p value
  | .typesMismatch variantName => variantName.Each p
  | .fieldsMismatch variantName => variantName.Each p
  | _ => True

namespace Document

/-- What is read is good, or else the fault shows numbers with the property only. -/
def Yields {α : Type} (p : Int → Prop) (good : α → Prop) : Except DocumentFault α → Prop
  | .ok a => good a
  | .error fault => fault.Each p

section
variable {α β : Type} {p : Int → Prop} {good : α → Prop} {other : β → Prop}
  {x : Except DocumentFault α}

theorem Yields.bind {f : α → Except DocumentFault β} (first : Yields p good x)
    (second : ∀ a, good a → Yields p other (f a)) : Yields p other (x >>= f) := by
  cases x with
  | error fault => exact first
  | ok a => exact second a first

theorem Yields.map {f : α → β} (first : Yields p good x) (keeps : ∀ a, good a → other (f a)) :
    Yields p other (x.map f) := by
  cases x with
  | error fault => exact first
  | ok a => exact keeps a first

theorem yields_mapM {γ : Type} {f : γ → Except DocumentFault α} {xs : List γ}
    (each : ∀ y ∈ xs, Yields p good (f y)) :
    Yields p (fun as => ∀ a ∈ as, good a) (xs.mapM f) := by
  induction xs with
  | nil => exact List.forall_mem_nil _
  | cons y ys ih =>
      obtain ⟨own, later⟩ := List.forall_mem_cons.mp each
      rw [List.mapM_cons]
      exact own.bind fun a first => (ih later).bind fun as rest =>
        List.forall_mem_cons.mpr ⟨first, rest⟩

end

section
variable {p : Int → Prop} {members : Members} (each : ∀ m ∈ members, m.2.Each p)

include each in
theorem each_of_find? {name : Text} {value : Json}
    (found : Json.find? name members = some value) : value.Each p :=
  each _ (Table.mem_of_find? found)

include each in
theorem each_getD (name : Text) {default : Json} (own : default.Each p) :
    ((Json.find? name members).getD default).Each p := by
  cases found : Json.find? name members with
  | none => exact own
  | some value => exact each_of_find? each found

include each in
theorem yields_required (name : Text) : Yields p (Json.Each p) (required name members) := by
  unfold required
  split
  · rename_i found
    exact each_of_find? each found
  · trivial

theorem yields_elements {value : Json} (own : value.Each p) :
    Yields p (fun items => ∀ item ∈ items, item.Each p) (elements value) := by
  unfold elements
  split
  · exact Json.each_arr.mp own
  · exact List.forall_mem_map.mpr fun m _ => .str
  · exact List.forall_mem_map.mpr fun l _ => .str
  · trivial

include each in
/-- The items of a list are loaded one by one. -/
theorem yields_listIn {α : Type} {load : Json → Except DocumentFault α} {good : α → Prop}
    (name : Text) (own : ∀ value, value.Each p → Yields p good (load value)) :
    Yields p (fun xs => ∀ x ∈ xs, good x) (listIn name members >>= List.mapM load) :=
  (yields_elements (each_getD each name (.arr (List.forall_mem_nil _)))).bind fun _ inside =>
    yields_mapM fun value member => own value (inside value member)

theorem yields_place (members : Members) : Yields p (fun _ => True) (place members) := by
  have part (name : Text) : Yields p (fun _ => True) (required name members) := by
    unfold required
    split <;> trivial
  exact (part _).bind fun _ _ => (part _).bind fun _ _ => trivial

theorem yields_positionIn (members : Members) :
    Yields p (fun _ => True) (positionIn members) := by
  unfold positionIn
  split
  · trivial
  · split
    · trivial
    · split
      · exact (yields_place _).map fun _ _ => trivial
      · trivial

theorem yields_literal {value : Json} (own : value.Each p) :
    Yields p (fun n => p n.value) (literal value) := by
  unfold literal
  split
  · exact Json.each_int.mp own
  · have inner := each_getD (Json.each_obj.mp own) "value" .null
    split
    · rename_i found
      rw [found, Json.each_int] at inner
      split
      · exact (yields_place _).map fun _ _ => inner
      · exact inner
    · exact inner
  · exact own

include each in
theorem yields_optionalLiteral (name : Text) :
    Yields p (fun n => ∀ m ∈ n, p m.value) (optionalLiteral name members) := by
  unfold optionalLiteral
  split
  · exact fun m none => nomatch none
  · rename_i found
    refine (yields_literal (each_of_find? each found)).map fun n own => ?_
    rintro _ ⟨⟩
    exact own

end
end Document

section
variable {p : Int → Prop} {members : Members}

theorem Header.yields_make {added removed : Option Literal} (position : Option Position)
    (adds : ∀ n ∈ added, p n.value) (removes : ∀ n ∈ removed, p n.value) :
    Yields p (Header.Each p) (make added removed position) := by
  cases added with
  | some n => exact ⟨adds, removes⟩
  | none =>
      cases removed with
      | some m => exact ⟨adds, removes⟩
      | none => trivial

theorem Header.yields_members (each : ∀ m ∈ members, m.2.Each p) :
    Yields p (fun h => ∀ g ∈ h, Header.Each p g) (ofMembers members) := by
  have own := each_getD each "version" .null
  unfold ofMembers ofValue
  split
  · exact fun g none => nomatch none
  · rename_i inner found
    rw [found] at own
    have inside := Json.each_obj.mp own
    refine (yields_optionalLiteral inside "add").bind fun added adds => ?_
    refine (yields_optionalLiteral inside "rem").bind fun removed removes => ?_
    refine (yields_positionIn inner).bind fun position _ => ?_
    refine (yields_make position adds removes).map fun h made => ?_
    rintro _ ⟨⟩
    exact made
  · split <;> trivial
  · split <;> trivial
  · trivial

namespace TypeExpr

mutual

/-- By induction on the document, as the expression is read from it. -/
theorem yields_document (value : Json) (each : value.Each p) :
    Yields p (TypeExpr.Each p) (ofDocument value) := by
  rw [ofDocument.eq_def]
  split
  · rename_i members
    have inside := Json.each_obj.mp each
    refine (yields_required inside "kind").bind fun kind known => ?_
    refine (yields_positionIn members).bind fun position _ => ?_
    extract_lets inner
    have inner_yields : Yields p (TypeExpr.Each p) inner := by
      unfold inner
      split
      · trivial
      · rename_i value found
        have := Json.sizeOf_lt_of_find? found
        exact yields_document value (each_of_find? inside found)
    split
    · refine (yields_required inside "name").bind fun name own => ?_
      split
      · split
        · exact .primitive
        · exact own
      · exact own
    · exact (yields_required inside "name").bind fun name own => .named own
    · exact inner_yields.bind fun t own => .optional own
    · exact inner_yields.bind fun t own => .reference own
    · exact inner_yields.bind fun t own =>
        (yields_required inside "size").bind fun size sized => .array own sized
    · exact inner_yields.bind fun t own => .slice own
    · split
      · trivial
      · rename_i items found
        have smaller : sizeOf items < sizeOf (Json.obj members) := by
          have inside := Json.sizeOf_lt_of_find? found
          rw [Json.arr.sizeOf_spec] at inside
          omega
        have own := Json.each_arr.mp (each_of_find? inside found)
        exact (yields_documents items own).bind fun ts good => .tuple good
      · rename_i found
        refine (yields_elements (each_of_find? inside found)).bind fun items _ => ?_
        split
        · exact .tuple (List.forall_mem_nil _)
        · trivial
    · exact known
  · trivial
termination_by sizeOf value

theorem yields_documents (values : List Json) (each : ∀ value ∈ values, value.Each p) :
    Yields p (fun ts => ∀ t ∈ ts, TypeExpr.Each p t) (ofDocuments values) := by
  cases values with
  | nil =>
      rw [ofDocuments]
      exact List.forall_mem_nil _
  | cons value values =>
      obtain ⟨own, others⟩ := List.forall_mem_cons.mp each
      rw [ofDocuments]
      exact (yields_document value own).bind fun t first =>
        (yields_documents values others).bind fun ts rest =>
          List.forall_mem_cons.mpr ⟨first, rest⟩
termination_by sizeOf values

end
end TypeExpr

theorem Document.yields_checkedName (fault : DocumentFault) {name : Json} (blank : fault.Each p)
    (own : name.Each p) : Yields p (Json.Each p) (checkedName fault name) := by
  unfold checkedName
  split
  · exact blank
  · exact own

theorem Field.yields_document {value : Json} (each : value.Each p) :
    Yields p (Field.Each p) (ofDocument value) := by
  unfold ofDocument
  split
  · rename_i members
    have inside := Json.each_obj.mp each
    refine (yields_required inside "name").bind fun name named => ?_
    have typed := (yields_required inside "value").bind TypeExpr.yields_document
    refine typed.bind fun type typed => ?_
    refine (Header.yields_members inside).bind fun header headed => ?_
    refine (yields_positionIn members).bind fun position _ => ?_
    have checked := yields_checkedName .emptyFieldName trivial named
    exact checked.bind fun name named => ⟨named, typed, headed⟩
  · trivial

namespace Variant

theorem yields_optionalDiscriminant (each : ∀ m ∈ members, m.2.Each p) :
    Yields p (fun n => ∀ m ∈ n, p m.value) (optionalDiscriminant members) := by
  have own := each_getD each "discriminant" .null
  unfold optionalDiscriminant
  split
  · exact fun m none => nomatch none
  · refine (yields_literal own).map fun n own => ?_
    rintro _ ⟨⟩
    exact own

theorem yields_payloadOf {name : Json} {shape : Shape} {discriminant : Option Literal}
    {types : List TypeExpr} {fields : List Field} (named : name.Each p)
    (numbered : ∀ n ∈ discriminant, p n.value) (typed : ∀ t ∈ types, t.Each p)
    (fielded : ∀ f ∈ fields, f.Each p) :
    Yields p (Payload.Each p) (payloadOf name shape discriminant types fields) := by
  unfold payloadOf
  split_ifs with misfit negative types fields
  · exact named
  · cases discriminant with
    | none => cases negative
    | some n => exact numbered n rfl
  · exact named
  · exact named
  · split
    · rename_i n
      have natural : 0 ≤ n.value := by simpa using negative
      have own := numbered n rfl
      rwa [← Int.toNat_of_nonneg natural] at own
    · exact typed
    · exact fielded
    · trivial

theorem yields_document {value : Json} (each : value.Each p) :
    Yields p (Variant.Each p) (ofDocument value) := by
  unfold ofDocument
  split
  · rename_i members
    have inside := Json.each_obj.mp each
    refine (yields_required inside "name").bind fun name named => ?_
    extract_lets kind
    have known : kind.Each p := each_getD inside "kind" .str
    split
    · rename_i shape _
      have shaped : Yields p (fun _ => True) (.ok shape) := trivial
      refine shaped.bind fun shape _ => ?_
      refine (yields_optionalDiscriminant inside).bind fun discriminant numbered => ?_
      refine (yields_listIn inside "values" TypeExpr.yields_document).bind fun types typed => ?_
      have loaded := yields_listIn inside "fields" fun _ => Field.yields_document
      refine loaded.bind fun fs fielded => ?_
      refine (Header.yields_members inside).bind fun header headed => ?_
      refine (yields_positionIn members).bind fun position _ => ?_
      have checked := yields_checkedName .emptyVariantName trivial named
      refine checked.bind fun name named => ?_
      exact (yields_payloadOf named numbered typed fielded).bind fun payload carried =>
        ⟨named, carried, headed⟩
    · exact known
  · trivial

end Variant

namespace Decl

theorem yields_bodyOf (kind : Kind) (each : ∀ m ∈ members, m.2.Each p) :
    Yields p (Body.Each p) (bodyOf kind members) := by
  cases kind with
  | enum =>
      exact (yields_listIn each "variants" fun _ => Variant.yields_document).bind fun _ own => own
  | struct =>
      exact (yields_listIn each "fields" fun _ => Field.yields_document).bind fun _ own => own
  | node =>
      exact (yields_listIn each "fields" fun _ => Field.yields_document).bind fun _ own => own

theorem yields_document {value : Json} (each : value.Each p) :
    Yields p (Decl.Each p) (ofDocument value) := by
  unfold ofDocument
  split
  · rename_i members
    have inside := Json.each_obj.mp each
    refine (yields_required inside "kind").bind fun value known => ?_
    split
    · rename_i kind _
      refine (yields_required inside "name").bind fun name named => ?_
      refine (yields_bodyOf kind inside).bind fun body bodied => ?_
      refine (Header.yields_members inside).bind fun header headed => ?_
      refine (yields_positionIn members).bind fun position _ => ?_
      have checked := yields_checkedName .emptyTypeName trivial named
      exact checked.bind fun name named => ⟨named, bodied, headed⟩
    · exact known
  · trivial

end Decl

/-- Every number of loaded declarations stands in the document, and so does every number that the
message of a fault shows. -/
theorem yields_declarations {document : Json} (each : document.Each p) :
    Yields p (fun decls => ∀ d ∈ decls, Decl.Each p d) (declarationsOfDocument document) := by
  unfold declarationsOfDocument
  split
  · exact yields_listIn (Json.each_obj.mp each) "types" fun _ => Decl.yields_document
  · trivial

end

/-! ## Texts -/

namespace Grammar

section
variable [Numerals] {p : Int → Prop}

mutual

theorem ExpressionTokens.each
    (numbers : ∀ digits, Numerals.takes digits → p (Text.digitsValue digits)) :
    (t : TypeExpr) → (ts : List Token) → ExpressionTokens ts t → t.Each p
  | .primitive _ _, _, _ => .primitive
  | .named name q, _, spelled => by
      cases spelled with
      | named _ _ _ => exact .named .str
  | .optional t q, _, spelled => by
      cases spelled with
      | optional inner => exact .optional (ExpressionTokens.each numbers t _ inner)
  | .reference t q, _, spelled => by
      cases spelled with
      | reference inner => exact .reference (ExpressionTokens.each numbers t _ inner)
  | .array t size q, _, spelled => by
      cases spelled with
      | array inner fits =>
          exact .array (ExpressionTokens.each numbers t _ inner) (.int (numbers _ fits))
  | .slice t q, _, spelled => by
      cases spelled with
      | slice inner => exact .slice (ExpressionTokens.each numbers t _ inner)
  | .tuple items q, _, spelled => by
      cases spelled with
      | tuple inner => exact .tuple (Listed.each_expressions numbers items _ inner)

theorem Listed.each_expressions
    (numbers : ∀ digits, Numerals.takes digits → p (Text.digitsValue digits)) :
    (items : List TypeExpr) → (ts : List Token) → Listed ExpressionTokens ts items →
    ∀ t ∈ items, t.Each p
  | [], _, _ => List.forall_mem_nil _
  | t :: items, _, listed => by
      cases listed with
      | last first => exact List.forall_mem_singleton.mpr (ExpressionTokens.each numbers t _ first)
      | more first rest =>
          exact List.forall_mem_cons.mpr
            ⟨ExpressionTokens.each numbers t _ first, Listed.each_expressions numbers items _ rest⟩

end

variable {ts : List Token}
  (numbers : ∀ digits, Numerals.takes digits → p (Text.digitsValue digits))
include numbers

theorem SpecifierTokens.each {keyword : Text} {n : Literal}
    (spelled : SpecifierTokens keyword ts n) : p n.value := by
  cases spelled with
  | mk fits => exact numbers _ fits

theorem HeadedTokens.each {header : Option Header} (headed : HeadedTokens ts header) :
    ∀ h ∈ header, h.Each p := by
  cases headed with
  | none => exact fun h none => nomatch none
  | some own =>
      rintro _ ⟨⟩
      cases own with
      | add added => exact ⟨by rintro _ ⟨⟩; exact added.each numbers, by rintro _ ⟨⟩⟩
      | rem removed => exact ⟨by rintro _ ⟨⟩, by rintro _ ⟨⟩; exact removed.each numbers⟩
      | both added removed =>
          exact ⟨by rintro _ ⟨⟩; exact added.each numbers,
            by rintro _ ⟨⟩; exact removed.each numbers⟩

theorem FieldTokens.each {f : Field} (tokens : FieldTokens ts f) : f.Each p := by
  cases tokens with
  | mk headed type =>
      exact ⟨.str, ExpressionTokens.each numbers _ _ type, headed.each numbers⟩

theorem PayloadTokens.each {payload : Payload} (tokens : PayloadTokens ts payload) :
    payload.Each p := by
  cases tokens with
  | unit => trivial
  | int fits => exact numbers _ fits
  | tuple inner => exact Listed.each_expressions numbers _ _ inner
  | struct inner => exact inner.forall fun _ _ _ own => own.each numbers

theorem VariantTokens.each {v : Variant} (tokens : VariantTokens ts v) : v.Each p := by
  cases tokens with
  | mk headed carried => exact ⟨.str, carried.each numbers, headed.each numbers⟩

theorem BodyTokens.each {kind : Kind} {body : Body} (tokens : BodyTokens kind ts body) :
    body.Each p := by
  cases tokens with
  | struct fields => exact fields.forall fun _ _ _ own => own.each numbers
  | node fields => exact fields.forall fun _ _ _ own => own.each numbers
  | enum variants => exact variants.forall fun _ _ _ own => own.each numbers

theorem SchemaTokens.each {ds : List Decl} (tokens : SchemaTokens ts ds) :
    ∀ d ∈ ds, d.Each p := by
  induction tokens with
  | nil => exact List.forall_mem_nil _
  | cons first rest ih =>
      cases first with
      | mk headed members =>
          exact List.forall_mem_cons.mpr
            ⟨⟨.str, members.each numbers, headed.each numbers⟩, ih⟩

end
end Grammar

/-- No number of declarations that are read from a text exceeds the greatest one. -/
theorem each_of_text {text : Text} {file : Option Text} {decls : List Decl} {p : Int → Prop}
    (small : ∀ n : Nat, n ≤ Reading.greatestNumber → p n)
    (read : declarationsOfText text file = .ok decls) : ∀ d ∈ decls, d.Each p :=
  SchemaTokens.each (fun digits (fits : Fits digits) => small _ fits.2) (schemaTokens_of_text read)

end SchemaHistory
