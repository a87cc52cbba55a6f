import SchemaHistory.Proofs.Excerpt.Basic
import SchemaHistory.Proofs.Grammar.Printed
import SchemaHistory.Proofs.Grammar.Schemas

/-! # Declarations that a text spells

All names in a schema that was read from a text are names of the language, and its expressions can
be spelled (`spelled_of_text`), since the words among the tokens are names.  Excerpts of such a
schema are spelled, too. -/
set_option autoImplicit false
namespace SchemaHistory

open Grammar

def Json.IsName (name : Json) : Prop := ∃ w, name = .str w ∧ Scan.isName w = true

structure Field.Spelled (f : Field) : Prop where
  name : f.name.IsName
  type : f.type.Spelled

def Payload.Spelled : Payload → Prop
  | .unit => True
  | .int _ => True
  | .tuple ts => ∀ t ∈ ts, t.Spelled
  | .struct fs => ∀ f ∈ fs, f.Spelled

structure Variant.Spelled (v : Variant) : Prop where
  name : v.name.IsName
  payload : v.payload.Spelled

def Body.Spelled : Body → Prop
  | .record _ fs => ∀ f ∈ fs, f.Spelled
  | .enum vs => ∀ v ∈ vs, v.Spelled

structure Decl.Spelled (d : Decl) : Prop where
  name : d.name.IsName
  body : d.body.Spelled

/-! ## What tokens spell -/

namespace Grammar

def HasNames (ts : List Token) : Prop := ∀ w p, ⟨.word w, p⟩ ∈ ts → Scan.isName w = true

section
variable {ts us : List Token} {token : Token}

theorem hasNames_append : HasNames (ts ++ us) ↔ HasNames ts ∧ HasNames us := by
  constructor
  · intro names
    exact ⟨fun w p member => names w p (List.mem_append_left _ member),
      fun w p member => names w p (List.mem_append_right _ member)⟩
  · intro names w p member
    rcases List.mem_append.mp member with left | right
    · exact names.1 w p left
    · exact names.2 w p right

theorem HasNames.tail (names : HasNames (token :: ts)) : HasNames ts :=
  fun w p member => names w p (List.mem_cons_of_mem _ member)

theorem HasNames.mono (within : us <:+: ts) (names : HasNames ts) : HasNames us :=
  fun w p member => names w p (within.subset member)

mutual

theorem ExpressionTokens.spelled : (t : TypeExpr) → (ts : List Token) → HasNames ts →
    ExpressionTokens ts t → t.Spelled
  | .primitive _ _, _, _, _ => .primitive
  | .named name p, ts, names, spelled => by
      cases spelled with
      | named notRef notOpt notPrimitive =>
          exact .named (names _ _ List.mem_cons_self) notRef notOpt notPrimitive
  | .optional t p, ts, names, spelled => by
      cases spelled with
      | optional inner =>
          have own := (hasNames_append.mp names.tail.tail).1
          exact .optional (ExpressionTokens.spelled t _ own inner)
  | .reference t p, ts, names, spelled => by
      cases spelled with
      | reference inner =>
          have own := (hasNames_append.mp names.tail.tail).1
          exact .reference (ExpressionTokens.spelled t _ own inner)
  | .array t size p, ts, names, spelled => by
      cases spelled with
      | array inner fits =>
          have own := (hasNames_append.mp names.tail).1
          exact .array (ExpressionTokens.spelled t _ own inner) fits.2
  | .slice t p, ts, names, spelled => by
      cases spelled with
      | slice inner =>
          have own := (hasNames_append.mp names.tail).1
          exact .slice (ExpressionTokens.spelled t _ own inner)
  | .tuple items p, ts, names, spelled => by
      cases spelled with
      | tuple inner =>
          have own := (hasNames_append.mp names.tail).1
          exact .tuple (Listed.expressions items _ own inner)

theorem Listed.expressions : (items : List TypeExpr) → (ts : List Token) → HasNames ts →
    Listed ExpressionTokens ts items → ∀ item ∈ items, item.Spelled
  | [], _, _, _ => fun item member => nomatch member
  | t :: items, ts, names, listed => by
      cases listed with
      | last first => exact List.forall_mem_singleton.mpr (ExpressionTokens.spelled t _ names first)
      | more first rest =>
          obtain ⟨own, others⟩ := hasNames_append.mp names
          have later := Listed.expressions items _ others.tail rest
          exact List.forall_mem_cons.mpr ⟨ExpressionTokens.spelled t _ own first, later⟩

end

theorem FieldTokens.spelled {f : Field} (names : HasNames ts) (tokens : FieldTokens ts f) :
    f.Spelled := by
  cases tokens with
  | mk headed type =>
      have own := (hasNames_append.mp names).2
      exact ⟨⟨_, rfl, own _ _ List.mem_cons_self⟩, ExpressionTokens.spelled _ _ own.tail.tail type⟩

theorem Listed.fields {fs : List Field} (names : HasNames ts) (listed : Listed FieldTokens ts fs) :
    ∀ f ∈ fs, f.Spelled :=
  listed.forall fun _ _ within tokens => tokens.spelled (names.mono within)

theorem PayloadTokens.spelled {payload : Payload} (names : HasNames ts)
    (tokens : PayloadTokens ts payload) : payload.Spelled := by
  cases tokens with
  | unit => trivial
  | int fits => trivial
  | tuple inner =>
      have own := (hasNames_append.mp names.tail).1
      exact Listed.expressions _ _ own inner
  | struct inner => exact inner.fields (hasNames_append.mp names.tail).1

theorem VariantTokens.spelled {v : Variant} (names : HasNames ts) (tokens : VariantTokens ts v) :
    v.Spelled := by
  cases tokens with
  | mk headed carried =>
      have own := (hasNames_append.mp names).2
      exact ⟨⟨_, rfl, own _ _ List.mem_cons_self⟩, carried.spelled own.tail⟩

theorem BodyTokens.spelled {kind : Kind} {body : Body} (names : HasNames ts)
    (tokens : BodyTokens kind ts body) : body.Spelled := by
  cases tokens with
  | struct fields => exact fields.fields names
  | node fields => exact fields.fields names
  | enum variants =>
      exact variants.forall fun _ _ within tokens => tokens.spelled (names.mono within)

theorem DeclTokens.spelled {d : Decl} (names : HasNames ts) (tokens : DeclTokens ts d) :
    d.Spelled := by
  cases tokens with
  | mk headed members =>
      have own := (hasNames_append.mp names).2.tail
      have inner := (hasNames_append.mp own.tail.tail).1
      exact ⟨⟨_, rfl, own _ _ List.mem_cons_self⟩, members.spelled inner⟩

theorem SchemaTokens.spelled {ds : List Decl} (names : HasNames ts) (tokens : SchemaTokens ts ds) :
    ∀ d ∈ ds, d.Spelled := by
  induction tokens with
  | nil => exact fun d member => nomatch member
  | cons first rest ih =>
      obtain ⟨own, others⟩ := hasNames_append.mp names
      exact List.forall_mem_cons.mpr ⟨first.spelled own, ih others⟩

end
end Grammar

/-- What is read from a text is spelled. -/
theorem spelled_of_text {text : Text} {file : Option Text} {decls : List Decl}
    (read : declarationsOfText text file = .ok decls) : ∀ d ∈ decls, d.Spelled := by
  have names : HasNames (scan text file).tokens := fun w p => Scan.isName_of_mem
  exact (schemaTokens_of_text read).spelled names

/-! ## Excerpts -/

section
variable {version : Int} {l : Lifetime}

theorem Field.spelled_excerpts {fs : List Field} (spelled : ∀ f ∈ fs, f.Spelled) :
    ∀ f ∈ Field.excerpts version l fs, f.Spelled := by
  intro f member
  obtain ⟨g, inside, -, rfl⟩ := Field.mem_excerpts.mp member
  exact ⟨(spelled g inside).name, (spelled g inside).type⟩

theorem Variant.Spelled.excerpt {v : Variant} (spelled : v.Spelled) :
    (v.excerpt version l).Spelled := by
  refine ⟨spelled.name, ?_⟩
  have carried := spelled.payload
  obtain ⟨name, payload, header, position⟩ := v
  cases payload with
  | struct fs => exact Field.spelled_excerpts carried
  | unit => trivial
  | int discriminant => trivial
  | tuple ts => exact carried

theorem Decl.Spelled.excerpt {d : Decl} (spelled : d.Spelled) : (d.excerpt version).Spelled := by
  refine ⟨spelled.name, ?_⟩
  have members := spelled.body
  obtain ⟨name, body, header, position⟩ := d
  cases body with
  | record node fs => exact Field.spelled_excerpts members
  | enum vs =>
      intro v member
      obtain ⟨w, inside, -, rfl⟩ := Variant.mem_excerpts.mp member
      exact (members w inside).excerpt

theorem spelled_excerpt {decls : List Decl} (spelled : ∀ d ∈ decls, d.Spelled) :
    ∀ d ∈ excerpt version decls, d.Spelled := by
  intro d member
  obtain ⟨e, inside, -, rfl⟩ := mem_excerpt.mp member
  exact (spelled e inside).excerpt

end
end SchemaHistory
