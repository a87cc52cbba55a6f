import SchemaHistory.Proofs.Compiled.Coherence
import SchemaHistory.Proofs.Grammar.Spelled

/-! # The tokens of the parts of a schema

The tokens that spell a part stand in a row among the tokens that spell the whole (`Contains`).  So
every declaration, every member, every header with its versions and every expression inside of
another one has its own tokens in the text, and the place of the part is that of one of them. -/
set_option autoImplicit false
namespace SchemaHistory

namespace Grammar

/-- Among the tokens stand, in a row, those that spell the part. -/
def Contains {α : Type} (ts : List Token) (part : List Token → α → Prop) (x : α) : Prop :=
  ∃ us, us <:+: ts ∧ part us x

section
variable {α : Type} {part : List Token → α → Prop} {x : α} {ts us : List Token}

theorem contains_self (own : part ts x) : Contains ts part x := ⟨ts, List.infix_refl ts, own⟩

theorem Contains.mono (within : us <:+: ts) (contains : Contains us part x) :
    Contains ts part x := by
  obtain ⟨vs, inside, own⟩ := contains
  exact ⟨vs, inside.trans within, own⟩

/-- The tokens of a part of a part. -/
theorem Contains.trans {β : Type} {other : List Token → β → Prop} {y : β}
    (contains : Contains ts part x) (deeper : ∀ us, part us x → Contains us other y) :
    Contains ts other y := by
  obtain ⟨us, within, own⟩ := contains
  exact (deeper us own).mono within

theorem infix_enclosed (front back : List Token) : us <:+: front ++ (us ++ back) :=
  (List.prefix_append us back).isInfix.trans (List.suffix_append _ _).isInfix

theorem Listed.contains {xs : List α} (listed : Listed part ts xs) (member : x ∈ xs) :
    Contains ts part x := by
  have each : ∀ y ∈ xs, Contains ts part y :=
    listed.forall fun us _ within own => ⟨us, within, own⟩
  exact each x member

theorem SchemaTokens.contains {ds : List Decl} {d : Decl} (tokens : SchemaTokens ts ds)
    (member : d ∈ ds) : Contains ts DeclTokens d := by
  induction tokens with
  | nil => cases member
  | cons first rest ih =>
      rcases List.mem_cons.mp member with rfl | later
      · exact (contains_self first).mono (infix_enclosed [] _)
      · exact (ih later).mono (List.suffix_append _ _).isInfix

end

/-! ## Expressions -/

section
variable {ts us : List Token}

/-- The first token of an expression stands at its place. -/
theorem ExpressionTokens.head {t : TypeExpr} (spelled : ExpressionTokens ts t) :
    ∃ lexeme p rest, ts = ⟨lexeme, p⟩ :: rest ∧ t.position = some p := by
  cases spelled <;> exact ⟨_, _, _, rfl, rfl⟩

theorem contains_occurrences {t : TypeExpr} (mark : Bool) (within : us <:+: ts)
    (own : ExpressionTokens us t) (deeper : ∀ o ∈ t.inside, Contains us ExpressionTokens o.2) :
    ∀ o ∈ (mark, t) :: t.inside, Contains ts ExpressionTokens o.2 :=
  List.forall_mem_cons.mpr ⟨⟨us, within, own⟩, fun o member => (deeper o member).mono within⟩

mutual

theorem ExpressionTokens.inside : (t : TypeExpr) → (ts : List Token) → ExpressionTokens ts t →
    ∀ o ∈ t.inside, Contains ts ExpressionTokens o.2
  | .primitive _ _, _, _ => fun o member => nomatch member
  | .named _ _, _, _ => fun o member => nomatch member
  | .optional t p, _, spelled => by
      cases spelled with
      | optional inner =>
          exact contains_occurrences _ (infix_enclosed [_, _] [_]) inner
            (ExpressionTokens.inside t _ inner)
  | .reference t p, _, spelled => by
      cases spelled with
      | reference inner =>
          exact contains_occurrences _ (infix_enclosed [_, _] [_]) inner
            (ExpressionTokens.inside t _ inner)
  | .array t size p, _, spelled => by
      cases spelled with
      | array inner fits =>
          exact contains_occurrences _ (infix_enclosed [_] [_, _, _]) inner
            (ExpressionTokens.inside t _ inner)
  | .slice t p, _, spelled => by
      cases spelled with
      | slice inner =>
          exact contains_occurrences _ (infix_enclosed [_] [_]) inner
            (ExpressionTokens.inside t _ inner)
  | .tuple items p, _, spelled => by
      cases spelled with
      | tuple inner =>
          exact fun o member =>
            (Listed.insideAll items _ inner o member).mono (infix_enclosed [_] [_])

theorem Listed.insideAll : (items : List TypeExpr) → (ts : List Token) →
    Listed ExpressionTokens ts items →
    ∀ o ∈ TypeExpr.insideAll items, Contains ts ExpressionTokens o.2
  | [], _, _ => fun o member => nomatch member
  | t :: items, _, listed => by
      cases listed with
      | last first =>
          have own := contains_occurrences false (List.infix_refl _) first
            (ExpressionTokens.inside t _ first)
          exact List.forall_mem_append.mpr ⟨own, fun o member => nomatch member⟩
      | @more us vs a others p first rest =>
          have own := contains_occurrences false
            (infix_enclosed [] (⟨.symbol ',', p⟩ :: vs)) first (ExpressionTokens.inside t _ first)
          have behind : vs <:+: us ++ ⟨.symbol ',', p⟩ :: vs :=
            ((List.suffix_cons _ vs).trans (List.suffix_append _ _)).isInfix
          exact List.forall_mem_append.mpr
            ⟨own, fun o member => (Listed.insideAll items _ rest o member).mono behind⟩

end

theorem ExpressionTokens.occurrences {t : TypeExpr} (spelled : ExpressionTokens ts t) :
    ∀ o ∈ t.occurrences, Contains ts ExpressionTokens o.2 :=
  contains_occurrences false (List.infix_refl ts) spelled (ExpressionTokens.inside t ts spelled)

/-! ## Headers -/

theorem HeaderTokens.added {h : Header} {n : Literal} (spelled : HeaderTokens ts h)
    (member : h.added = some n) : Contains ts (SpecifierTokens "add") n := by
  cases spelled with
  | add added =>
      cases member
      exact (contains_self added).mono (infix_enclosed [_, _] [_])
  | rem removed => cases member
  | both added removed =>
      cases member
      exact (contains_self added).mono (infix_enclosed [_, _] _)

theorem HeaderTokens.removed {h : Header} {n : Literal} (spelled : HeaderTokens ts h)
    (member : h.removed = some n) : Contains ts (SpecifierTokens "rem") n := by
  cases spelled with
  | add added => cases member
  | rem removed =>
      cases member
      exact (contains_self removed).mono (infix_enclosed [_, _] [_])
  | @both p q r s ts us n m added removed =>
      cases member
      have behind : us <:+: _ := infix_enclosed (⟨.symbol '#', p⟩ :: ⟨.symbol '[', q⟩ ::
        (ts ++ [⟨.symbol ',', r⟩])) [⟨.symbol ']', s⟩]
      simp only [List.cons_append, List.append_assoc, List.nil_append] at behind
      exact (contains_self removed).mono behind

theorem HeadedTokens.header {header : Option Header} {h : Header}
    (headed : HeadedTokens ts header) (own : header = Option.some h) : HeaderTokens ts h := by
  cases headed with
  | none => cases own
  | some spelled =>
      cases own
      exact spelled

/-! ## Fields -/

theorem FieldTokens.header {f : Field} {h : Header} (spelled : FieldTokens ts f)
    (own : f.header = some h) : Contains ts HeaderTokens h := by
  cases spelled with
  | mk headed type => exact (contains_self (headed.header own)).mono (infix_enclosed [] _)

theorem FieldTokens.name {f : Field} (spelled : FieldTokens ts f) :
    ∃ w p, f.name = .str w ∧ f.position = some p ∧ ⟨.word w, p⟩ ∈ ts := by
  cases spelled with
  | mk headed type => exact ⟨_, _, rfl, rfl, List.mem_append_right _ List.mem_cons_self⟩

theorem FieldTokens.type {f : Field} (spelled : FieldTokens ts f) :
    Contains ts ExpressionTokens f.type := by
  cases spelled with
  | mk headed type =>
      exact (contains_self type).mono (((List.suffix_cons _ _).trans (List.suffix_cons _ _)).trans
        (List.suffix_append _ _)).isInfix

/-! ## Variants -/

theorem VariantTokens.header {v : Variant} {h : Header} (spelled : VariantTokens ts v)
    (own : v.header = some h) : Contains ts HeaderTokens h := by
  cases spelled with
  | mk headed carried => exact (contains_self (headed.header own)).mono (infix_enclosed [] _)

theorem VariantTokens.name {v : Variant} (spelled : VariantTokens ts v) :
    ∃ w p, v.name = .str w ∧ v.position = some p ∧ ⟨.word w, p⟩ ∈ ts := by
  cases spelled with
  | mk headed carried => exact ⟨_, _, rfl, rfl, List.mem_append_right _ List.mem_cons_self⟩

theorem VariantTokens.payload {v : Variant} (spelled : VariantTokens ts v) :
    Contains ts PayloadTokens v.payload := by
  cases spelled with
  | mk headed carried =>
      exact (contains_self carried).mono
        ((List.suffix_cons _ _).trans (List.suffix_append _ _)).isInfix

theorem PayloadTokens.field {payload : Payload} {f : Field} (spelled : PayloadTokens ts payload)
    (member : f ∈ payload.fields) : Contains ts FieldTokens f := by
  cases spelled with
  | struct inner => exact (inner.contains member).mono (infix_enclosed [_] [_])
  | _ => cases member

theorem VariantTokens.field {v : Variant} {f : Field} (spelled : VariantTokens ts v)
    (member : f ∈ v.payload.fields) : Contains ts FieldTokens f :=
  spelled.payload.trans fun _ own => own.field member

theorem VariantTokens.expression {v : Variant} {t : TypeExpr} (spelled : VariantTokens ts v)
    (member : t ∈ v.expressions) : Contains ts ExpressionTokens t := by
  have carried := spelled.payload
  unfold Variant.expressions at member
  split at member
  · rename_i types payload
    rw [payload] at carried
    refine carried.trans fun us own => ?_
    cases own with
    | tuple inner => exact (inner.contains member).mono (infix_enclosed [_] [_])
  · rename_i fs payload
    obtain ⟨f, inside, rfl⟩ := List.mem_map.mp member
    have field : f ∈ v.payload.fields := by
      rw [payload]
      exact inside
    exact (spelled.field field).trans fun _ own => own.type
  · cases member

/-! ## Types -/

theorem BodyTokens.field {kind : Kind} {node : Bool} {fs : List Field} {f : Field}
    (spelled : BodyTokens kind ts (.record node fs)) (member : f ∈ fs) :
    Contains ts FieldTokens f := by
  cases spelled with
  | struct fields => exact fields.contains member
  | node fields => exact fields.contains member

theorem DeclTokens.header {d : Decl} {h : Header} (spelled : DeclTokens ts d)
    (own : d.header = some h) : Contains ts HeaderTokens h := by
  cases spelled with
  | mk headed members => exact (contains_self (headed.header own)).mono (infix_enclosed [] _)

theorem DeclTokens.name {d : Decl} (spelled : DeclTokens ts d) :
    ∃ w p, d.name = .str w ∧ d.position = some p ∧ ⟨.word w, p⟩ ∈ ts := by
  cases spelled with
  | mk headed members =>
      exact ⟨_, _, rfl, rfl,
        List.mem_append_right _ (List.mem_cons_of_mem _ List.mem_cons_self)⟩

theorem DeclTokens.body {d : Decl} (spelled : DeclTokens ts d) :
    ∃ kind, Contains ts (BodyTokens kind) d.body := by
  cases spelled with
  | @mk hs us header kind name body p q r s headed members =>
      have behind : us <:+: _ := infix_enclosed (hs ++ [⟨.word kind.name, p⟩, ⟨.word name, q⟩,
        ⟨.symbol '\x7b', r⟩]) [⟨.symbol '\x7d', s⟩]
      simp only [List.cons_append, List.append_assoc, List.nil_append] at behind
      exact ⟨kind, (contains_self members).mono behind⟩

theorem DeclTokens.field {d : Decl} {f : Field} (spelled : DeclTokens ts d)
    (member : f ∈ d.fields) : Contains ts FieldTokens f := by
  obtain ⟨kind, body⟩ := spelled.body
  obtain ⟨name, own, header, position⟩ := d
  cases own with
  | record node fs => exact body.trans fun _ own => own.field member
  | enum vs => cases member

theorem DeclTokens.variant {d : Decl} {v : Variant} (spelled : DeclTokens ts d)
    (member : v ∈ d.variants) : Contains ts VariantTokens v := by
  obtain ⟨kind, body⟩ := spelled.body
  obtain ⟨name, own, header, position⟩ := d
  cases own with
  | record node fs => cases member
  | enum vs =>
      refine body.trans fun us own => ?_
      cases own with
      | enum variants => exact variants.contains member

theorem DeclTokens.expression {d : Decl} {t : TypeExpr} (spelled : DeclTokens ts d)
    (member : t ∈ d.expressions) : Contains ts ExpressionTokens t := by
  rcases List.mem_append.mp member with field | variant
  · obtain ⟨f, inside, rfl⟩ := List.mem_map.mp field
    exact (spelled.field inside).trans fun _ own => own.type
  · obtain ⟨v, inside, carried⟩ := List.mem_flatMap.mp variant
    exact (spelled.variant inside).trans fun _ own => own.expression carried

/-! ## Schemas -/

section
variable {ds : List Decl} {d : Decl} (spelled : SchemaTokens ts ds)
include spelled

theorem SchemaTokens.field {f : Field} (declared : d ∈ ds) (member : f ∈ d.fields) :
    Contains ts FieldTokens f :=
  (spelled.contains declared).trans fun _ own => own.field member

theorem SchemaTokens.variant {v : Variant} (declared : d ∈ ds) (member : v ∈ d.variants) :
    Contains ts VariantTokens v :=
  (spelled.contains declared).trans fun _ own => own.variant member

theorem SchemaTokens.occurrence {t : TypeExpr} {o : Bool × TypeExpr} (declared : d ∈ ds)
    (member : t ∈ d.expressions) (occurs : o ∈ t.occurrences) :
    Contains ts ExpressionTokens o.2 := by
  have expression := (spelled.contains declared).trans fun _ own => own.expression member
  exact expression.trans fun _ own => own.occurrences o occurs

theorem SchemaTokens.header {item : Item} {h : Header} (member : item ∈ items ds)
    (own : item.header = some h) : Contains ts HeaderTokens h := by
  have all : ∀ item ∈ items ds, ∀ h, item.header = some h → Contains ts HeaderTokens h := by
    rw [forall_items_iff (P := fun header _ => ∀ h, header = some h → Contains ts HeaderTokens h)]
    intro d declared
    refine ⟨fun h own => (spelled.contains declared).trans fun _ tokens => tokens.header own,
      fun f inside h own => (spelled.field declared inside).trans fun _ tokens => tokens.header own,
      fun v inside => ⟨fun h own => ?_, fun f within h own => ?_⟩⟩
    · exact (spelled.variant declared inside).trans fun _ tokens => tokens.header own
    · have field := (spelled.variant declared inside).trans fun _ tokens => tokens.field within
      exact field.trans fun _ tokens => tokens.header own
  exact all item member h own

end
end
end Grammar

/-! ## Names -/

theorem Json.IsName.isText {name : Json} (isName : name.IsName) : name.isText = true := by
  obtain ⟨w, rfl, -⟩ := isName
  rfl

theorem TypeExpr.Spelled.hasTextNames {t : TypeExpr} (spelled : t.Spelled) : t.HasTextNames := by
  induction spelled with
  | primitive => exact nofun
  | named => exact List.forall_mem_singleton.mpr rfl
  | optional inner ih => exact ih
  | reference inner ih => exact ih
  | array inner fits ih => exact ih
  | slice inner ih => exact ih
  | @tuple items p inner ih =>
      intro name member
      rw [names, namesOfAll_eq_flatMap] at member
      obtain ⟨item, inside, used⟩ := List.mem_flatMap.mp member
      exact ih item inside name used

theorem Payload.Spelled.fields {payload : Payload} (spelled : payload.Spelled) :
    ∀ f ∈ payload.fields, f.Spelled := by
  cases payload with
  | struct fs => exact spelled
  | _ => exact List.forall_mem_nil _

theorem Variant.Spelled.expressions {v : Variant} (spelled : v.Spelled) :
    ∀ t ∈ v.expressions, t.Spelled := by
  have carried := spelled.payload
  obtain ⟨name, payload, header, position⟩ := v
  cases payload with
  | tuple types => exact carried
  | struct fs => exact List.forall_mem_map.mpr fun f member => (carried f member).type
  | _ => exact List.forall_mem_nil _

theorem Body.Spelled.fields {d : Decl} (spelled : d.body.Spelled) : ∀ f ∈ d.fields, f.Spelled := by
  obtain ⟨name, body, header, position⟩ := d
  cases body with
  | record node fs => exact spelled
  | enum vs => exact List.forall_mem_nil _

theorem Body.Spelled.variants {d : Decl} (spelled : d.body.Spelled) :
    ∀ v ∈ d.variants, v.Spelled := by
  obtain ⟨name, body, header, position⟩ := d
  cases body with
  | record node fs => exact List.forall_mem_nil _
  | enum vs => exact spelled

theorem Decl.Spelled.hasTextNames {d : Decl} (spelled : d.Spelled) : d.HasTextNames where
  own := spelled.name.isText
  fields f member := (spelled.body.fields f member).name.isText
  variants v member := (spelled.body.variants v member).name.isText
  inner v member f inside :=
    ((spelled.body.variants v member).payload.fields f inside).name.isText
  used := by
    have fields := spelled.body.fields
    have variants := spelled.body.variants
    refine List.forall_mem_append.mpr ⟨List.forall_mem_map.mpr fun f member => ?_, ?_⟩
    · exact (fields f member).type.hasTextNames
    · intro t member
      obtain ⟨v, inside, carried⟩ := List.mem_flatMap.mp member
      exact ((variants v inside).expressions t carried).hasTextNames

/-- In a schema that was read from a text all names are texts. -/
theorem hasTextNames_of_text {text : Text} {file : Option Text} {decls : List Decl}
    (read : declarationsOfText text file = .ok decls) : HasTextNames decls :=
  fun d member => (spelled_of_text read d member).hasTextNames

end SchemaHistory
