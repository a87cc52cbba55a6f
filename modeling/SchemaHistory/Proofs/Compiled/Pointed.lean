import SchemaHistory.Proofs.Faults.FactOrigins
import SchemaHistory.Proofs.Grammar.Infixes
import SchemaHistory.Proofs.Grammar.Refusals
import SchemaHistory.Proofs.Source.Standing

/-! # Diagnostics of a text point at its tokens

A text is refused at one of its tokens, at a letter that starts none, or at its end (`RefusedAt`).
Where the declarations of a text are rejected, the diagnostic has the position of the token it is
about: `PointsAt` says for every category which token that is.  The origins of the diagnostics name
a part of the schema, the part has its tokens in the text, and its place is that of one of them. -/
set_option autoImplicit false
namespace SchemaHistory

open Grammar

/-! ## Tokens of a text -/

/-- The token stands in the text where its position says, and no other token has this position. -/
structure Token.IsIn (text : Text) (file : Option Text) (token : Token) : Prop where
  scanned : token ∈ (scan text file).tokens
  stands : StandsAt file text token.lexeme.text token.position
  alone : ∀ other ∈ (scan text file).tokens, other.position = token.position → other = token

theorem Token.isIn_of_mem {text : Text} {file : Option Text} {token : Token}
    (scanned : token ∈ (scan text file).tokens) : token.IsIn text file :=
  ⟨scanned, Scan.stands_of_mem scanned,
    fun _ member same => Scan.eq_of_position_eq member scanned same⟩

def Token.IsWord (token : Token) (w : Text) (place : Option Position) : Prop :=
  token.lexeme = .word w ∧ place = some token.position

def Token.IsNumber (token : Token) (value : Int) (place : Option Position) : Prop :=
  ∃ digits, token.lexeme = .number digits ∧ value = Text.digitsValue digits ∧
    place = some token.position

/-! ## What a diagnostic points at -/

inductive RefusedAt (text : Text) (file : Option Text) : Cause → Position → Prop
  | letter {l : Letter} {p : Position} (stands : StandsAt file text [l] p) :
      RefusedAt text file (.text (.unexpectedCharacter l)) p
  | token {token : Token} {cause : Cause} (real : token.IsIn text file) :
      RefusedAt text file cause token.position
  | finish {cause : Cause} : RefusedAt text file cause ((Cursor.start.afterAll text).position file)

section
variable (tokens : List Token) (decls : List Decl) (token : Token)

/-- Among the tokens stand, in a row, those that spell the part, and the token is one of these. -/
def SpelledWith {α : Type} (part : List Token → α → Prop) (x : α) : Prop :=
  Contains tokens (fun us y => part us y ∧ token ∈ us) x

/-- The token is a version in a header, and the version is rejected for the cause. -/
def AtVersion (limit : Int) (cause : Cause) : Prop :=
  ∃ item ∈ items decls, ∃ h keyword n, item.header = some h ∧
    h.Faulty limit item.container keyword n cause ∧
    SpelledWith tokens token (SpecifierTokens keyword) n ∧ token.IsNumber n.value n.position

/-- The token is the name of an item, and an earlier sibling of the item is in its way. -/
inductive AtLaterName (w : Text) : Prop
  | type {d : Decl} (earlier : HasEarlier Decl.clashes decls d)
      (inside : SpelledWith tokens token DeclTokens d) (own : d.name = .str w)
      (name : token.IsWord w d.position)
  | field {container : Lifetime} {fs : List Field} {f : Field}
      (fields : FieldsOf decls container fs) (earlier : HasEarlier (Field.clashes container) fs f)
      (inside : SpelledWith tokens token FieldTokens f) (own : f.name = .str w)
      (name : token.IsWord w f.position)
  | variant {d : Decl} {v : Variant} (declared : d ∈ decls)
      (earlier : HasEarlier (Variant.clashes d.lifetime) d.variants v)
      (inside : SpelledWith tokens token VariantTokens v) (own : v.name = .str w)
      (name : token.IsWord w v.position)

/-- The token is the name of a variant whose payload does not go with that of an earlier one. -/
def AtVariant (cause : Cause) : Prop :=
  ∃ d ∈ decls, ∃ v w, HasEarlier Style.conflict d.variants v ∧
    SpelledWith tokens token VariantTokens v ∧ v.name = .str w ∧ token.IsWord w v.position ∧
    cause = .mixedShapes d.name (.str w)

/-- The token is the discriminant of a variant, and in some version it is taken or passed by. -/
def AtDiscriminant (cause : Cause) : Prop :=
  ∃ version, ∃ d ∈ decls, ∃ v ∈ d.variants, ∃ n,
    OutOfOrder (d.excerpt version).variants (v.excerpt version d.lifetime) n ∧
    v.payload = .int n ∧ SpelledWith tokens token VariantTokens v ∧
    token.IsNumber n.value n.position ∧ cause = .discriminantOrder d.name v.name version

/-- The token is a word that names no type of the version in which it occurs as a type. -/
def AtMissing (cause : Cause) : Prop :=
  ∃ version inReference w place,
    Occurs (excerpt version decls) (inReference, .named (.str w) place) ∧
    (∀ isNode, ¬Declares (excerpt version decls) (.str w) isNode) ∧ token.IsWord w place ∧
    cause = .missingType (.str w) version

/-- With the token starts an expression that breaks a rule about references in some version. -/
def AtExpression (cause : Cause) : Prop :=
  ∃ version o, Occurs (excerpt version decls) o ∧
    TypeExpr.Offends (Declares (excerpt version decls)) cause o ∧
    Contains tokens (fun us t => ExpressionTokens us t ∧ us.head? = some token) o.2 ∧
    o.2.position = some token.position

def PointsAt (limit : Int) (cause : Cause) : Prop :=
  match cause.category with
  | .malformedVersion => AtVersion tokens decls token limit cause
  | .containment => AtVersion tokens decls token limit cause
  | .versionLimit => AtVersion tokens decls token limit cause
  | .nameOverlap => ∃ w, cause = .sharedName (.str w) ∧ AtLaterName tokens decls token w
  | .enumShape => AtVariant tokens decls token cause
  | .enumDiscriminant => AtDiscriminant tokens decls token cause
  | .danglingReference => AtMissing decls token cause
  | .referenceKind => AtExpression tokens decls token cause
  | .syntaxError => False
  | .emptyVersion => False

end

/-! ## Tokens of the parts -/

section
variable {tokens us : List Token}

theorem Grammar.Contains.named {α : Type} {part : List Token → α → Prop} {x : α} {name : Json}
    {place : Option Position} (spelled : Contains tokens part x)
    (own : ∀ us, part us x → ∃ w p, name = .str w ∧ place = some p ∧ ⟨.word w, p⟩ ∈ us) :
    ∃ token ∈ tokens, ∃ w, SpelledWith tokens token part x ∧ name = .str w ∧
      token.IsWord w place := by
  obtain ⟨us, within, inside⟩ := spelled
  obtain ⟨w, p, name, position, member⟩ := own us inside
  exact ⟨_, within.subset member, w, ⟨us, within, inside, member⟩, name, rfl, position⟩

theorem Grammar.Contains.version {keyword : Text} {n : Literal}
    (spelled : Contains tokens (SpecifierTokens keyword) n) :
    ∃ token ∈ tokens, SpelledWith tokens token (SpecifierTokens keyword) n ∧
      token.IsNumber n.value n.position := by
  obtain ⟨us, within, inside⟩ := spelled
  cases inside with
  | @mk p q r s digits fits =>
      have member : ⟨.number digits, r⟩ ∈ [⟨.word keyword, p⟩, ⟨.symbol '(', q⟩,
          ⟨.number digits, r⟩, (⟨.symbol ')', s⟩ : Token)] :=
        List.mem_cons_of_mem _ (List.mem_cons_of_mem _ List.mem_cons_self)
      exact ⟨_, within.subset member, ⟨_, within, .mk fits, member⟩, digits, rfl, rfl, rfl⟩

/-- The token that gives the discriminant of a variant. -/
theorem Grammar.Contains.discriminant {v : Variant} {n : Located Nat}
    (spelled : Contains tokens VariantTokens v) (own : v.payload = .int n) :
    ∃ token ∈ tokens, SpelledWith tokens token VariantTokens v ∧
      token.IsNumber n.value n.position := by
  obtain ⟨us, within, inside⟩ := spelled
  obtain ⟨vs, behind, carried⟩ := inside.payload
  rw [own] at carried
  cases carried with
  | @int p q digits fits =>
      have member : ⟨.number digits, q⟩ ∈ us :=
        behind.subset (List.mem_cons_of_mem _ List.mem_cons_self)
      exact ⟨_, within.subset member, ⟨us, within, inside, member⟩, digits, rfl, rfl, rfl⟩

theorem Grammar.Contains.first {t : TypeExpr} (spelled : Contains tokens ExpressionTokens t) :
    ∃ token ∈ tokens,
      Contains tokens (fun us t => ExpressionTokens us t ∧ us.head? = some token) t ∧
      t.position = some token.position := by
  obtain ⟨us, within, inside⟩ := spelled
  obtain ⟨lexeme, p, rest, rfl, place⟩ := inside.head
  exact ⟨⟨lexeme, p⟩, within.subset List.mem_cons_self, ⟨_, within, inside, rfl⟩, place⟩

/-- A faulty version stands in the header behind its keyword. -/
theorem Header.Faulty.written {limit : Int} {container : Option Lifetime} {h : Header}
    {keyword : Text} {n : Literal} {cause : Cause}
    (faulty : h.Faulty limit container keyword n cause) (spelled : HeaderTokens us h) :
    Contains us (SpecifierTokens keyword) n := by
  cases faulty with
  | addBelowOne own => exact spelled.added own
  | addBeforeContainer own => exact spelled.added own
  | addAfterContainer own => exact spelled.added own
  | addAboveLimit own => exact spelled.added own
  | remBelowTwo own => exact spelled.removed own
  | remNotAfterAdd own => exact spelled.removed own
  | remAfterContainer own => exact spelled.removed own
  | remAboveLimit own => exact spelled.removed own

end

/-! ## Rejected declarations -/

section
variable {tokens : List Token} {decls : List Decl} {limit : Int}

theorem Payload.eq_int_of_excerpt {version : Int} {l : Lifetime} {payload : Payload}
    {n : Located Nat} (own : payload.excerpt version l = .int n) : payload = .int n := by
  cases payload with
  | struct fs => cases own
  | _ => exact own

theorem PointsAt.version {token : Token} {item : Item} {h : Header} {keyword : Text} {n : Literal}
    {cause : Cause} (member : item ∈ items decls) (own : item.header = some h)
    (faulty : h.Faulty limit item.container keyword n cause)
    (inside : SpelledWith tokens token (SpecifierTokens keyword) n)
    (number : token.IsNumber n.value n.position) : PointsAt tokens decls token limit cause := by
  have found : AtVersion tokens decls token limit cause :=
    ⟨item, member, h, keyword, n, own, faulty, inside, number⟩
  -- each way to be faulty has its cause, and all of these causes point at versions
  cases faulty <;> exact found

variable (spelled : SchemaTokens tokens decls)
include spelled

theorem FieldsOf.contains {container : Lifetime} {fs : List Field} {f : Field}
    (fields : FieldsOf decls container fs) (member : f ∈ fs) : Contains tokens FieldTokens f := by
  cases fields with
  | type declared => exact spelled.field declared member
  | variant declared variant =>
      exact (spelled.variant declared variant).trans fun _ own => own.field member

/-- A diagnostic about an item points at a version of its header or at its name. -/
theorem ItemOrigin.pointed {d : Diagnostic} (origin : ItemOrigin limit decls d) :
    ∃ token ∈ tokens, d.position = some token.position ∧
      PointsAt tokens decls token limit d.cause := by
  cases origin with
  | header member own faulty =>
      have specifier := (spelled.header member own).trans fun _ tokens => faulty.written tokens
      obtain ⟨token, found, inside, number⟩ := specifier.version
      exact ⟨token, found, number.choose_spec.2.2, .version member own faulty inside number⟩
  | typeName earlier =>
      have type := spelled.contains earlier.mem
      obtain ⟨token, found, w, inside, own, name⟩ := type.named fun _ tokens => tokens.name
      exact ⟨token, found, name.2, w, congrArg Cause.sharedName own, .type earlier inside own name⟩
  | fieldName fields earlier =>
      have field := fields.contains spelled earlier.mem
      obtain ⟨token, found, w, inside, own, name⟩ := field.named fun _ tokens => tokens.name
      exact ⟨token, found, name.2, w, congrArg Cause.sharedName own,
        .field fields earlier inside own name⟩
  | variantName declared earlier =>
      have variant := spelled.variant declared earlier.mem
      obtain ⟨token, found, w, inside, own, name⟩ := variant.named fun _ tokens => tokens.name
      exact ⟨token, found, name.2, w, congrArg Cause.sharedName own,
        .variant declared earlier inside own name⟩
  | @shape e v declared earlier =>
      have variant := spelled.variant declared earlier.mem
      obtain ⟨token, found, w, inside, own, name⟩ := variant.named fun _ tokens => tokens.name
      exact ⟨token, found, name.2, e, declared, v, w, earlier, inside, own, name,
        congrArg (Cause.mixedShapes e.name) own⟩

theorem contains_of_occurs {version : Int} {o : Bool × TypeExpr}
    (occurs : Occurs (excerpt version decls) o) : Contains tokens ExpressionTokens o.2 := by
  obtain ⟨e, listed, t, expression, member⟩ := occurs
  obtain ⟨d, declared, -, rfl⟩ := mem_excerpt.mp listed
  exact spelled.occurrence declared (Decl.expressions_excerpt expression) member

/-- A diagnostic about a version points at a discriminant or at an expression, unless the version is
empty. -/
theorem VersionOrigin.pointed {version : Int} {d : Diagnostic}
    (origin : VersionOrigin version (excerpt version decls) d) :
    d.cause.category = .emptyVersion ∨ ∃ token ∈ tokens, d.position = some token.position ∧
      PointsAt tokens decls token limit d.cause := by
  cases origin with
  | empty nothing => exact .inl rfl
  | @order e v n listed outOfOrder =>
      obtain ⟨d, declared, -, rfl⟩ := mem_excerpt.mp listed
      obtain ⟨before, after, taken, split, payload, rest⟩ := id outOfOrder
      have member : v ∈ (d.excerpt version).variants := by
        rw [split]
        exact List.mem_append_right _ List.mem_cons_self
      -- the variant of the excerpt stands for a declared one, which has the tokens
      rw [Decl.excerpt_variants] at member
      obtain ⟨u, inside, -, rfl⟩ := Variant.mem_excerpts.mp member
      have own : u.payload = .int n := Payload.eq_int_of_excerpt payload
      obtain ⟨token, found, spelled, number⟩ := (spelled.variant declared inside).discriminant own
      exact .inr ⟨token, found, number.choose_spec.2.2, version, d, declared, u, inside, n,
        outOfOrder, own, spelled, number, rfl⟩
  | @missing inReference name p occurs undeclared =>
      -- an expression that is a name has the name for its only token
      obtain ⟨us, within, inside⟩ := contains_of_occurs spelled occurs
      cases inside with
      | @named q w notRef notOpt notPrimitive =>
          exact .inr ⟨⟨.word w, q⟩, within.subset List.mem_cons_self, rfl, version, inReference, w,
            _, occurs, undeclared, ⟨rfl, rfl⟩, rfl⟩
  | @kind cause o occurs offends =>
      obtain ⟨token, found, first, place⟩ := (contains_of_occurs spelled occurs).first
      have points : AtExpression tokens decls token cause :=
        ⟨version, o, occurs, offends, first, place⟩
      exact .inr ⟨token, found, place, by cases offends <;> exact points⟩

end

/-! ## Refused texts -/

section
variable {text : Text} {file : Option Text} {d : Diagnostic}

theorem RefusedAt.file_eq {cause : Cause} {p : Position} (refused : RefusedAt text file cause p) :
    p.file = file := by
  cases refused with
  | letter stands => exact stands.file
  | token real => exact real.stands.file
  | finish => rfl

/-- A text is refused for a fault of the text. -/
theorem refusedAt_of_text (refused : declarationsOfText text file = .error (.fault d)) :
    d.cause.category = .syntaxError ∧ ∃ p, d.position = some p ∧ RefusedAt text file d.cause p := by
  unfold declarationsOfText at refused
  cases ending : (scan text file).ending with
  | error fault =>
      rw [ending] at refused
      cases refused
      obtain ⟨l, p, rfl, stands⟩ := Scan.ending_eq_error ending
      exact ⟨rfl, p, rfl, .letter stands⟩
  | ok finish =>
      rw [ending] at refused
      obtain ⟨fault, p, rfl, rfl | ⟨token, scanned, rfl⟩⟩ := Reading.fault_of_refused refused
      · rw [Scan.ending_eq_ok ending]
        exact ⟨rfl, _, rfl, .finish⟩
      · exact ⟨rfl, _, rfl, .token (Token.isIn_of_mem scanned)⟩

end

/-- The diagnostic of a text that is not read has a place in the text.  A text whose declarations
are rejected is rejected with a diagnostic, and unless this says that a version is empty it has the
position of the token in the text that it is about.  All these positions have the name of the
file. -/
theorem diagnostics_pointed (text : Text) (file : Option Text) :
    (∀ d, declarationsOfText text file = .error (.fault d) → d.cause.category = .syntaxError ∧
      ∃ p, d.position = some p ∧ p.file = file ∧ RefusedAt text file d.cause p) ∧
    ∀ limit decls r, declarationsOfText text file = .ok decls →
      Compiled.ofDeclarations limit decls = .error r →
      ∃ d, r = .diagnostic d ∧ (d.cause.category = .emptyVersion ∨
        ∃ token, d.position = some token.position ∧ token.position.file = file ∧
          token.IsIn text file ∧ PointsAt (scan text file).tokens decls token limit d.cause) := by
  constructor
  · intro d refused
    obtain ⟨category, p, place, at_⟩ := refusedAt_of_text refused
    exact ⟨category, p, place, at_.file_eq, at_⟩
  · intro limit decls r read rejected
    have spelled := schemaTokens_of_text read
    obtain ⟨d, rfl, origin⟩ := Compiled.origin_of_rejected (hasTextNames_of_text read) rejected
    refine ⟨d, rfl, ?_⟩
    have pointed : d.cause.category = .emptyVersion ∨ ∃ token ∈ (scan text file).tokens,
        d.position = some token.position ∧
          PointsAt (scan text file).tokens decls token limit d.cause := by
      rcases origin with item | ⟨version, inVersion⟩
      · exact .inr (item.pointed spelled)
      · exact inVersion.pointed spelled
    refine pointed.imp_right fun ⟨token, scanned, place, points⟩ => ?_
    have real := Token.isIn_of_mem scanned
    exact ⟨token, place, real.stands.file, real, points⟩

def unfinished : Text := "struct S \x7b f: u8"

def repeated : Text := "struct S \x7b\n  f: u8,\n  f: u8\n\x7d"

theorem diagnostics_pointed_repeated :
    (∃ d p, declarationsOfText unfinished (some "s") = .error (.fault d) ∧ d.position = some p ∧
      RefusedAt unfinished (some "s") d.cause p) ∧
    ∃ decls d token, declarationsOfText repeated (some "s") = .ok decls ∧
      Compiled.ofDeclarations 9 decls = .error (.diagnostic d) ∧
      d.cause.category = .nameOverlap ∧ d.position = some token.position ∧
      token.IsIn repeated (some "s") ∧
      PointsAt (scan repeated (some "s")).tokens decls token 9 d.cause := by
  constructor
  · obtain ⟨d, found⟩ : ∃ d, refusal? unfinished (some "s") = some d :=
      Option.isSome_iff_exists.mp (by decide +kernel)
    have refused := refusal?_eq_some_iff.mp found
    obtain ⟨-, p, place, -, at_⟩ := (diagnostics_pointed unfinished (some "s")).1 d refused
    exact ⟨d, p, refused, place, at_⟩
  · obtain ⟨decls, read⟩ : ∃ decls, declarationsOfText repeated (some "s") = .ok decls :=
      fault?_eq_none_iff.mp (by decide +kernel)
    have category : ((declarationsOfText repeated (some "s")).toOption.bind fun decls =>
        (fault? (Compiled.ofDeclarations 9 decls)).bind fun
          | .diagnostic d => some d.cause.category
          | _ => none) = some .nameOverlap := by decide +kernel
    rw [read] at category
    change (fault? (Compiled.ofDeclarations 9 decls)).bind _ = _ at category
    obtain ⟨r, found, named⟩ := Option.bind_eq_some_iff.mp category
    have rejected := fault?_eq_some_iff.mp found
    obtain ⟨d, rfl, pointed⟩ :=
      (diagnostics_pointed repeated (some "s")).2 9 decls r read rejected
    have named : d.cause.category = .nameOverlap := Option.some.inj named
    rcases pointed with empty | ⟨token, place, -, real, points⟩
    · rw [named] at empty
      cases empty
    · exact ⟨decls, d, token, read, rejected, named, place, real, points⟩

end SchemaHistory
