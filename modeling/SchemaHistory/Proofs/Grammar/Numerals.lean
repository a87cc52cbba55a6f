import SchemaHistory.Proofs.Faults.Sequence
import SchemaHistory.Proofs.Grammar.Printed
import SchemaHistory.Proofs.Grammar.Schemas

/-! # Which numerals are read

A numeral belongs to the language if its number has at most 32 bits, but it is only read if it also
is short enough to be converted.  Spelling depends on numerals only through their numbers: if other
numerals for the same numbers may be used, they spell the same schema (`Respelled`).  So a text is
read exactly if it is grammatical and all of its numerals are short (`reads_iff_grammatical`), and
tokens that are too long to be read still spell at most one schema. -/
set_option autoImplicit false
namespace SchemaHistory

namespace Grammar

def NumeralsIn (good : Text → Prop) (ts : List Token) : Prop :=
  ∀ digits p, ⟨.number digits, p⟩ ∈ ts → good digits

section
variable {good : Text → Prop} {ts us : List Token} {p : Position} {w digits : Text} {c : Char}

@[simp] theorem numeralsIn_nil : NumeralsIn good [] := fun _ _ => nofun

@[simp] theorem numeralsIn_word : NumeralsIn good (⟨.word w, p⟩ :: ts) ↔ NumeralsIn good ts := by
  simp [NumeralsIn]

@[simp] theorem numeralsIn_symbol :
    NumeralsIn good (⟨.symbol c, p⟩ :: ts) ↔ NumeralsIn good ts := by
  simp [NumeralsIn]

@[simp] theorem numeralsIn_number :
    NumeralsIn good (⟨.number digits, p⟩ :: ts) ↔ good digits ∧ NumeralsIn good ts := by
  constructor
  · intro all
    exact ⟨all digits p List.mem_cons_self,
      fun other q member => all other q (List.mem_cons_of_mem _ member)⟩
  · rintro ⟨first, others⟩ other q member
    rcases List.mem_cons.mp member with ⟨⟨⟩⟩ | later
    · exact first
    · exact others other q later

@[simp] theorem numeralsIn_append :
    NumeralsIn good (ts ++ us) ↔ NumeralsIn good ts ∧ NumeralsIn good us := by
  simp only [NumeralsIn, List.mem_append, or_imp, forall_and]

end

def respell (f : Text → Text) : Token → Token
  | ⟨.number digits, p⟩ => ⟨.number (f digits), p⟩
  | token => token

section
variable {f : Text → Text} {p : Position}

@[simp] theorem respell_word {w : Text} : respell f ⟨.word w, p⟩ = ⟨.word w, p⟩ := rfl

@[simp] theorem respell_symbol {c : Char} : respell f ⟨.symbol c, p⟩ = ⟨.symbol c, p⟩ := rfl

@[simp] theorem respell_number {digits : Text} :
    respell f ⟨.number digits, p⟩ = ⟨.number (f digits), p⟩ := rfl

theorem respell_id (ts : List Token) : ts.map (respell id) = ts := by
  refine (List.map_congr_left fun token _ => ?_).trans (List.map_id ts)
  obtain ⟨lexeme, p⟩ := token
  cases lexeme <;> rfl

end

/-- The other numeral may be used, and it stands for the same number. -/
def Stands (B : Numerals) (f : Text → Text) (digits : Text) : Prop :=
  B.takes (f digits) ∧ Text.digitsValue (f digits) = Text.digitsValue digits

/-- The numerals of what is spelled may all be used, and with other numerals for the same numbers
the same is spelled. -/
structure Respelled {α : Type} (spells : Numerals → List Token → α → Prop) (A : Numerals)
    (ts : List Token) (a : α) : Prop where
  taken : NumeralsIn A.takes ts
  again : ∀ B f, NumeralsIn (Stands B f) ts → spells B (ts.map (respell f)) a

section
variable {A : Numerals} {ts : List Token}

theorem Listed.respelled {α : Type} (spells : Numerals → List Token → α → Prop) {xs : List α}
    (each : ∀ us x, us.length ≤ ts.length → spells A us x → Respelled spells A us x)
    (listed : Listed (spells A) ts xs) : Respelled (fun N => Listed (spells N)) A ts xs := by
  induction listed with
  | none => exact ⟨numeralsIn_nil, fun _ _ _ => .none⟩
  | last first =>
      have own := each _ _ (Nat.le_refl _) first
      exact ⟨own.taken, fun B f stands => .last (own.again B f stands)⟩
  | @more us vs a others p first rest ih =>
      have own := each us a (by simp) first
      have later := ih fun vs x le => each vs x (by
        simp only [List.length_cons, List.length_append]
        omega)
      refine ⟨by simp [own.taken, later.taken], fun B f stands => ?_⟩
      simp only [numeralsIn_append, numeralsIn_symbol] at stands
      simp only [List.map_append, List.map_cons, respell_symbol]
      exact .more (own.again B f stands.1) (later.again B f stands.2)

theorem shorter_enclosed (token : Token) (front back ts : List Token) :
    ts.length < (token :: (front ++ (ts ++ back))).length := by
  simp only [List.length_cons, List.length_append]
  omega

theorem ExpressionTokens.respelled {t : TypeExpr} (spelled : @ExpressionTokens A ts t) :
    Respelled @ExpressionTokens A ts t := by
  induction ts using shorter_induction generalizing t with
  | _ ts ih =>
  cases spelled with
  | primitive kind => exact ⟨by simp, fun _ _ _ => .primitive kind⟩
  | named notRef notOpt notPrimitive =>
      exact ⟨by simp, fun _ _ _ => .named notRef notOpt notPrimitive⟩
  | reference inner =>
      have own := ih _ (shorter_enclosed _ [_] [_] _) inner
      refine ⟨by simpa using own.taken, fun B f stands => ?_⟩
      simp only [numeralsIn_word, numeralsIn_symbol, numeralsIn_append] at stands
      simpa using ExpressionTokens.reference (own.again B f stands.1)
  | optional inner =>
      have own := ih _ (shorter_enclosed _ [_] [_] _) inner
      refine ⟨by simpa using own.taken, fun B f stands => ?_⟩
      simp only [numeralsIn_word, numeralsIn_symbol, numeralsIn_append] at stands
      simpa using ExpressionTokens.optional (own.again B f stands.1)
  | slice inner =>
      have own := ih _ (shorter_enclosed _ [] [_] _) inner
      refine ⟨by simpa using own.taken, fun B f stands => ?_⟩
      simp only [numeralsIn_symbol, numeralsIn_append] at stands
      simpa using ExpressionTokens.slice (own.again B f stands.1)
  | array inner fits =>
      have own := ih _ (shorter_enclosed _ [] [_, _, _] _) inner
      refine ⟨by simpa using ⟨own.taken, fits⟩, fun B f stands => ?_⟩
      simp only [numeralsIn_symbol, numeralsIn_number, numeralsIn_append] at stands
      obtain ⟨inside, ⟨takes, same⟩, -⟩ := stands
      rw [← same]
      simpa using ExpressionTokens.array (own.again B f inside) takes
  | tuple inner =>
      have own := Listed.respelled @ExpressionTokens
        (fun us x le => ih us (Nat.lt_of_le_of_lt le (shorter_enclosed _ [] [_] _))) inner
      refine ⟨by simpa using own.taken, fun B f stands => ?_⟩
      simp only [numeralsIn_symbol, numeralsIn_append] at stands
      simpa using ExpressionTokens.tuple (own.again B f stands.1)

theorem SpecifierTokens.respelled {keyword : Text} {n : Literal}
    (spelled : @SpecifierTokens A keyword ts n) :
    Respelled (fun N => @SpecifierTokens N keyword) A ts n := by
  cases spelled with
  | mk fits =>
      refine ⟨by simpa using fits, fun B f stands => ?_⟩
      simp only [numeralsIn_word, numeralsIn_symbol, numeralsIn_number] at stands
      obtain ⟨⟨takes, same⟩, -⟩ := stands
      rw [← same]
      exact .mk takes

theorem HeaderTokens.respelled {h : Header} (spelled : @HeaderTokens A ts h) :
    Respelled @HeaderTokens A ts h := by
  cases spelled with
  | add added =>
      have own := added.respelled
      refine ⟨by simpa using own.taken, fun B f stands => ?_⟩
      simp only [numeralsIn_symbol, numeralsIn_append] at stands
      simpa using HeaderTokens.add (own.again B f stands.1)
  | rem removed =>
      have own := removed.respelled
      refine ⟨by simpa using own.taken, fun B f stands => ?_⟩
      simp only [numeralsIn_symbol, numeralsIn_append] at stands
      simpa using HeaderTokens.rem (own.again B f stands.1)
  | both added removed =>
      have first := added.respelled
      have second := removed.respelled
      refine ⟨by simpa using ⟨first.taken, second.taken⟩, fun B f stands => ?_⟩
      simp only [numeralsIn_symbol, numeralsIn_append] at stands
      simpa using HeaderTokens.both (first.again B f stands.1) (second.again B f stands.2.1)

theorem HeadedTokens.respelled {header : Option Header} (spelled : @HeadedTokens A ts header) :
    Respelled @HeadedTokens A ts header := by
  cases spelled with
  | none => exact ⟨numeralsIn_nil, fun _ _ _ => .none⟩
  | some header =>
      have own := header.respelled
      exact ⟨own.taken, fun B f stands => .some (own.again B f stands)⟩

theorem FieldTokens.respelled {field : Field} (spelled : @FieldTokens A ts field) :
    Respelled @FieldTokens A ts field := by
  cases spelled with
  | mk headed type =>
      have header := headed.respelled
      have own := type.respelled
      refine ⟨by simpa using ⟨header.taken, own.taken⟩, fun B f stands => ?_⟩
      simp only [numeralsIn_word, numeralsIn_symbol, numeralsIn_append] at stands
      simpa using FieldTokens.mk (header.again B f stands.1) (own.again B f stands.2)

theorem Listed.respelled_fields {fs : List Field} (listed : Listed (@FieldTokens A) ts fs) :
    Respelled (fun N => Listed (@FieldTokens N)) A ts fs :=
  Listed.respelled @FieldTokens (fun _ _ _ => FieldTokens.respelled) listed

theorem PayloadTokens.respelled {payload : Payload} (spelled : @PayloadTokens A ts payload) :
    Respelled @PayloadTokens A ts payload := by
  cases spelled with
  | unit => exact ⟨numeralsIn_nil, fun _ _ _ => .unit⟩
  | int fits =>
      refine ⟨by simpa using fits, fun B f stands => ?_⟩
      simp only [numeralsIn_symbol, numeralsIn_number] at stands
      obtain ⟨⟨takes, same⟩, -⟩ := stands
      rw [← same]
      exact .int takes
  | tuple inner =>
      have own := Listed.respelled @ExpressionTokens
        (fun _ _ _ => ExpressionTokens.respelled) inner
      refine ⟨by simpa using own.taken, fun B f stands => ?_⟩
      simp only [numeralsIn_symbol, numeralsIn_append] at stands
      simpa using PayloadTokens.tuple (own.again B f stands.1)
  | struct inner =>
      have own := inner.respelled_fields
      refine ⟨by simpa using own.taken, fun B f stands => ?_⟩
      simp only [numeralsIn_symbol, numeralsIn_append] at stands
      simpa using PayloadTokens.struct (own.again B f stands.1)

theorem VariantTokens.respelled {v : Variant} (spelled : @VariantTokens A ts v) :
    Respelled @VariantTokens A ts v := by
  cases spelled with
  | mk headed carried =>
      have header := headed.respelled
      have own := carried.respelled
      refine ⟨by simpa using ⟨header.taken, own.taken⟩, fun B f stands => ?_⟩
      simp only [numeralsIn_word, numeralsIn_append] at stands
      simpa using VariantTokens.mk (header.again B f stands.1) (own.again B f stands.2)

theorem BodyTokens.respelled {kind : Kind} {body : Body} (spelled : @BodyTokens A kind ts body) :
    Respelled (fun N => @BodyTokens N kind) A ts body := by
  cases spelled with
  | struct fields =>
      have own := fields.respelled_fields
      exact ⟨own.taken, fun B f stands => .struct (own.again B f stands)⟩
  | node fields =>
      have own := fields.respelled_fields
      exact ⟨own.taken, fun B f stands => .node (own.again B f stands)⟩
  | enum variants =>
      have own := Listed.respelled @VariantTokens
        (fun _ _ _ => VariantTokens.respelled) variants
      exact ⟨own.taken, fun B f stands => .enum (own.again B f stands)⟩

theorem DeclTokens.respelled {d : Decl} (spelled : @DeclTokens A ts d) :
    Respelled @DeclTokens A ts d := by
  cases spelled with
  | mk headed members =>
      have header := headed.respelled
      have own := members.respelled
      refine ⟨by simpa using ⟨header.taken, own.taken⟩, fun B f stands => ?_⟩
      simp only [numeralsIn_word, numeralsIn_symbol, numeralsIn_append] at stands
      simpa using DeclTokens.mk (header.again B f stands.1) (own.again B f stands.2.1)

theorem SchemaTokens.respelled {ds : List Decl} (spelled : @SchemaTokens A ts ds) :
    Respelled @SchemaTokens A ts ds := by
  induction spelled with
  | nil => exact ⟨numeralsIn_nil, fun _ _ _ => .nil⟩
  | cons first rest ih =>
      have own := first.respelled
      refine ⟨by simpa using ⟨own.taken, ih.taken⟩, fun B f stands => ?_⟩
      rw [numeralsIn_append] at stands
      rw [List.map_append]
      exact .cons (own.again B f stands.1) (ih.again B f stands.2)

end

/-! ## Schemas -/

section
variable {ts : List Token} {ds others : List Decl}

/-- What is spelled with numerals that can be read is spelled in the language with short ones. -/
theorem schemaTokens_readable_iff : SchemaTokens ts ds ↔ @SchemaTokens bounded ts ds ∧
    NumeralsIn (fun digits => digits.length ≤ Text.digitLimit) ts := by
  have same {A B : Numerals} (spelled : @SchemaTokens A ts ds) (takes : NumeralsIn B.takes ts) :
      @SchemaTokens B ts ds := by
    have again := spelled.respelled.again B id fun digits p member => ⟨takes digits p member, rfl⟩
    rwa [respell_id] at again
  constructor
  · intro spelled
    have fits := spelled.respelled.taken
    exact ⟨same spelled fun digits p member => (fits digits p member).2,
      fun digits p member => (fits digits p member).1⟩
  · rintro ⟨spelled, short⟩
    have fits := spelled.respelled.taken
    exact same spelled fun digits p member => ⟨short digits p member, fits digits p member⟩

/-- Tokens spell at most one schema, however long their numerals are. -/
theorem SchemaTokens.unique_bounded (first : @SchemaTokens bounded ts ds)
    (second : @SchemaTokens bounded ts others) : ds = others := by
  -- without zeros in front the numerals are short, and short ones can be read
  let shown (digits : Text) : Text := Text.ofNat (Text.digitsValue digits)
  have stands : NumeralsIn (Stands readable shown) ts := fun digits p member =>
    ⟨fits_ofNat (first.respelled.taken digits p member), Text.digitsValue_ofNat _⟩
  exact (first.respelled.again readable shown stands).unique
    (second.respelled.again readable shown stands)

end
end Grammar

open Grammar

/-- A text is read exactly if it can be cut into tokens, these spell a schema, and no numeral among
them has too many digits.  What is read is the schema that they spell; tokens never spell two. -/
theorem reads_iff_grammatical (text : Text) (file : Option Text) :
    (∀ ds, declarationsOfText text file = .ok ds ↔
      (∃ finish, (scan text file).ending = .ok finish) ∧
        @SchemaTokens bounded (scan text file).tokens ds ∧
        ∀ digits p, ⟨.number digits, p⟩ ∈ (scan text file).tokens →
          digits.length ≤ Text.digitLimit) ∧
    ∀ ts ds others, @SchemaTokens bounded ts ds → @SchemaTokens bounded ts others →
      ds = others := by
  refine ⟨fun ds => ?_, fun ts ds others => SchemaTokens.unique_bounded⟩
  unfold declarationsOfText
  constructor
  · intro read
    cases ending : (scan text file).ending with
    | error fault =>
        rw [ending] at read
        cases read
    | ok finish =>
        rw [ending] at read
        have spelled := Reading.decls_eq_ok_iff.mp read
        exact ⟨⟨finish, rfl⟩, schemaTokens_readable_iff.mp spelled⟩
  · rintro ⟨⟨finish, ending⟩, spelled⟩
    rw [ending]
    exact Reading.decls_eq_ok_iff.mpr (schemaTokens_readable_iff.mpr spelled)

/-- Keywords are names where the grammar asks for a name. -/
example : (declarationsOfText "struct struct \x7b add: node, ref: enum \x7d" none).isOk = true := by
  decide +kernel

/-- The number one, behind more zeros than a numeral may have digits. -/
def longOne : Text := List.replicate Text.digitLimit (.char '0') ++ [.char '1']

def longSize : Text := "struct S \x7b f: [u8; " ++ (longOne ++ "] \x7d")

def column (n : Int) : Position := ⟨.int 1, .int n, none⟩

set_option maxRecDepth 100000 in
theorem scan_longSize : (scan longSize none).tokens =
    [⟨.word "struct", column 1⟩, ⟨.word "S", column 8⟩, ⟨.symbol '\x7b', column 10⟩,
      ⟨.word "f", column 12⟩, ⟨.symbol ':', column 13⟩, ⟨.symbol '[', column 15⟩,
      ⟨.word "u8", column 16⟩, ⟨.symbol ';', column 18⟩, ⟨.number longOne, column 20⟩,
      ⟨.symbol ']', column 4321⟩, ⟨.symbol '\x7d', column 4323⟩] := by
  decide +kernel

/-- The tokens spell a schema, but they are not read. -/
theorem grammatical_not_read :
    (∃ finish, (scan longSize none).ending = .ok finish) ∧
    (∃ ds, @SchemaTokens bounded (scan longSize none).tokens ds) ∧
    declarationsOfText longSize none = .error (.overlong ⟨4301⟩) := by
  refine ⟨fault?_eq_none_iff.mp (by decide +kernel), ?_,
    fault?_eq_some_iff.mp (by decide +kernel)⟩
  have small : Text.digitsValue longOne ≤ 2 ^ 32 - 1 := by decide +kernel
  have byte : @ExpressionTokens bounded [⟨.word "u8", column 16⟩] _ :=
    @ExpressionTokens.primitive bounded (column 16) .u8
  have array := @ExpressionTokens.array bounded (column 15) (column 18) (column 20) (column 4321)
    _ _ longOne byte small
  have field := @FieldTokens.mk bounded _ _ _ "f" _ (column 12) (column 13)
    (@HeadedTokens.none bounded) array
  have decl := @DeclTokens.mk bounded _ _ _ .struct "S" _ (column 1) (column 8) (column 10)
    (column 4323) (@HeadedTokens.none bounded) (@BodyTokens.struct bounded _ _ (.last field))
  rw [scan_longSize]
  exact ⟨_, @SchemaTokens.cons bounded _ _ _ _ decl (@SchemaTokens.nil bounded)⟩

end SchemaHistory
