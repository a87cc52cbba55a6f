import Mathlib.Algebra.Group.Nat.Defs
import SchemaHistory.Declaration.OfText

/-! # The grammar of the schema language

Each relation says which tokens spell a construct, and which tree they spell.  The tree has the
places of the tokens in it, as it has when it is read.  Words are reserved only where the grammar
names them: a field, a variant or a type may have any word for its name, and a lone word stands for
a declared type unless it is `ref`, `opt` or the name of a primitive type.  Which numerals may stand
for numbers is left open: a numeral whose number has at most 32 bits belongs to the language
(`bounded`), but it is only read if it is short enough to be converted (`readable`). -/
set_option autoImplicit false
namespace SchemaHistory.Grammar

/-- Items separated by commas, where a comma may also follow the last one. -/
inductive Listed {α : Type} (item : List Token → α → Prop) : List Token → List α → Prop
  | none : Listed item [] []
  | last {ts : List Token} {a : α} (first : item ts a) : Listed item ts [a]
  | more {ts us : List Token} {a : α} {others : List α} {p : Position} (first : item ts a)
      (rest : Listed item us others) :
      Listed item (ts ++ ⟨.symbol ',', p⟩ :: us) (a :: others)

/-- Which digits may stand for a number. -/
class Numerals where
  takes : Text → Prop

section
variable [Numerals]

/-! ## Type expressions -/

inductive ExpressionTokens : List Token → TypeExpr → Prop
  | primitive {p : Position} (kind : Primitive) :
      ExpressionTokens [⟨.word kind.name, p⟩] (.primitive kind (some p))
  | named {p : Position} {name : Text} (notRef : name ≠ "ref") (notOpt : name ≠ "opt")
      (notPrimitive : ∀ kind : Primitive, name ≠ kind.name) :
      ExpressionTokens [⟨.word name, p⟩] (.named (.str name) (some p))
  | reference {p q r : Position} {ts : List Token} {t : TypeExpr} (inner : ExpressionTokens ts t) :
      ExpressionTokens (⟨.word "ref", p⟩ :: ⟨.symbol '<', q⟩ :: (ts ++ [⟨.symbol '>', r⟩]))
        (.reference t (some p))
  | optional {p q r : Position} {ts : List Token} {t : TypeExpr} (inner : ExpressionTokens ts t) :
      ExpressionTokens (⟨.word "opt", p⟩ :: ⟨.symbol '<', q⟩ :: (ts ++ [⟨.symbol '>', r⟩]))
        (.optional t (some p))
  | slice {p q : Position} {ts : List Token} {t : TypeExpr} (inner : ExpressionTokens ts t) :
      ExpressionTokens (⟨.symbol '[', p⟩ :: (ts ++ [⟨.symbol ']', q⟩])) (.slice t (some p))
  | array {p q r s : Position} {ts : List Token} {t : TypeExpr} {digits : Text}
      (inner : ExpressionTokens ts t) (fits : Numerals.takes digits) :
      ExpressionTokens
        (⟨.symbol '[', p⟩ ::
          (ts ++ [⟨.symbol ';', q⟩, ⟨.number digits, r⟩, ⟨.symbol ']', s⟩]))
        (.array t (.int (Text.digitsValue digits)) (some p))
  | tuple {p q : Position} {ts : List Token} {items : List TypeExpr}
      (inner : Listed ExpressionTokens ts items) :
      ExpressionTokens (⟨.symbol '(', p⟩ :: (ts ++ [⟨.symbol ')', q⟩])) (.tuple items (some p))

/-! ## Version headers -/

inductive SpecifierTokens (keyword : Text) : List Token → Literal → Prop
  | mk {p q r s : Position} {digits : Text} (fits : Numerals.takes digits) :
      SpecifierTokens keyword
        [⟨.word keyword, p⟩, ⟨.symbol '(', q⟩, ⟨.number digits, r⟩, ⟨.symbol ')', s⟩]
        ⟨Text.digitsValue digits, some r⟩

inductive HeaderTokens : List Token → Header → Prop
  | add {p q r : Position} {ts : List Token} {n : Literal} (added : SpecifierTokens "add" ts n) :
      HeaderTokens (⟨.symbol '#', p⟩ :: ⟨.symbol '[', q⟩ :: (ts ++ [⟨.symbol ']', r⟩]))
        (.adding n none (some p))
  | rem {p q r : Position} {ts : List Token} {n : Literal} (removed : SpecifierTokens "rem" ts n) :
      HeaderTokens (⟨.symbol '#', p⟩ :: ⟨.symbol '[', q⟩ :: (ts ++ [⟨.symbol ']', r⟩]))
        (.removing n (some p))
  | both {p q r s : Position} {ts us : List Token} {n m : Literal}
      (added : SpecifierTokens "add" ts n) (removed : SpecifierTokens "rem" us m) :
      HeaderTokens
        (⟨.symbol '#', p⟩ :: ⟨.symbol '[', q⟩ ::
          (ts ++ ⟨.symbol ',', r⟩ :: (us ++ [⟨.symbol ']', s⟩])))
        (.adding n (some m) (some p))

inductive HeadedTokens : List Token → Option Header → Prop
  | none : HeadedTokens [] none
  | some {ts : List Token} {h : Header} (header : HeaderTokens ts h) : HeadedTokens ts (some h)

/-! ## Members and types -/

inductive FieldTokens : List Token → Field → Prop
  | mk {hs ts : List Token} {header : Option Header} {name : Text} {t : TypeExpr} {p q : Position}
      (headed : HeadedTokens hs header) (type : ExpressionTokens ts t) :
      FieldTokens (hs ++ ⟨.word name, p⟩ :: ⟨.symbol ':', q⟩ :: ts)
        ⟨.str name, t, header, some p⟩

inductive PayloadTokens : List Token → Payload → Prop
  | unit : PayloadTokens [] .unit
  | int {p q : Position} {digits : Text} (fits : Numerals.takes digits) :
      PayloadTokens [⟨.symbol '=', p⟩, ⟨.number digits, q⟩]
        (.int ⟨Text.digitsValue digits, some q⟩)
  | tuple {p q : Position} {ts : List Token} {items : List TypeExpr}
      (inner : Listed ExpressionTokens ts items) :
      PayloadTokens (⟨.symbol '(', p⟩ :: (ts ++ [⟨.symbol ')', q⟩])) (.tuple items)
  | struct {p q : Position} {ts : List Token} {fs : List Field}
      (inner : Listed FieldTokens ts fs) :
      PayloadTokens (⟨.symbol '\x7b', p⟩ :: (ts ++ [⟨.symbol '\x7d', q⟩])) (.struct fs)

inductive VariantTokens : List Token → Variant → Prop
  | mk {hs ts : List Token} {header : Option Header} {name : Text} {payload : Payload}
      {p : Position} (headed : HeadedTokens hs header) (carried : PayloadTokens ts payload) :
      VariantTokens (hs ++ ⟨.word name, p⟩ :: ts) ⟨.str name, payload, header, some p⟩

inductive BodyTokens : Kind → List Token → Body → Prop
  | struct {ts : List Token} {fs : List Field} (fields : Listed FieldTokens ts fs) :
      BodyTokens .struct ts (.record false fs)
  | node {ts : List Token} {fs : List Field} (fields : Listed FieldTokens ts fs) :
      BodyTokens .node ts (.record true fs)
  | enum {ts : List Token} {vs : List Variant} (variants : Listed VariantTokens ts vs) :
      BodyTokens .enum ts (.enum vs)

inductive DeclTokens : List Token → Decl → Prop
  | mk {hs ts : List Token} {header : Option Header} {kind : Kind} {name : Text} {body : Body}
      {p q r s : Position} (headed : HeadedTokens hs header) (members : BodyTokens kind ts body) :
      DeclTokens
        (hs ++ ⟨.word kind.name, p⟩ :: ⟨.word name, q⟩ :: ⟨.symbol '\x7b', r⟩ ::
          (ts ++ [⟨.symbol '\x7d', s⟩]))
        ⟨.str name, body, header, some q⟩

/-- A schema is a list of types, one right behind the other. -/
inductive SchemaTokens : List Token → List Decl → Prop
  | nil : SchemaTokens [] []
  | cons {ts us : List Token} {d : Decl} {others : List Decl} (first : DeclTokens ts d)
      (rest : SchemaTokens us others) : SchemaTokens (ts ++ us) (d :: others)

end

/-- The numerals of the language: a number has at most 32 bits. -/
abbrev bounded : Numerals := ⟨fun digits => Text.digitsValue digits ≤ 2 ^ 32 - 1⟩

/-- A numeral that is converted, and whose number has at most 32 bits. -/
def Fits (digits : Text) : Prop :=
  digits.length ≤ Text.digitLimit ∧ Text.digitsValue digits ≤ 2 ^ 32 - 1

instance readable : Numerals := ⟨Fits⟩

/-- What can be said of an item by its tokens can be said of all items of a list. -/
theorem Listed.forall {α : Type} {item : List Token → α → Prop} {good : α → Prop}
    {ts : List Token} {xs : List α} (each : ∀ us x, us <:+: ts → item us x → good x)
    (listed : Listed item ts xs) : ∀ x ∈ xs, good x := by
  induction listed with
  | none => exact List.forall_mem_nil _
  | last first => exact List.forall_mem_singleton.mpr (each _ _ (List.infix_refl _) first)
  | @more ts us a others p first rest ih =>
      have front : ts <:+: ts ++ ⟨.symbol ',', p⟩ :: us := (List.prefix_append _ _).isInfix
      have behind : us <:+: ts ++ ⟨.symbol ',', p⟩ :: us :=
        ((List.suffix_cons _ us).trans (List.suffix_append _ _)).isInfix
      have later := ih fun vs x within => each vs x (within.trans behind)
      exact List.forall_mem_cons.mpr ⟨each _ _ front first, later⟩

/-! ## First tokens -/

def StartsWith (c : Char) (ts : List Token) : Prop := ∃ p rest, ts = ⟨.symbol c, p⟩ :: rest

section
variable {c : Char} {ts rest : List Token}

@[simp] theorem startsWith_symbol {d : Char} {p : Position} :
    StartsWith c (⟨.symbol d, p⟩ :: ts) ↔ d = c := by
  constructor
  · rintro ⟨q, rest, ⟨⟩⟩
    rfl
  · rintro rfl
    exact ⟨p, ts, rfl⟩

@[simp] theorem not_startsWith_word {w : Text} {p : Position} :
    ¬StartsWith c (⟨.word w, p⟩ :: ts) := by
  rintro ⟨q, rest, ⟨⟩⟩

theorem ExpressionTokens.front {t : TypeExpr} (spelled : ExpressionTokens ts t)
    (square : c ≠ '[') (round : c ≠ '(') : ¬StartsWith c (ts ++ rest) := by
  cases spelled <;> simp [square.symm, round.symm]

theorem HeaderTokens.brackets {h : Header} (spelled : HeaderTokens ts h) :
    ∃ p q us, ts = ⟨.symbol '#', p⟩ :: ⟨.symbol '[', q⟩ :: us := by
  cases spelled <;> exact ⟨_, _, _, rfl⟩

theorem HeadedTokens.front {header : Option Header} {w : Text} {p : Position}
    (headed : HeadedTokens ts header) (hash : c ≠ '#') :
    ¬StartsWith c (ts ++ ⟨.word w, p⟩ :: rest) := by
  cases headed with
  | none => simp
  | some header => cases header <;> simp [hash.symm]

theorem FieldTokens.front {f : Field} (spelled : FieldTokens ts f) (hash : c ≠ '#') :
    ¬StartsWith c (ts ++ rest) := by
  cases spelled with
  | mk headed type =>
      rw [List.append_assoc]
      exact headed.front hash

theorem VariantTokens.front {v : Variant} (spelled : VariantTokens ts v) (hash : c ≠ '#') :
    ¬StartsWith c (ts ++ rest) := by
  cases spelled with
  | mk headed carried =>
      rw [List.append_assoc]
      exact headed.front hash

theorem SchemaTokens.front {ds : List Decl} (spelled : SchemaTokens ts ds) (hash : c ≠ '#') :
    ¬StartsWith c ts := by
  cases spelled with
  | nil =>
      rintro ⟨p, rest, ⟨⟩⟩
  | cons first others =>
      cases first with
      | mk headed members =>
          rw [List.append_assoc]
          exact headed.front hash

end
end SchemaHistory.Grammar
