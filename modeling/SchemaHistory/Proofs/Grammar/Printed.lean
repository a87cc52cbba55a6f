import SchemaHistory.Proofs.Grammar.Expressions
import SchemaHistory.Proofs.Source.Cuts

/-! # Printed expressions

`TypeExpr.Spelled` singles out the expressions that a schema text can spell.  The text of such an
expression is cut into tokens that spell the same expression, whatever stands behind it, up to the
places of its parts (`Spelled.cuts`).  As tokens spell at most one expression, the text determines
the expression (`Spelled.text_inj`). -/
set_option autoImplicit false
namespace SchemaHistory

open Grammar

theorem Grammar.fits_ofNat {n : Nat} (small : n ≤ 2 ^ 32 - 1) : Fits (Text.ofNat n) := by
  have short : (Text.ofNat n).length ≤ 10 := Text.length_ofNat_le (by decide) (by omega)
  exact ⟨Nat.le_trans short (by decide), (Text.digitsValue_ofNat n).symm ▸ small⟩

theorem Grammar.ExpressionTokens.unique {ts : List Token} {t u : TypeExpr}
    (first : ExpressionTokens ts t) (second : ExpressionTokens ts u) : t = u := by
  have finish : Position := ⟨.null, .null, none⟩
  have left : Reads (Reading.typeExpr finish ts) t [] :=
    Reading.reads_typeExpr.mpr ⟨ts, (List.append_nil ts).symm, first⟩
  have right : Reads (Reading.typeExpr finish ts) u [] :=
    Reading.reads_typeExpr.mpr ⟨ts, (List.append_nil ts).symm, second⟩
  exact (left.unique right).1

theorem Text.join_cons_cons {s t : Text} {rest : List Text} :
    Text.join ", " (s :: t :: rest) =
      s ++ .char ',' :: .char ' ' :: Text.join ", " (t :: rest) := by
  rw [Text.join, List.intercalate_cons_cons, List.append_assoc]
  rfl

theorem Text.stops_symbol {c : Char} {s : Text} (other : Scan.isWordPart (.char c) = false) :
    Text.Stops Scan.isWordPart (.char c :: s) := Text.stops_cons.mpr other

/-- The text is cut into tokens that spell something like it, wherever it stands and whatever
follows it that does not continue a word. -/
def Scan.CutsInto {α : Type} (file : Option Text) (s : Text) (spells : List Token → α → Prop)
    (like : α → Prop) : Prop :=
  ∀ p r, Text.Stops isWordPart r → ∃ ts a, Cuts file p s r ts ∧ spells ts a ∧ like a

theorem Scan.cuts_listed {α β γ : Type} {spells : List Token → β → Prop} {text : α → Text}
    {view : α → γ} {look : β → γ} {file : Option Text} {items : List α}
    (all : ∀ item ∈ items, CutsInto file (text item) spells fun b => look b = view item) :
    CutsInto file (Text.join ", " (items.map text)) (Listed spells) fun found =>
      found.map look = items.map view := by
  intro p r stops
  induction items generalizing p with
  | nil => exact ⟨[], [], rfl, .none, rfl⟩
  | cons item rest ih =>
      obtain ⟨first, others⟩ := List.forall_mem_cons.mp all
      cases rest with
      | nil =>
          obtain ⟨ts, b, cut, spelled, same⟩ := first p r stops
          rw [List.map_singleton, Text.join, List.intercalate_singleton]
          exact ⟨ts, [b], cut, .last spelled, congrArg (· :: []) same⟩
      | cons next rest =>
          obtain ⟨ts, b, cut, spelled, same⟩ :=
            first p _ (Text.stops_symbol (c := ',') (by decide))
          obtain ⟨us, found, later, listed, sames⟩ :=
            ih (p := ((p.afterAll (text item)).after (.char ',')).after (.char ' ')) others
          have comma := (later.afterBlank (by decide)).afterSymbol (c := ',') (by decide)
          have whole := cut.append comma
          rw [List.map_cons, List.map_cons, Text.join_cons_cons]
          exact ⟨_, b :: found, whole, .more spelled listed, congrArg₂ List.cons same sames⟩

theorem Text.stops_of_isSymbol {c : Char} {s : Text} (symbol : Scan.isSymbol c = true) :
    Text.Stops Scan.isWordPart (.char c :: s) := by
  have apart : (Scan.symbols.all fun d => !Scan.isWordPart (.char d)) = true := by decide
  have own := List.all_eq_true.mp apart c (List.contains_iff_mem.mp symbol)
  exact Text.stops_symbol (by simpa using own)

theorem Scan.cuts_enclosed {α : Type} {spells : List Token → α → Prop} {like : α → Prop}
    {file : Option Text} {s : Text} {c d : Char} (opens : isSymbol c = true)
    (closes : isSymbol d = true) (inner : CutsInto file s spells like) (p : Cursor) (r : Text) :
    ∃ q₀ q₁ ts a,
      Cuts file p (.char c :: (s ++ [.char d])) r
        (⟨.symbol c, q₀⟩ :: (ts ++ [⟨.symbol d, q₁⟩])) ∧ spells ts a ∧ like a := by
  obtain ⟨ts, a, cut, spelled, own⟩ :=
    inner (p.after (.char c)) (.char d :: r) (Text.stops_of_isSymbol closes)
  have closed := cut.append (cuts_symbol (r := r) closes)
  exact ⟨_, _, ts, a, closed.afterSymbol opens, spelled, own⟩

namespace TypeExpr

mutual

def unplaced : TypeExpr → TypeExpr
  | .primitive kind _ => .primitive kind none
  | .named name _ => .named name none
  | .optional inner _ => .optional (unplaced inner) none
  | .reference inner _ => .reference (unplaced inner) none
  | .array inner size _ => .array (unplaced inner) size none
  | .slice inner _ => .slice (unplaced inner) none
  | .tuple items _ => .tuple (unplacedItems items) none

def unplacedItems : List TypeExpr → List TypeExpr
  | [] => []
  | item :: items => unplaced item :: unplacedItems items

end

@[simp] theorem unplacedItems_eq_map (items : List TypeExpr) :
    unplacedItems items = items.map unplaced := by
  induction items with
  | nil => rfl
  | cons item items ih => simp [unplacedItems, ih]

mutual

@[simp] theorem text_unplaced : (t : TypeExpr) → t.unplaced.text = t.text
  | .primitive _ _ => rfl
  | .named _ _ => rfl
  | .optional inner _ => by simp only [unplaced, text, text_unplaced inner]
  | .reference inner _ => by simp only [unplaced, text, text_unplaced inner]
  | .array inner _ _ => by simp only [unplaced, text, text_unplaced inner]
  | .slice inner _ => by simp only [unplaced, text, text_unplaced inner]
  | .tuple items _ => by simp only [unplaced, text, texts_unplaced items]

theorem texts_unplaced : (items : List TypeExpr) → texts (unplacedItems items) = texts items
  | [] => rfl
  | item :: items => by simp only [unplacedItems, texts, text_unplaced item, texts_unplaced items]

end

/-- The places of the parts do not show. -/
@[simp] theorem form_unplaced (t : TypeExpr) : t.unplaced.form = t.form := by
  have written := text_unplaced t
  cases t with
  | named name p => rfl
  | primitive kind p => rfl
  | _ => exact congrArg Json.str written

inductive Spelled : TypeExpr → Prop
  | primitive {kind : Primitive} {p : Option Position} : Spelled (.primitive kind p)
  | named {name : Text} {p : Option Position} (word : Scan.isName name = true)
      (notRef : name ≠ "ref") (notOpt : name ≠ "opt")
      (notPrimitive : ∀ kind : Primitive, name ≠ kind.name) : Spelled (.named (.str name) p)
  | optional {t : TypeExpr} {p : Option Position} (inner : Spelled t) : Spelled (.optional t p)
  | reference {t : TypeExpr} {p : Option Position} (inner : Spelled t) : Spelled (.reference t p)
  | array {t : TypeExpr} {n : Nat} {p : Option Position} (inner : Spelled t)
      (fits : n ≤ 2 ^ 32 - 1) : Spelled (.array t (.int n) p)
  | slice {t : TypeExpr} {p : Option Position} (inner : Spelled t) : Spelled (.slice t p)
  | tuple {items : List TypeExpr} {p : Option Position}
      (inner : ∀ item ∈ items, Spelled item) : Spelled (.tuple items p)

/-! ## The tokens of a text -/

section
variable {t : TypeExpr} {items : List TypeExpr} {place : Option Position}

theorem text_optional :
    (optional t place).text = ("opt" : Text) ++ .char '<' :: (t.text ++ [.char '>']) := by
  simp only [text, List.append_assoc]
  rfl

theorem text_reference :
    (reference t place).text = ("ref" : Text) ++ .char '<' :: (t.text ++ [.char '>']) := by
  simp only [text, List.append_assoc]
  rfl

theorem text_array {n : Nat} : (array t (.int n) place).text =
    .char '[' :: (t.text ++ .char ';' :: .char ' ' :: (Text.ofNat n ++ [.char ']'])) := by
  simp only [text, List.append_assoc]
  rfl

theorem text_slice : (slice t place).text = .char '[' :: (t.text ++ [.char ']']) := by
  simp only [text, List.append_assoc]
  rfl

theorem text_tuple :
    (tuple items place).text = .char '(' :: (Text.join ", " (items.map text) ++ [.char ')']) := by
  simp only [text, List.append_assoc, texts_eq_map]
  rfl

end

section
variable {file : Option Text} {p : Cursor} {r : Text}

def IsCut (file : Option Text) (t : TypeExpr) : Prop :=
  ∀ p r, Text.Stops Scan.isWordPart r → ∃ ts u,
    Scan.Cuts file p t.text r ts ∧ ExpressionTokens ts u ∧ u.unplaced = t.unplaced

theorem cuts_wrapped {t : TypeExpr} (keyword : Text) (word : Scan.isName keyword = true)
    (inner : IsCut file t) :
    ∃ q₀ q₁ q₂ ts u,
      Scan.Cuts file p (keyword ++ .char '<' :: (t.text ++ [.char '>'])) r
        (⟨.word keyword, q₀⟩ :: ⟨.symbol '<', q₁⟩ :: (ts ++ [⟨.symbol '>', q₂⟩])) ∧
      ExpressionTokens ts u ∧ u.unplaced = t.unplaced := by
  obtain ⟨q₁, q₂, ts, u, bracketed, spelled, same⟩ :=
    Scan.cuts_enclosed (c := '<') (d := '>') (by decide) (by decide) inner
      (p.afterAll keyword) r
  have whole := (Scan.cuts_word word (Text.stops_symbol (by decide))).append bracketed
  exact ⟨_, _, _, ts, u, whole, spelled, same⟩

theorem cuts_round {items : List TypeExpr} (all : ∀ item ∈ items, IsCut file item) :
    ∃ q₀ q₁ ts us,
      Scan.Cuts file p (.char '(' :: (Text.join ", " (items.map text) ++ [.char ')'])) r
        (⟨.symbol '(', q₀⟩ :: (ts ++ [⟨.symbol ')', q₁⟩])) ∧
      Listed ExpressionTokens ts us ∧ us.map unplaced = items.map unplaced :=
  Scan.cuts_enclosed (by decide) (by decide) (Scan.cuts_listed all) p r

/-- The text of an expression is cut into tokens that spell it. -/
theorem Spelled.cuts {t : TypeExpr} (spelled : t.Spelled) (file : Option Text) : IsCut file t := by
  induction spelled with
  | @primitive kind place =>
      intro p r stops
      have word : Scan.isName kind.name = true := by cases kind <;> decide
      exact ⟨_, _, Scan.cuts_word word stops, .primitive kind, rfl⟩
  | named word notRef notOpt notPrimitive =>
      intro p r stops
      exact ⟨_, _, Scan.cuts_word word stops, .named notRef notOpt notPrimitive, rfl⟩
  | @optional t place inner ih =>
      intro p r stops
      obtain ⟨q₀, q₁, q₂, ts, u, cut, spelled, same⟩ :=
        cuts_wrapped (p := p) (r := r) "opt" (by decide) ih
      rw [text_optional]
      exact ⟨_, _, cut, .optional spelled, congrArg (TypeExpr.optional · none) same⟩
  | @reference t place inner ih =>
      intro p r stops
      obtain ⟨q₀, q₁, q₂, ts, u, cut, spelled, same⟩ :=
        cuts_wrapped (p := p) (r := r) "ref" (by decide) ih
      rw [text_reference]
      exact ⟨_, _, cut, .reference spelled, congrArg (TypeExpr.reference · none) same⟩
  | @array t n place inner fits ih =>
      intro p r stops
      have size : Fits (Text.ofNat n) := fits_ofNat fits
      have bracket : Text.Stops Scan.isWordPart (.char ']' :: r) := Text.stops_symbol (by decide)
      have number (q : Cursor) : Scan.Cuts file q (Text.ofNat n) (.char ']' :: r) _ :=
        Scan.cuts_number n bracket
      have closed (q : Cursor) := (number q).append (Scan.cuts_symbol (r := r) (by decide))
      have spaced (q : Cursor) := (closed _).afterBlank (p := q) (c := ' ') (by decide)
      obtain ⟨ts, u, cut, spelled, same⟩ :=
        ih (p.after (.char '[')) _ (Text.stops_symbol (c := ';') (by decide))
      have whole := (cut.append ((spaced _).afterSymbol (by decide))).afterSymbol (by decide)
      rw [text_array]
      refine ⟨_, _, whole, .array spelled size, ?_⟩
      rw [Text.digitsValue_ofNat]
      exact congrArg (TypeExpr.array · (.int n) none) same
  | @slice t place inner ih =>
      intro p r stops
      obtain ⟨q₀, q₁, ts, u, cut, spelled, same⟩ :=
        Scan.cuts_enclosed (c := '[') (d := ']') (by decide) (by decide) ih p r
      rw [text_slice]
      exact ⟨_, _, cut, .slice spelled, congrArg (TypeExpr.slice · none) same⟩
  | @tuple items place inner ih =>
      intro p r stops
      obtain ⟨q₀, q₁, ts, us, cut, listed, same⟩ := cuts_round (p := p) (r := r) ih
      rw [text_tuple]
      refine ⟨_, _, cut, .tuple listed, ?_⟩
      simp only [unplaced, unplacedItems_eq_map, same]

/-! ## The text determines the expression -/

/-- Expressions with one text are the same up to places. -/
theorem Spelled.text_inj {t u : TypeExpr} (left : t.Spelled) (right : u.Spelled)
    (same : t.text = u.text) : t.unplaced = u.unplaced := by
  obtain ⟨ts, v, cut, spelled, unplaced⟩ := left.cuts none Cursor.start [] Text.stops_nil
  obtain ⟨us, w, other, respelled, replaced⟩ := right.cuts none Cursor.start [] Text.stops_nil
  have tokens : ts = us := by rw [← cut.tokens, ← other.tokens, same]
  subst tokens
  rw [← unplaced, ← replaced, spelled.unique respelled]

end
end TypeExpr
end SchemaHistory
