import SchemaHistory.Proofs.Declaration.Relocated
import SchemaHistory.Proofs.Grammar.Spelled

/-! # Reading back what was written

An expression and a variant are shown as the schema language would write them.  The text of a field
and that of a variant are cut into tokens that spell the item again, but for its version headers
and its places; so when they stand in a declaration of their own the declaration is read, and it has
that one member (`shown_reread`). -/
set_option autoImplicit false
namespace SchemaHistory

open Grammar

def Payload.bare : Payload → Payload
  | .struct fs => .struct (fs.map Field.bare)
  | other => other

def Variant.bare (v : Variant) : Variant := ⟨v.name, v.payload.bare, none, v.position⟩

def Payload.Fits (carried : Payload) : Prop := ∀ n, carried = .int n → n.value ≤ 2 ^ 32 - 1

def Field.unplaced (f : Field) : Field := f.relocate fun _ => none

def Variant.unplaced (v : Variant) : Variant := v.relocate fun _ => none

def Body.unplaced (body : Body) : Body := body.relocate fun _ => none

section
variable {file : Option Text} {p : Cursor} {r : Text}

/-! ## Members -/

def Text.braced (members : Text) : Text :=
  .char ' ' :: .char '\x7b' :: .char ' ' :: (members ++ [.char ' ', .char '\x7d'])

theorem Scan.cuts_braced {α : Type} {s : Text} {spells : List Token → α → Prop}
    {like : α → Prop} (inner : CutsInto file s spells like) (p : Cursor) (r : Text) :
    ∃ q₀ q₁ ts a,
      Cuts file p s.braced r (⟨.symbol '\x7b', q₀⟩ :: (ts ++ [⟨.symbol '\x7d', q₁⟩])) ∧
      spells ts a ∧ like a := by
  obtain ⟨ts, a, cut, spelled, own⟩ :=
    inner (((p.after (.char ' ')).after (.char '\x7b')).after (.char ' '))
      (.char ' ' :: .char '\x7d' :: r) (Text.stops_symbol (by decide))
  have closed := cut.append ((cuts_symbol (by decide)).afterBlank (by decide))
  have spaced := closed.afterBlank (c := ' ') (by decide)
  exact ⟨_, _, ts, a, (spaced.afterSymbol (by decide)).afterBlank (by decide), spelled, own⟩

namespace Variant
variable {w : Text} {header : Option Header} {place : Option Position}

theorem fieldText_eq {t : TypeExpr} :
    fieldText ⟨.str w, t, header, place⟩ = w ++ .char ':' :: .char ' ' :: t.text := by
  simp only [fieldText, Json.shown_str, List.append_assoc]
  rfl

theorem text_int {n : Located Nat} : text ⟨.str w, .int n, header, place⟩ =
    w ++ .char ' ' :: .char '=' :: .char ' ' :: Text.ofNat n.value := by
  simp only [text, Json.shown_str, List.append_assoc]
  rfl

theorem text_tuple {items : List TypeExpr} : text ⟨.str w, .tuple items, header, place⟩ =
    w ++ .char '(' :: (Text.join ", " (items.map TypeExpr.text) ++ [.char ')']) := by
  simp only [text, Json.shown_str, List.append_assoc]
  rfl

theorem text_struct {fs : List Field} : text ⟨.str w, .struct fs, header, place⟩ =
    w ++ (Text.join ", " (fs.map fieldText)).braced := by
  simp only [text, Json.shown_str, List.append_assoc]
  rfl

end Variant

theorem Field.Spelled.cuts {f : Field} (spelled : f.Spelled) (file : Option Text) :
    Scan.CutsInto file (Variant.fieldText f) FieldTokens fun g => g.unplaced = f.bare.unplaced := by
  intro p r stops
  obtain ⟨name, type, header, position⟩ := f
  obtain ⟨⟨w, rfl, word⟩, expression⟩ := spelled
  obtain ⟨ts, u, cut, tokens, same⟩ :=
    expression.cuts file (((p.afterAll w).after (.char ':')).after (.char ' ')) r stops
  have behindName := (cut.afterBlank (by decide)).afterSymbol (c := ':') (by decide)
  have whole := (Scan.cuts_word word (Text.stops_symbol (by decide))).append behindName
  rw [Variant.fieldText_eq]
  refine ⟨_, _, whole, .mk .none tokens, ?_⟩
  simp only [unplaced, relocate, bare, TypeExpr.relocate_none, same, Option.map_none]

theorem Variant.Spelled.cuts {v : Variant} (spelled : v.Spelled) (fits : v.payload.Fits)
    (file : Option Text) :
    Scan.CutsInto file v.text VariantTokens fun w => w.unplaced = v.bare.unplaced := by
  intro p r stops
  obtain ⟨name, carried, header, position⟩ := v
  obtain ⟨⟨w, rfl, word⟩, inner⟩ := spelled
  cases carried with
  | unit => exact ⟨_, _, Scan.cuts_word word stops, .mk .none .unit, rfl⟩
  | int n =>
      have size : Fits (Text.ofNat n.value) := fits_ofNat (fits n rfl)
      have number (q : Cursor) : Scan.Cuts file q (Text.ofNat n.value) r _ :=
        Scan.cuts_number n.value stops
      have equals (q : Cursor) :=
        ((number _).afterBlank (p := q.after (.char '=')) (c := ' ') (by decide)).afterSymbol
          (c := '=') (by decide)
      have behindName := (equals _).afterBlank (p := p.afterAll w) (c := ' ') (by decide)
      have whole := (Scan.cuts_word word (Text.stops_symbol (by decide))).append behindName
      rw [text_int]
      refine ⟨_, _, whole, .mk .none (.int size), ?_⟩
      rw [Text.digitsValue_ofNat]
      rfl
  | tuple items =>
      obtain ⟨q₀, q₁, ts, us, behindName, listed, same⟩ :=
        TypeExpr.cuts_round (p := p.afterAll w) (r := r) fun item member =>
          (inner item member).cuts file
      have whole := (Scan.cuts_word word (Text.stops_symbol (by decide))).append behindName
      rw [← funext TypeExpr.relocate_none] at same
      rw [text_tuple]
      exact ⟨_, ⟨.str w, .tuple us, none, _⟩, whole, .mk .none (.tuple listed),
        congrArg (fun types => Variant.mk (.str w) (.tuple types) none none) same⟩
  | struct fs =>
      have each (f : Field) (member : f ∈ fs) := (inner f member).cuts file
      obtain ⟨q₀, q₁, ts, gs, braced, listed, same⟩ :=
        Scan.cuts_braced (Scan.cuts_listed each) (p.afterAll w) r
      have whole := (Scan.cuts_word word (Text.stops_symbol (by decide))).append braced
      rw [text_struct]
      refine ⟨_, ⟨.str w, .struct gs, none, _⟩, whole, .mk .none (.struct listed), ?_⟩
      simp only [unplaced, relocate, bare, Payload.bare, Payload.relocate, List.map_map]
      exact congrArg (fun fields => Variant.mk (.str w) (.struct fields) none none) same

/-! ## Declarations -/

def Kind.declaring (kind : Kind) (name members : Text) : Text :=
  kind.name ++ .char ' ' :: (name ++ members.braced)

/-- A type is read from its text when the text of its members is cut into tokens that spell them. -/
theorem Kind.reread {kind : Kind} {name members : Text} {body : Body}
    (word : Scan.isName name = true)
    (inner : Scan.CutsInto file members (BodyTokens kind) fun found =>
      found.unplaced = body.unplaced) :
    ∃ decls, declarationsOfText (kind.declaring name members) file = .ok decls ∧
      decls.map Decl.unplaced = [Decl.unplaced ⟨.str name, body, none, none⟩] := by
  have keyword : Scan.isName kind.name = true := by cases kind <;> decide
  let behind : Cursor := (Cursor.start.afterAll kind.name).after (.char ' ')
  obtain ⟨q₀, q₁, ts, found, braced, spelled, same⟩ :=
    Scan.cuts_braced inner (behind.afterAll name) []
  have named := (Scan.cuts_word word (Text.stops_symbol (by decide))).append braced
  have behindKeyword := named.afterBlank (c := ' ') (by decide)
  have whole := (Scan.cuts_word keyword (Text.stops_symbol (by decide))).append behindKeyword
  obtain ⟨tokens, finish, ending⟩ := Scan.scan_eq_of_cuts whole
  refine ⟨[⟨.str name, found, none, some (behind.position file)⟩], ?_,
    congrArg (fun b => [Decl.mk (.str name) b none none]) same⟩
  rw [declarationsOfText, declaring, ending, tokens]
  exact Reading.decls_eq_ok_iff.mpr (.single (.mk .none spelled))

theorem Field.Spelled.reread {f : Field} (spelled : f.Spelled) {name : Text}
    (word : Scan.isName name = true) :
    ∃ decls, declarationsOfText (Kind.struct.declaring name (Variant.fieldText f)) file =
      .ok decls ∧
      decls.map Decl.unplaced =
        [Decl.unplaced ⟨.str name, .record false [f.bare], none, none⟩] := by
  refine Kind.reread word fun p r stops => ?_
  obtain ⟨ts, g, cut, tokens, same⟩ := spelled.cuts file p r stops
  exact ⟨ts, .record false [g], cut, .struct (.last tokens), congrArg (Body.record false [·]) same⟩

theorem Variant.Spelled.reread {v : Variant} (spelled : v.Spelled) (fits : v.payload.Fits)
    {name : Text} (word : Scan.isName name = true) :
    ∃ decls, declarationsOfText (Kind.enum.declaring name v.text) file = .ok decls ∧
      decls.map Decl.unplaced = [Decl.unplaced ⟨.str name, .enum [v.bare], none, none⟩] := by
  refine Kind.reread word fun p r stops => ?_
  obtain ⟨ts, w, cut, tokens, same⟩ := spelled.cuts fits file p r stops
  exact ⟨ts, .enum [w], cut, .enum (.last tokens), congrArg (Body.enum [·]) same⟩

/-- An expression that can be spelled is read back from its text when it stands in a field, and so
is a variant with names of the language that stands in an enum; the places, and of the variant also
the headers, are not in its text. -/
theorem shown_reread (file : Option Text) :
    (∀ t : TypeExpr, t.Spelled → ∃ decls,
      declarationsOfText ("struct S \x7b f: " ++ t.text ++ " \x7d") file = .ok decls ∧
      decls.map Decl.unplaced =
        [Decl.unplaced ⟨.str "S", .record false [⟨.str "f", t, none, none⟩], none, none⟩]) ∧
    ∀ v : Variant, v.Spelled → v.payload.Fits → ∃ decls,
      declarationsOfText ("enum E \x7b " ++ v.text ++ " \x7d") file = .ok decls ∧
      decls.map Decl.unplaced = [Decl.unplaced ⟨.str "E", .enum [v.bare], none, none⟩] := by
  constructor
  · intro t spelled
    have field : Field.Spelled ⟨.str "f", t, none, none⟩ := ⟨⟨"f", rfl, by decide⟩, spelled⟩
    have written : ("struct S \x7b f: " : Text) ++ t.text ++ " \x7d" =
        Kind.struct.declaring "S" (Variant.fieldText ⟨.str "f", t, none, none⟩) := by
      rw [Variant.fieldText_eq, Kind.declaring, Text.braced]
      simp only [List.append_assoc]
      rfl
    rw [written]
    exact field.reread (by decide)
  · intro v spelled fits
    have written : ("enum E \x7b " : Text) ++ v.text ++ " \x7d" =
        Kind.enum.declaring "E" v.text := by
      rw [Kind.declaring, Text.braced, List.append_assoc]
      rfl
    rw [written]
    exact spelled.reread fits (by decide)

end

def nestedTuple : TypeExpr :=
  .tuple [.optional (.reference (.named (.str "Node") none) none) none,
    .array (.slice (.primitive .u8 none) none) (.int 4294967295) none, .tuple [] none] none

def pairVariant : Variant :=
  ⟨.str "Pair", .struct
    [⟨.str "enum", .tuple [.primitive .str none] none, some (.adding ⟨3, none⟩ none none), none⟩,
     ⟨.str "rest", .slice (.named (.str "Node") none) none, none, none⟩],
    some (.removing ⟨4, none⟩ none), none⟩

theorem shown_reread_nested :
    (∃ decls, declarationsOfText
        "struct S \x7b f: (opt<ref<Node>>, [[u8]; 4294967295], ()) \x7d" none = .ok decls ∧
      decls.map Decl.unplaced = [Decl.unplaced
        ⟨.str "S", .record false [⟨.str "f", nestedTuple, none, none⟩], none, none⟩]) ∧
    ∃ decls, declarationsOfText
        "enum E \x7b Pair \x7b enum: (str), rest: [Node] \x7d \x7d" none = .ok decls ∧
      decls.map Decl.unplaced =
        [Decl.unplaced ⟨.str "E", .enum [pairVariant.bare], none, none⟩] := by
  have node : TypeExpr.Spelled (.named (.str "Node") none) :=
    .named (by decide) (by decide) (by decide) fun kind => by cases kind <;> decide
  have nested : nestedTuple.Spelled := by
    refine .tuple (List.forall_mem_cons.mpr ⟨.optional (.reference node), ?_⟩)
    refine List.forall_mem_cons.mpr ⟨.array (.slice .primitive) (by decide), ?_⟩
    exact List.forall_mem_singleton.mpr (.tuple fun item member => absurd member List.not_mem_nil)
  have pair : pairVariant.Spelled := by
    refine ⟨⟨"Pair", rfl, by decide⟩, List.forall_mem_cons.mpr ⟨?_, ?_⟩⟩
    · exact ⟨⟨"enum", rfl, by decide⟩, .tuple (List.forall_mem_singleton.mpr .primitive)⟩
    · exact List.forall_mem_singleton.mpr ⟨⟨"rest", rfl, by decide⟩, .slice node⟩
  have unnumbered : pairVariant.payload.Fits := by
    intro n number
    cases number
  obtain ⟨expressions, variants⟩ := shown_reread none
  exact ⟨expressions nestedTuple nested, variants pairVariant pair unnumbered⟩

end SchemaHistory
