import SchemaHistory.Proofs.Declaration.Relocated
import SchemaHistory.Proofs.Grammar.Reading

/-! # Reading tokens that are moved to other places

The readers decide by lexemes alone and hand places on.  When all tokens are moved, a reader reads
the same value at the moved places and leaves the moved rest, or it fails with the same fault, at
the moved place, or for the same numeral (`Moved`).  Every reader has one lemma
that says so, and `moved_decls` puts them together for a whole schema. -/
set_option autoImplicit false
namespace SchemaHistory

open Grammar

def Token.move (g : Position → Position) (t : Token) : Token := ⟨t.lexeme, g t.position⟩

/-- Tokens with the same lexemes are the same tokens in one place. -/
theorem move_of_lexemes {ts us : List Token} (p : Position)
    (same : ts.map Token.lexeme = us.map Token.lexeme) :
    ts.map (Token.move fun _ => p) = us.map (Token.move fun _ => p) := by
  have moved (vs : List Token) : vs.map (Token.move fun _ => p) =
      (vs.map Token.lexeme).map fun lexeme => ⟨lexeme, p⟩ := by
    rw [List.map_map]
    rfl
  rw [moved, moved, same]

def Misreading.relocate (f : Option Position → Option Position) : Misreading → Misreading
  | .fault d => .fault (d.relocate f)
  | .overlong numeral => .overlong numeral

section
variable (g : Position → Position)

/-- The second reading is the first one with all places moved, where `h` moves the value. -/
inductive Moved {α β : Type} (h : α → β) {n m : Nat} : Reading α n → Reading β m → Prop
  | read {p : Parsed Token α n} {q : Parsed Token β m} (value : q.value = h p.value)
      (rest : q.rest = p.rest.map (Token.move g)) : Moved h (.ok p) (.ok q)
  | fail (fault : TextFault) (p : Position) :
      Moved h (.error (.fault ⟨.text fault, some p⟩)) (.error (.fault ⟨.text fault, some (g p)⟩))
  | overlong (numeral : Text.Overlong) :
      Moved h (.error (.overlong numeral)) (.error (.overlong numeral))

abbrev placed : Option Position → Option Position := Option.map g

section
variable {g}
variable {α β γ δ : Type} {n m k l : Nat} {h : α → β} {i : γ → δ}

theorem Moved.bind {x : Reading α n} {y : Reading β m} {next : Parsed Token α n → Reading γ k}
    {other : Parsed Token β m → Reading δ l} (first : Moved g h x y)
    (later : ∀ a rest shorter short, Moved g i (next ⟨a, rest, shorter⟩)
      (other ⟨h a, rest.map (Token.move g), short⟩)) : Moved g i (x >>= next) (y >>= other) := by
  cases first with
  | @read p q value rest =>
      obtain ⟨a, left, shorter⟩ := p
      obtain ⟨b, right, short⟩ := q
      subst value rest
      exact later a left shorter short
  | fail fault p => exact .fail fault p
  | overlong numeral => exact .overlong numeral

end

namespace Reading
variable (finish : Position)

/-! ## Single tokens -/

theorem startsWith_move {c : Char} {ts : List Token} :
    StartsWith c (ts.map (Token.move g)) ↔ StartsWith c ts := by
  cases ts with
  | nil => exact ⟨nofun, nofun⟩
  | cons t rest =>
      obtain ⟨lexeme, p⟩ := t
      constructor
      · rintro ⟨q, us, ⟨⟩⟩
        exact ⟨p, rest, rfl⟩
      · rintro ⟨q, us, ⟨⟩⟩
        exact ⟨g p, rest.map (Token.move g), rfl⟩

/-- The symbol comes first, or it is met neither here nor behind the move. -/
theorem symbol?_cases (c : Char) (ts : List Token) :
    (∃ p rest, ts = ⟨.symbol c, p⟩ :: rest) ∨
      symbol? c ts = none ∧ symbol? c (ts.map (Token.move g)) = none := by
  by_cases starts : StartsWith c ts
  · exact .inl starts
  · exact .inr ⟨symbol?_eq_none starts, symbol?_eq_none (mt (startsWith_move g).mp starts)⟩

theorem unexpected_move (expected : Expected) (ts : List Token) :
    ∃ fault p, unexpected finish expected ts = ⟨.text fault, some p⟩ ∧
      unexpected (g finish) expected (ts.map (Token.move g)) = ⟨.text fault, some (g p)⟩ := by
  cases ts with
  | nil => exact ⟨_, finish, rfl, rfl⟩
  | cons t rest => exact ⟨_, t.position, rfl, rfl⟩

theorem moved_unexpected {α β : Type} {n m : Nat} {h : α → β} (expected : Expected)
    (ts : List Token) :
    Moved g h (.error (unexpected finish expected ts) : Reading α n)
      (.error (unexpected (g finish) expected (ts.map (Token.move g))) : Reading β m) := by
  obtain ⟨fault, p, own, other⟩ := unexpected_move g finish expected ts
  rw [own, other]
  exact .fail fault p

theorem moved_symbol (c : Char) (ts : List Token) :
    Moved g g (symbol finish c ts) (symbol (g finish) c (ts.map (Token.move g))) := by
  unfold symbol
  rcases symbol?_cases g c ts with ⟨p, rest, rfl⟩ | ⟨own, other⟩
  · rw [symbol?_symbol, List.map_cons, Token.move, symbol?_symbol]
    exact .read rfl rfl
  · rw [own, other]
    exact moved_unexpected g finish _ ts

theorem moved_word (expected : Expected) (ts : List Token) :
    Moved g (Prod.map id g) (word finish expected ts)
      (word (g finish) expected (ts.map (Token.move g))) := by
  rcases ts with - | ⟨⟨lexeme, p⟩, rest⟩
  · exact .fail _ finish
  · cases lexeme with
    | word w => exact .read rfl rfl
    | _ => exact .fail _ p

theorem moved_number (role : NumberRole) (ts : List Token) :
    Moved g (Prod.map id g) (number finish role ts)
      (number (g finish) role (ts.map (Token.move g))) := by
  rcases ts with - | ⟨⟨lexeme, p⟩, rest⟩
  · exact .fail _ finish
  · cases lexeme with
    | number digits =>
        show Moved g _ (number finish role (⟨.number digits, p⟩ :: rest))
          (number (g finish) role (⟨.number digits, g p⟩ :: rest.map (Token.move g)))
        rw [number_eq, number_eq]
        split_ifs
        · exact .overlong _
        · exact .fail _ p
        · exact .read rfl rfl
    | _ => exact .fail _ p

theorem moved_separator (close : Char) (ts : List Token) :
    Moved g id (separator finish close ts)
      (separator (g finish) close (ts.map (Token.move g))) := by
  rcases ts with - | ⟨⟨lexeme, p⟩, rest⟩
  · exact .fail _ finish
  · cases lexeme with
    | symbol c =>
        show Moved g _ (separator finish close (⟨.symbol c, p⟩ :: rest))
          (separator (g finish) close (⟨.symbol c, g p⟩ :: rest.map (Token.move g)))
        simp only [separator]
        split_ifs
        · exact .read rfl rfl
        · exact .read rfl rfl
        · exact .fail _ p
    | _ => exact .fail _ p

/-! ## Lists -/

section
variable {α β : Type} {h : α → β} {close : Char} {whole others : List Token}
  {item : (ts : List Token) → ts.length ≤ whole.length → Reading α ts.length}
  {other : (ts : List Token) → ts.length ≤ others.length → Reading β ts.length}

theorem moved_items
    (each : ∀ us inside within, Moved g h (item us inside) (other (us.map (Token.move g)) within))
    (ts : List Token) (inside : ts.length ≤ whole.length)
    (within : (ts.map (Token.move g)).length ≤ others.length) :
    Moved g (List.map h) (items finish close whole item ts inside)
      (items (g finish) close others other (ts.map (Token.move g)) within) := by
  induction ts using shorter_induction with
  | _ ts ih =>
  rcases symbol?_cases g close ts with ⟨p, rest, rfl⟩ | ⟨own, absent⟩
  · show Moved g _ (items finish close whole item (⟨.symbol close, p⟩ :: rest) inside)
      (items (g finish) close others other (⟨.symbol close, g p⟩ :: rest.map (Token.move g)) within)
    rw [items, items, symbol?_symbol, symbol?_symbol]
    exact .read rfl rfl
  · rw [items, items, own, absent]
    refine (each ts inside within).bind fun a mid shorter short => ?_
    refine (moved_separator g finish close mid).bind fun more later behind _ => ?_
    cases more with
    | false => exact .read rfl rfl
    | true =>
        have smaller : later.length < ts.length := Nat.lt_trans behind shorter
        exact (ih later smaller _ _).bind fun rest left _ _ => .read rfl rfl

end

/-! ## Version headers -/

def Specifier.relocate (s : Specifier) : Specifier :=
  ⟨s.action, g s.position, s.version.relocate (placed g)⟩

theorem moved_action (ts : List Token) :
    Moved g (Prod.map id g) (action finish ts) (action (g finish) (ts.map (Token.move g))) := by
  rcases ts with - | ⟨⟨lexeme, p⟩, rest⟩
  · exact .fail _ finish
  · cases lexeme with
    | word w =>
        show Moved g _ (action finish (⟨.word w, p⟩ :: rest))
          (action (g finish) (⟨.word w, g p⟩ :: rest.map (Token.move g)))
        simp only [action]
        split_ifs
        · exact .read rfl rfl
        · exact .read rfl rfl
        · exact .fail _ p
    | _ => exact .fail _ p

theorem moved_specifier (ts : List Token) :
    Moved g (Specifier.relocate g) (specifier finish ts)
      (specifier (g finish) (ts.map (Token.move g))) := by
  unfold specifier
  refine (moved_action g finish ts).bind fun act _ _ _ => ?_
  refine (moved_symbol g finish '(' _).bind fun _ _ _ _ => ?_
  refine (moved_number g finish .version _).bind fun version _ _ _ => ?_
  exact (moved_symbol g finish ')' _).bind fun _ _ _ _ => .read rfl rfl

theorem moved_specifiers (ts : List Token) :
    Moved g (List.map (Specifier.relocate g)) (specifiers finish ts)
      (specifiers (g finish) (ts.map (Token.move g))) := by
  induction ts using shorter_induction with
  | _ ts ih =>
  rw [specifiers, specifiers]
  refine (moved_specifier g finish ts).bind fun first mid shorter _ => ?_
  rcases symbol?_cases g ']' mid with ⟨p, rest, rfl⟩ | ⟨own, absent⟩
  · simp only [symbol?_symbol]
    exact .read rfl rfl
  · simp only [own, absent]
    refine (moved_symbol g finish ',' mid).bind fun _ later behind _ => ?_
    have smaller : later.length < ts.length := Nat.lt_trans behind shorter
    exact (ih later smaller).bind fun more _ _ _ => .read rfl rfl

/-- A header is accepted or rejected by the keywords of its specifiers. -/
theorem headerOf_relocate (hash : Position) (specs : List Specifier) :
    (∃ header, headerOf hash specs = .ok header ∧
      headerOf (g hash) (specs.map (Specifier.relocate g)) = .ok (header.relocate (placed g))) ∨
    ∃ fault p, headerOf hash specs = .error (.fault ⟨.text fault, some p⟩) ∧
      headerOf (g hash) (specs.map (Specifier.relocate g)) =
        .error (.fault ⟨.text fault, some (g p)⟩) := by
  rcases specs with - | ⟨⟨first, p, n⟩, - | ⟨⟨second, q, m⟩, - | ⟨third, more⟩⟩⟩
  · exact .inr ⟨_, hash, rfl, rfl⟩
  · cases first <;> exact .inl ⟨_, rfl, rfl⟩
  · cases first <;> cases second
    · exact .inr ⟨_, q, rfl, rfl⟩
    · exact .inl ⟨_, rfl, rfl⟩
    · exact .inr ⟨_, q, rfl, rfl⟩
    · exact .inr ⟨_, q, rfl, rfl⟩
  · exact .inr ⟨_, third.position, by cases first <;> cases second <;> rfl,
      by cases first <;> cases second <;> rfl⟩

theorem moved_headerBody (ts : List Token) :
    Moved g (List.map (Specifier.relocate g)) (headerBody finish ts)
      (headerBody (g finish) (ts.map (Token.move g))) := by
  unfold headerBody
  rcases symbol?_cases g ']' ts with ⟨p, rest, rfl⟩ | ⟨own, absent⟩
  · rw [symbol?_symbol, List.map_cons, Token.move, symbol?_symbol]
    exact .read rfl rfl
  · rw [own, absent]
    exact moved_specifiers g finish ts

theorem moved_header? (owner : HeaderOwner) (ts : List Token) :
    Moved g (Option.map (Header.relocate (placed g))) (header? finish owner ts)
      (header? (g finish) owner (ts.map (Token.move g))) := by
  unfold header?
  rcases symbol?_cases g '#' ts with ⟨hash, rest, rfl⟩ | ⟨own, absent⟩
  · rw [symbol?_symbol, List.map_cons, Token.move, symbol?_symbol]
    refine (moved_symbol g finish '[' rest).bind fun _ inside _ _ => ?_
    refine (moved_headerBody g finish inside).bind fun specs behind _ _ => ?_
    rcases headerOf_relocate g hash specs with ⟨header, own, other⟩ | ⟨fault, p, own, other⟩
    · simp only [own, other, bind, Except.bind]
      rcases symbol?_cases g '#' behind with ⟨p, left, rfl⟩ | ⟨alone, absent⟩
      · simp only [List.map_cons, Token.move, symbol?_symbol]
        exact .fail _ p
      · simp only [alone, absent]
        exact .read rfl rfl
    · simp only [own, other, bind, Except.bind]
      exact .fail fault p
  · rw [own, absent]
    exact .read rfl rfl

/-! ## Type expressions -/

theorem ofWord_relocate (w : Text) (p : Position) :
    (TypeExpr.ofWord w (some p)).relocate (placed g) = .ofWord w (some (g p)) := by
  unfold TypeExpr.ofWord
  cases Primitive.named? w <;> rfl

theorem moved_bracketEnd (inner : TypeExpr) (p : Position) (ts : List Token) :
    Moved g (TypeExpr.relocate (placed g)) (bracketEnd finish inner p ts)
      (bracketEnd (g finish) (inner.relocate (placed g)) (g p) (ts.map (Token.move g))) := by
  unfold bracketEnd
  rcases symbol?_cases g ';' ts with ⟨q, rest, rfl⟩ | ⟨own, absent⟩
  · rw [symbol?_symbol, List.map_cons, Token.move, symbol?_symbol]
    refine (moved_number g finish .arraySize rest).bind fun size _ _ _ => ?_
    exact (moved_symbol g finish ']' _).bind fun _ _ _ _ => .read rfl rfl
  · rw [own, absent]
    exact (moved_symbol g finish ']' ts).bind fun _ _ _ _ => .read rfl rfl

theorem moved_values (ts : List Token) (each : ∀ us : List Token, us.length ≤ ts.length →
      Moved g (TypeExpr.relocate (placed g)) (typeExpr finish us)
        (typeExpr (g finish) (us.map (Token.move g)))) :
    Moved g (List.map (TypeExpr.relocate (placed g)))
      (items finish ')' ts (fun us _ => typeExpr finish us) ts (Nat.le_refl _))
      (items (g finish) ')' (ts.map (Token.move g)) (fun us _ => typeExpr (g finish) us)
        (ts.map (Token.move g)) (Nat.le_refl _)) :=
  moved_items g finish (fun us inside _ => each us inside) ts _ _

theorem moved_typeExpr (ts : List Token) :
    Moved g (TypeExpr.relocate (placed g)) (typeExpr finish ts)
      (typeExpr (g finish) (ts.map (Token.move g))) := by
  induction ts using shorter_induction with
  | _ ts ih =>
  rcases ts with - | ⟨⟨lexeme, p⟩, rest⟩
  · rw [typeExpr, List.map_nil, typeExpr]
    · exact .fail _ finish
    all_goals exact fun _ _ _ same => by cases same
  -- every inner expression is read from what follows the first token
  have shorter (us : List Token) (short : us.length ≤ rest.length) :
      Moved g (TypeExpr.relocate (placed g)) (typeExpr finish us)
        (typeExpr (g finish) (us.map (Token.move g))) :=
    ih us (Nat.lt_succ_of_le short)
  cases lexeme with
  | number digits =>
      rw [typeExpr, List.map_cons, Token.move, typeExpr]
      · exact .fail _ p
      all_goals exact fun _ _ _ same => by cases same
  | symbol c =>
      rw [typeExpr, List.map_cons, Token.move, typeExpr]
      split_ifs
      · refine (shorter rest (Nat.le_refl _)).bind fun inner mid _ _ => ?_
        exact (moved_bracketEnd g finish inner p mid).bind fun _ _ _ _ => .read rfl rfl
      · have each := moved_values g finish rest shorter
        refine each.bind fun inner _ _ _ => .read ?_ rfl
        simp only [TypeExpr.relocate, TypeExpr.relocateItems_eq_map]
        rfl
      · exact .fail _ p
  | word w =>
      rw [typeExpr, List.map_cons, Token.move, typeExpr]
      split_ifs
      · refine (moved_symbol g finish '<' rest).bind fun _ inside behind _ => ?_
        refine (shorter inside (Nat.le_of_lt behind)).bind fun inner mid _ _ => ?_
        exact (moved_symbol g finish '>' mid).bind fun _ _ _ _ => .read rfl rfl
      · refine (moved_symbol g finish '<' rest).bind fun _ inside behind _ => ?_
        refine (shorter inside (Nat.le_of_lt behind)).bind fun inner mid _ _ => ?_
        exact (moved_symbol g finish '>' mid).bind fun _ _ _ _ => .read rfl rfl
      · exact .read (ofWord_relocate g w p).symm rfl

/-! ## Members and types -/

theorem moved_field (ts : List Token) :
    Moved g (Field.relocate (placed g)) (field finish ts)
      (field (g finish) (ts.map (Token.move g))) := by
  unfold field
  refine (moved_header? g finish .field ts).bind fun header _ _ _ => ?_
  refine (moved_word g finish .fieldName _).bind fun name _ _ _ => ?_
  refine (moved_symbol g finish ':' _).bind fun _ _ _ _ => ?_
  exact (moved_typeExpr g finish _).bind fun type _ _ _ => .read rfl rfl

theorem moved_fields (ts : List Token) :
    Moved g (List.map (Field.relocate (placed g))) (fields finish ts)
      (fields (g finish) (ts.map (Token.move g))) :=
  moved_items g finish (fun us _ _ => moved_field g finish us) ts _ _

theorem moved_payload (ts : List Token) :
    Moved g (Payload.relocate (placed g)) (payload finish ts)
      (payload (g finish) (ts.map (Token.move g))) := by
  rcases ts with - | ⟨⟨lexeme, p⟩, rest⟩
  · exact .read rfl rfl
  · cases lexeme with
    | symbol c =>
        show Moved g _ (payload finish (⟨.symbol c, p⟩ :: rest))
          (payload (g finish) (⟨.symbol c, g p⟩ :: rest.map (Token.move g)))
        simp only [payload]
        split_ifs
        · exact (moved_fields g finish rest).bind fun _ _ _ _ => .read rfl rfl
        · have each := moved_values g finish rest fun us _ => moved_typeExpr g finish us
          exact each.bind fun _ _ _ _ => .read rfl rfl
        · exact (moved_number g finish .discriminant rest).bind fun _ _ _ _ => .read rfl rfl
        · exact .read rfl rfl
    | _ => exact .read rfl rfl

theorem moved_variant (ts : List Token) :
    Moved g (Variant.relocate (placed g)) (variant finish ts)
      (variant (g finish) (ts.map (Token.move g))) := by
  unfold variant
  refine (moved_header? g finish .variant ts).bind fun header _ _ _ => ?_
  refine (moved_word g finish .variantName _).bind fun name _ _ _ => ?_
  exact (moved_payload g finish _).bind fun payload _ _ _ => .read rfl rfl

theorem moved_kind (ts : List Token) :
    Moved g id (kind finish ts) (kind (g finish) (ts.map (Token.move g))) := by
  rcases ts with - | ⟨⟨lexeme, p⟩, rest⟩
  · exact .fail _ finish
  · cases lexeme with
    | word w =>
        show Moved g _ (kind finish (⟨.word w, p⟩ :: rest))
          (kind (g finish) (⟨.word w, g p⟩ :: rest.map (Token.move g)))
        simp only [kind]
        split_ifs
        · exact .read rfl rfl
        · exact .read rfl rfl
        · exact .read rfl rfl
        · exact .fail _ p
    | _ => exact .fail _ p

theorem moved_body (own : Kind) (ts : List Token) :
    Moved g (Body.relocate (placed g)) (body finish own ts)
      (body (g finish) own (ts.map (Token.move g))) := by
  cases own with
  | enum =>
      have each : Moved g (List.map (Variant.relocate (placed g)))
          (items finish '\x7d' ts (fun us _ => variant finish us) ts (Nat.le_refl _))
          (items (g finish) '\x7d' (ts.map (Token.move g)) (fun us _ => variant (g finish) us)
            (ts.map (Token.move g)) (Nat.le_refl _)) :=
        moved_items g finish (fun us _ _ => moved_variant g finish us) ts _ _
      exact each.bind fun _ _ _ _ => .read rfl rfl
  | struct => exact (moved_fields g finish ts).bind fun _ _ _ _ => .read rfl rfl
  | node => exact (moved_fields g finish ts).bind fun _ _ _ _ => .read rfl rfl

theorem moved_decl (ts : List Token) :
    Moved g (Decl.relocate (placed g)) (decl finish ts)
      (decl (g finish) (ts.map (Token.move g))) := by
  unfold decl
  refine (moved_header? g finish .type ts).bind fun header _ _ _ => ?_
  refine (moved_kind g finish _).bind fun kind _ _ _ => ?_
  refine (moved_word g finish .typeName _).bind fun name _ _ _ => ?_
  refine (moved_symbol g finish '\x7b' _).bind fun _ _ _ _ => ?_
  exact (moved_body g finish kind _).bind fun body _ _ _ => .read rfl rfl

/-- A schema is read from moved tokens as it is from the tokens, at the moved places. -/
theorem moved_decls (ts : List Token) : decls (g finish) (ts.map (Token.move g)) =
    ((decls finish ts).map (List.map (Decl.relocate (placed g)))).mapError
      (Misreading.relocate (placed g)) := by
  induction ts using shorter_induction with
  | _ ts ih =>
  cases ts with
  | nil =>
      rw [List.map_nil, decls, decls]
      rfl
  | cons t rest =>
      rw [List.map_cons, decls, decls]
      have first := moved_decl g finish (t :: rest)
      rw [List.map_cons] at first
      generalize decl finish (t :: rest) = own, decl (g finish) _ = other at first
      cases first with
      | fail fault p => rfl
      | overlong numeral => rfl
      | @read p q value behind =>
          obtain ⟨d, left, shorter⟩ := p
          obtain ⟨e, right, short⟩ := q
          subst value behind
          change (decls (g finish) (left.map (Token.move g)) >>= _) =
            ((decls finish left >>= _).map _).mapError _
          rw [ih left shorter]
          cases decls finish left <;> rfl

end Reading
end
end SchemaHistory
