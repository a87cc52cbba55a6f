import SchemaHistory.Proofs.Grammar.Overruns
import SchemaHistory.Proofs.Source.Extended

/-! # Where the headers of a schema start

Every `#` of a schema starts a header (`Grammar.SchemaTokens.headersWhole`).  So a header that is
overrun is in no schema, even if more letters are put behind its last word
(`Grammar.not_spelled_of_overruns`). -/
set_option autoImplicit false
namespace SchemaHistory

open Grammar

namespace Grammar

theorem Overrun.hash {begun : List Token} {next : Lexeme} (overrun : Overrun begun next) :
    ∃ p us, begun = ⟨.symbol '#', p⟩ :: us := by
  cases overrun <;> exact ⟨_, _, rfl⟩

theorem Overrun.not_header {begun hs rest more : List Token} {next lexeme : Lexeme} {p : Position}
    {h : Header} (overrun : Overrun begun next) (goesOn : next.Continues lexeme)
    (spelled : HeaderTokens hs h) : begun ++ ⟨lexeme, p⟩ :: rest ≠ hs ++ more := by
  have differ : Text.ofString "rem" ≠ "add" := by decide
  have shorter : ¬Text.ofString "add" <+: "rem" := by decide
  intro same
  cases spelled with
  | add added =>
      cases added
      cases overrun with
      | afterRem removes =>
          simp [Clause.tokens, removes, Reading.Action.keyword, differ] at same
      | addAgain adds => simp [Clause.tokens] at same
      | afterBoth adds removes => simp [Clause.tokens] at same
  | rem removed =>
      cases removed
      cases overrun with
      | afterRem removes =>
          cases goesOn
          simp [Clause.tokens] at same
      | addAgain adds => simp [Clause.tokens] at same
      | afterBoth adds removes => simp [Clause.tokens] at same
  | both added removed =>
      cases added
      cases removed
      cases overrun with
      | afterRem removes =>
          simp [Clause.tokens, removes, Reading.Action.keyword, differ] at same
      | addAgain adds =>
          obtain ⟨w, rfl, longer⟩ := goesOn
          simp only [Clause.tokens, List.cons_append, List.nil_append, List.cons.injEq,
            Token.mk.injEq, Lexeme.word.injEq] at same
          obtain ⟨-, -, -, -, -, -, -, ⟨rfl, -⟩, -⟩ := same
          exact shorter longer
      | afterBoth adds removes =>
          cases goesOn
          simp [Clause.tokens] at same

/-- Every `#` among the tokens starts a header. -/
def HeadersWhole (ts : List Token) : Prop :=
  ∀ front p back, ts = front ++ ⟨.symbol '#', p⟩ :: back →
    ∃ hs h rest, HeaderTokens hs h ∧ ⟨.symbol '#', p⟩ :: back = hs ++ rest

def NoHash (ts : List Token) : Prop := ∀ token ∈ ts, token.lexeme ≠ .symbol '#'

section
variable {ts us : List Token} {token : Token}

theorem noHash_cons : NoHash (token :: ts) ↔ token.lexeme ≠ .symbol '#' ∧ NoHash ts :=
  List.forall_mem_cons

theorem noHash_append : NoHash (ts ++ us) ↔ NoHash ts ∧ NoHash us :=
  List.forall_mem_append

theorem noHash_nil : NoHash [] := fun _ member => nomatch member

mutual

theorem ExpressionTokens.noHash : {ts : List Token} → {t : TypeExpr} → ExpressionTokens ts t →
    NoHash ts
  | _, _, .primitive kind => noHash_cons.mpr ⟨nofun, noHash_nil⟩
  | _, _, .named _ _ _ => noHash_cons.mpr ⟨nofun, noHash_nil⟩
  | _, _, .reference inner => by
      simpa [noHash_cons, noHash_append, noHash_nil] using inner.noHash
  | _, _, .optional inner => by
      simpa [noHash_cons, noHash_append, noHash_nil] using inner.noHash
  | _, _, .slice inner => by
      simpa [noHash_cons, noHash_append, noHash_nil] using inner.noHash
  | _, _, .array inner _ => by
      simpa [noHash_cons, noHash_append, noHash_nil] using inner.noHash
  | _, _, .tuple inner => by
      simpa [noHash_cons, noHash_append, noHash_nil] using Listed.noHash inner

theorem Listed.noHash : {ts : List Token} → {items : List TypeExpr} →
    Listed ExpressionTokens ts items → NoHash ts
  | _, _, .none => noHash_nil
  | _, _, .last first => first.noHash
  | _, _, .more first rest => by
      simpa [noHash_cons, noHash_append, noHash_nil] using ⟨first.noHash, Listed.noHash rest⟩

end

theorem NoHash.headersWhole (none : NoHash ts) : HeadersWhole ts := by
  rintro front p back rfl
  exact absurd rfl (noHash_cons.mp (noHash_append.mp none).2).1

theorem HeadersWhole.append (first : HeadersWhole ts) (second : HeadersWhole us) :
    HeadersWhole (ts ++ us) := by
  intro front p back split
  rcases split_of_append_eq split with ⟨inner, -, same⟩ | ⟨inner, same, rfl⟩
  · exact second inner p back same
  · obtain ⟨hs, h, rest, spelled, whole⟩ := first front p inner same
    exact ⟨hs, h, rest ++ us, spelled, by rw [← List.append_assoc, ← whole]; rfl⟩

theorem HeadersWhole.cons (other : token.lexeme ≠ .symbol '#') (later : HeadersWhole ts) :
    HeadersWhole (token :: ts) :=
  (NoHash.headersWhole (noHash_cons.mpr ⟨other, noHash_nil⟩)).append later

theorem SpecifierTokens.noHash {keyword : Text} {n : Literal}
    (spelled : SpecifierTokens keyword ts n) : NoHash ts := by
  cases spelled
  simp [NoHash]

theorem HeaderTokens.headersWhole {h : Header} (spelled : HeaderTokens ts h) :
    HeadersWhole ts := by
  obtain ⟨p, us, rfl, noHash⟩ : ∃ p us, ts = ⟨.symbol '#', p⟩ :: us ∧ NoHash us := by
    cases spelled with
    | add added => exact ⟨_, _, rfl, by
        simpa [noHash_cons, noHash_append, noHash_nil] using added.noHash⟩
    | rem removed => exact ⟨_, _, rfl, by
        simpa [noHash_cons, noHash_append, noHash_nil] using removed.noHash⟩
    | both added removed => exact ⟨_, _, rfl, by
        simpa [noHash_cons, noHash_append, noHash_nil] using ⟨added.noHash, removed.noHash⟩⟩
  intro front q back split
  cases front with
  | nil => exact ⟨_, h, [], spelled, by rw [List.append_nil, split, List.nil_append]⟩
  | cons x front =>
      obtain ⟨-, rfl⟩ := List.cons.inj split
      exact absurd rfl (noHash_cons.mp (noHash_append.mp noHash).2).1

theorem HeadedTokens.headersWhole {header : Option Header} (headed : HeadedTokens ts header) :
    HeadersWhole ts := by
  cases headed with
  | none => exact noHash_nil.headersWhole
  | some spelled => exact spelled.headersWhole

theorem Listed.headersWhole {α : Type} {item : List Token → α → Prop} {xs : List α}
    (listed : Listed item ts xs) (each : ∀ us a, item us a → HeadersWhole us) :
    HeadersWhole ts := by
  induction listed with
  | none => exact noHash_nil.headersWhole
  | last first => exact each _ _ first
  | more first rest ih => exact (each _ _ first).append (ih.cons (by simp))

theorem FieldTokens.headersWhole {f : Field} (spelled : FieldTokens ts f) : HeadersWhole ts := by
  cases spelled with
  | mk headed type =>
      exact headed.headersWhole.append ((type.noHash.headersWhole.cons (by simp)).cons (by simp))

theorem HeadersWhole.enclosed {c d : Char} {p q : Position} (inner : HeadersWhole ts)
    (opening : c ≠ '#') (closing : d ≠ '#') :
    HeadersWhole (⟨.symbol c, p⟩ :: (ts ++ [⟨.symbol d, q⟩])) := by
  have last : NoHash [⟨.symbol d, q⟩] :=
    noHash_cons.mpr ⟨fun same => closing (Lexeme.symbol.inj same), noHash_nil⟩
  exact (inner.append last.headersWhole).cons fun same => opening (Lexeme.symbol.inj same)

theorem PayloadTokens.headersWhole {payload : Payload} (spelled : PayloadTokens ts payload) :
    HeadersWhole ts := by
  cases spelled with
  | unit => exact noHash_nil.headersWhole
  | int fits => exact (noHash_nil.headersWhole.cons (by simp)).cons (by simp)
  | tuple inner => exact inner.noHash.headersWhole.enclosed (by decide) (by decide)
  | struct inner =>
      exact (inner.headersWhole fun _ _ => FieldTokens.headersWhole).enclosed (by decide)
        (by decide)

theorem VariantTokens.headersWhole {v : Variant} (spelled : VariantTokens ts v) :
    HeadersWhole ts := by
  cases spelled with
  | mk headed carried => exact headed.headersWhole.append (carried.headersWhole.cons (by simp))

theorem BodyTokens.headersWhole {kind : Kind} {body : Body} (spelled : BodyTokens kind ts body) :
    HeadersWhole ts := by
  cases spelled with
  | struct fields => exact fields.headersWhole fun _ _ => FieldTokens.headersWhole
  | node fields => exact fields.headersWhole fun _ _ => FieldTokens.headersWhole
  | enum variants => exact variants.headersWhole fun _ _ => VariantTokens.headersWhole

theorem DeclTokens.headersWhole {d : Decl} (spelled : DeclTokens ts d) : HeadersWhole ts := by
  cases spelled with
  | @mk hs us header kind name body p q r s headed members =>
      have braced : HeadersWhole (⟨.symbol '\x7b', r⟩ :: (us ++ [⟨.symbol '\x7d', s⟩])) :=
        members.headersWhole.enclosed (by decide) (by decide)
      exact headed.headersWhole.append ((braced.cons (by simp)).cons (by simp))

theorem SchemaTokens.headersWhole {ds : List Decl} (spelled : SchemaTokens ts ds) :
    HeadersWhole ts := by
  induction spelled with
  | nil => exact noHash_nil.headersWhole
  | cons first rest ih => exact first.headersWhole.append ih

/-- No schema goes on from a header that is overrun. -/
theorem not_spelled_of_overruns {before later : List Token} {lexeme : Lexeme} {p : Position}
    {ds : List Decl} (overruns : Overruns (before ++ [token]))
    (goesOn : token.lexeme.Continues lexeme) :
    ¬SchemaTokens (before ++ ⟨lexeme, p⟩ :: later) ds := by
  intro spelled
  obtain ⟨front, begun, next, q, after, split, overrun⟩ := overruns
  obtain ⟨r, us, rfl⟩ := overrun.hash
  rcases List.eq_nil_or_concat after with rfl | ⟨after, last, rfl⟩
  · -- the token is the one that the header cannot go on with
    obtain ⟨rfl, same⟩ := List.append_inj' split rfl
    cases same
    rw [List.append_assoc] at spelled
    obtain ⟨hs, h, rest, header, whole⟩ := spelled.headersWhole front r _ rfl
    exact overrun.not_header goesOn header whole
  · rw [List.concat_eq_append, ← List.cons_append, ← List.append_assoc] at split
    obtain ⟨rfl, -⟩ := List.append_inj' split rfl
    simp only [List.append_assoc, List.cons_append] at spelled
    obtain ⟨hs, h, rest, header, whole⟩ := spelled.headersWhole front r _ rfl
    exact overrun.not_header next.continues_self header whole

end
end Grammar
end SchemaHistory
