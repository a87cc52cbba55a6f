import SchemaHistory.Proofs.Grammar.Expressions
import SchemaHistory.Proofs.Grammar.Headers
import SchemaHistory.Proofs.Results

/-! # Reading schemas

Fields, variants and types are read exactly from the tokens that spell them, and a whole schema is
read exactly when its tokens spell one (`decls_eq_ok_iff`).  A unit variant spells the beginning of
other variants, so a variant needs a comma or the closing brace behind it.  Since what is read is
determined by the tokens, tokens spell at most one schema. -/
set_option autoImplicit false
namespace SchemaHistory

open Grammar

namespace Reading
variable {finish : Position} {ts rest : List Token}

theorem reads_headed {owner : HeaderOwner} {expected : Expected} {header : Option Header}
    {name : Text} {p : Position} :
    (∃ mid, Reads (header? finish owner ts) header mid ∧
      Reads (word finish expected mid) (name, p) rest) ↔
      ∃ hs, ts = hs ++ ⟨.word name, p⟩ :: rest ∧ HeadedTokens hs header := by
  constructor
  · rintro ⟨mid, first, second⟩
    obtain rfl := reads_word.mp second
    exact (reads_header?.mp first).2
  · rintro ⟨hs, split, headed⟩
    exact ⟨_, reads_header?.mpr ⟨by simp, hs, split, headed⟩, reads_word.mpr rfl⟩

/-! ## Fields -/

theorem reads_field {f : Field} : Reads (field finish ts) f rest ↔
    ∃ front, ts = front ++ rest ∧ FieldTokens front f := by
  unfold field
  constructor
  · intro read
    obtain ⟨header, behindHeader, _, first, read⟩ := read.of_bind
    obtain ⟨⟨name, p⟩, behindName, _, second, read⟩ := read.of_bind
    obtain ⟨q, behindColon, _, colon, read⟩ := read.of_bind
    obtain ⟨t, behind, _, type, read⟩ := read.of_bind
    simp only [reads_ok] at read
    obtain ⟨rfl, rfl⟩ := read
    obtain ⟨hs, rfl, headed⟩ := reads_headed.mp ⟨_, first, second⟩
    obtain rfl := reads_symbol.mp colon
    obtain ⟨us, rfl, spelled⟩ := reads_typeExpr.mp type
    exact ⟨hs ++ ⟨.word name, p⟩ :: ⟨.symbol ':', q⟩ :: us, by simp, .mk headed spelled⟩
  · rintro ⟨front, split, spelled⟩
    cases spelled with
    | @mk hs us header name t p q headed type =>
        simp only [List.cons_append, List.append_assoc] at split
        obtain ⟨mid, first, second⟩ := reads_headed.mpr ⟨hs, split, headed⟩
        refine first.bind fun _ => second.bind fun _ => (reads_symbol.mpr rfl).bind fun _ => ?_
        exact (reads_typeExpr.mpr ⟨us, rfl, type⟩).bind fun _ => reads_ok.mpr ⟨rfl, rfl⟩

theorem reads_fields {fs : List Field} : Reads (fields finish ts) fs rest ↔
    ∃ front p, ts = front ++ ⟨.symbol '\x7d', p⟩ :: rest ∧ Listed FieldTokens front fs :=
  reads_items (by decide) (fun _ _ spelled _ => spelled.front (by decide))
    fun _ _ _ _ _ => reads_field

/-! ## Variants -/

theorem reads_tuple {items : List TypeExpr} :
    Reads (Reading.items finish ')' ts (fun us _ => typeExpr finish us) ts (Nat.le_refl _)) items
        rest ↔
      ∃ front p, ts = front ++ ⟨.symbol ')', p⟩ :: rest ∧ Listed ExpressionTokens front items :=
  reads_values fun _ _ _ _ => reads_typeExpr

/-- A payload is read from its tokens; there may be none. -/
theorem spelled_of_reads_payload {carried : Payload}
    (read : Reads (payload finish ts) carried rest) :
    ∃ front, ts = front ++ rest ∧ PayloadTokens front carried := by
  rcases ts with - | ⟨⟨lexeme, p⟩, left⟩
  · obtain ⟨rfl, rfl⟩ := reads_ok.mp read
    exact ⟨[], rfl, .unit⟩
  · cases lexeme with
    | word w =>
        obtain ⟨rfl, rfl⟩ := reads_ok.mp read
        exact ⟨[], rfl, .unit⟩
    | number digits =>
        obtain ⟨rfl, rfl⟩ := reads_ok.mp read
        exact ⟨[], rfl, .unit⟩
    | symbol c =>
        simp only [payload] at read
        split_ifs at read with brace round equal
        · obtain ⟨fs, behind, _, list, read⟩ := read.of_bind
          simp only [reads_ok, Parsed.map, Parsed.weaken] at read
          obtain ⟨rfl, rfl⟩ := read
          obtain ⟨front, q, rfl, listed⟩ := reads_fields.mp list
          subst brace
          exact ⟨⟨.symbol '\x7b', p⟩ :: (front ++ [⟨.symbol '\x7d', q⟩]), by simp,
            .struct listed⟩
        · obtain ⟨ts, behind, _, list, read⟩ := read.of_bind
          simp only [reads_ok, Parsed.map, Parsed.weaken] at read
          obtain ⟨rfl, rfl⟩ := read
          obtain ⟨front, q, rfl, listed⟩ := reads_tuple.mp list
          subst round
          exact ⟨⟨.symbol '(', p⟩ :: (front ++ [⟨.symbol ')', q⟩]), by simp, .tuple listed⟩
        · obtain ⟨⟨n, q⟩, behind, _, value, read⟩ := read.of_bind
          simp only [reads_ok] at read
          obtain ⟨rfl, rfl⟩ := read
          obtain ⟨digits, fits, rfl, rfl⟩ := reads_number.mp value
          subst equal
          exact ⟨[⟨.symbol '=', p⟩, ⟨.number digits, q⟩], rfl, .int fits⟩
        · obtain ⟨rfl, rfl⟩ := reads_ok.mp read
          exact ⟨[], rfl, .unit⟩

/-- No payload is read where the list goes on or ends behind the name of the variant. -/
theorem reads_payload_of_spelled {carried : Payload} (follows : Follows '\x7d' rest)
    {front : List Token} (split : ts = front ++ rest) (spelled : PayloadTokens front carried) :
    Reads (payload finish ts) carried rest := by
  cases spelled with
  | unit =>
      obtain rfl : ts = rest := split
      rcases follows with ⟨p, left, rfl⟩ | ⟨p, left, rfl⟩ <;> exact reads_ok.mpr ⟨rfl, rfl⟩
  | @int p q digits fits =>
      simp only [List.cons_append, List.nil_append] at split
      subst split
      exact (reads_number.mpr ⟨digits, fits, rfl, rfl⟩).bind fun _ => reads_ok.mpr ⟨rfl, rfl⟩
  | @tuple p q us items inner =>
      simp only [List.cons_append, List.append_assoc, List.nil_append] at split
      subst split
      exact (reads_tuple.mpr ⟨us, q, rfl, inner⟩).bind fun _ => reads_ok.mpr ⟨rfl, rfl⟩
  | @struct p q us fs inner =>
      simp only [List.cons_append, List.append_assoc, List.nil_append] at split
      subst split
      exact (reads_fields.mpr ⟨us, q, rfl, inner⟩).bind fun _ => reads_ok.mpr ⟨rfl, rfl⟩

theorem reads_payload {carried : Payload} (follows : Follows '\x7d' rest) :
    Reads (payload finish ts) carried rest ↔
      ∃ front, ts = front ++ rest ∧ PayloadTokens front carried :=
  ⟨spelled_of_reads_payload,
    fun ⟨_, split, spelled⟩ => reads_payload_of_spelled follows split spelled⟩

theorem spelled_of_reads_variant {v : Variant} (read : Reads (variant finish ts) v rest) :
    ∃ front, ts = front ++ rest ∧ VariantTokens front v := by
  unfold variant at read
  obtain ⟨header, behindHeader, _, first, read⟩ := read.of_bind
  obtain ⟨⟨name, p⟩, behindName, _, second, read⟩ := read.of_bind
  obtain ⟨carried, behind, _, third, read⟩ := read.of_bind
  simp only [reads_ok] at read
  obtain ⟨rfl, rfl⟩ := read
  obtain ⟨hs, rfl, headed⟩ := reads_headed.mp ⟨_, first, second⟩
  obtain ⟨us, rfl, spelled⟩ := spelled_of_reads_payload third
  exact ⟨hs ++ ⟨.word name, p⟩ :: us, by simp, .mk headed spelled⟩

theorem reads_variant {v : Variant} (follows : Follows '\x7d' rest) :
    Reads (variant finish ts) v rest ↔ ∃ front, ts = front ++ rest ∧ VariantTokens front v := by
  constructor
  · exact spelled_of_reads_variant
  · rintro ⟨front, split, spelled⟩
    unfold variant
    cases spelled with
    | @mk hs us header name carried p headed payload =>
        simp only [List.cons_append, List.append_assoc] at split
        obtain ⟨mid, first, second⟩ := reads_headed.mpr ⟨hs, split, headed⟩
        refine first.bind fun _ => second.bind fun _ => ?_
        exact ((reads_payload follows).mpr ⟨us, rfl, payload⟩).bind fun _ => reads_ok.mpr ⟨rfl, rfl⟩

theorem reads_variants {vs : List Variant} :
    Reads (items finish '\x7d' ts (fun us _ => variant finish us) ts (Nat.le_refl _)) vs rest ↔
      ∃ front p, ts = front ++ ⟨.symbol '\x7d', p⟩ :: rest ∧ Listed VariantTokens front vs :=
  reads_items (by decide) (fun _ _ spelled _ => spelled.front (by decide))
    fun _ _ _ _ follows => reads_variant follows

/-! ## Types -/

theorem reads_kind {k : Kind} :
    Reads (kind finish ts) k rest ↔ ∃ p, ts = ⟨.word k.name, p⟩ :: rest := by
  constructor
  · intro read
    rcases ts with - | ⟨⟨lexeme, q⟩, left⟩
    · exact absurd read not_reads_error
    · cases lexeme with
      | number digits => exact absurd read not_reads_error
      | symbol c => exact absurd read not_reads_error
      | word w =>
          simp only [kind] at read
          split_ifs at read with isStruct isNode isEnum
          · obtain ⟨rfl, rfl⟩ := reads_ok.mp read
            exact ⟨q, by rw [isStruct]; rfl⟩
          · obtain ⟨rfl, rfl⟩ := reads_ok.mp read
            exact ⟨q, by rw [isNode]; rfl⟩
          · obtain ⟨rfl, rfl⟩ := reads_ok.mp read
            exact ⟨q, by rw [isEnum]; rfl⟩
          · exact absurd read not_reads_error
  · rintro ⟨p, rfl⟩
    cases k <;> exact reads_ok.mpr ⟨rfl, rfl⟩

theorem reads_body {k : Kind} {members : Body} :
    Reads (body finish k ts) members rest ↔
      ∃ front p, ts = front ++ ⟨.symbol '\x7d', p⟩ :: rest ∧ BodyTokens k front members := by
  constructor
  · intro read
    cases k with
    | enum =>
        obtain ⟨vs, behind, _, list, read⟩ := read.of_bind
        simp only [reads_ok, Parsed.map] at read
        obtain ⟨rfl, rfl⟩ := read
        obtain ⟨front, p, split, listed⟩ := reads_variants.mp list
        exact ⟨front, p, split, .enum listed⟩
    | struct =>
        obtain ⟨fs, behind, _, list, read⟩ := read.of_bind
        simp only [reads_ok, Parsed.map] at read
        obtain ⟨rfl, rfl⟩ := read
        obtain ⟨front, p, split, listed⟩ := reads_fields.mp list
        exact ⟨front, p, split, .struct listed⟩
    | node =>
        obtain ⟨fs, behind, _, list, read⟩ := read.of_bind
        simp only [reads_ok, Parsed.map] at read
        obtain ⟨rfl, rfl⟩ := read
        obtain ⟨front, p, split, listed⟩ := reads_fields.mp list
        exact ⟨front, p, split, .node listed⟩
  · rintro ⟨front, p, split, spelled⟩
    cases spelled with
    | enum variants =>
        exact (reads_variants.mpr ⟨front, p, split, variants⟩).bind fun _ => reads_ok.mpr ⟨rfl, rfl⟩
    | struct fields =>
        exact (reads_fields.mpr ⟨front, p, split, fields⟩).bind fun _ => reads_ok.mpr ⟨rfl, rfl⟩
    | node fields =>
        exact (reads_fields.mpr ⟨front, p, split, fields⟩).bind fun _ => reads_ok.mpr ⟨rfl, rfl⟩

theorem reads_decl {d : Decl} : Reads (decl finish ts) d rest ↔
    ∃ front, ts = front ++ rest ∧ DeclTokens front d := by
  unfold decl
  constructor
  · intro read
    obtain ⟨header, behindHeader, _, first, read⟩ := read.of_bind
    obtain ⟨k, behindKind, _, second, read⟩ := read.of_bind
    obtain ⟨⟨name, q⟩, behindName, _, third, read⟩ := read.of_bind
    obtain ⟨r, behindOpening, _, opening, read⟩ := read.of_bind
    obtain ⟨members, behind, _, inner, read⟩ := read.of_bind
    simp only [reads_ok] at read
    obtain ⟨rfl, rfl⟩ := read
    obtain ⟨-, hs, rfl, headed⟩ := reads_header?.mp first
    obtain ⟨p, rfl⟩ := reads_kind.mp second
    obtain rfl := reads_word.mp third
    obtain rfl := reads_symbol.mp opening
    obtain ⟨us, s, rfl, spelled⟩ := reads_body.mp inner
    refine ⟨hs ++ ⟨.word k.name, p⟩ :: ⟨.word name, q⟩ :: ⟨.symbol '\x7b', r⟩ ::
      (us ++ [⟨.symbol '\x7d', s⟩]), by simp, .mk headed spelled⟩
  · rintro ⟨front, split, spelled⟩
    cases spelled with
    | @mk hs us header k name members p q r s headed inner =>
        simp only [List.cons_append, List.append_assoc, List.nil_append] at split
        refine (reads_header?.mpr ⟨by simp, hs, split, headed⟩).bind fun _ => ?_
        refine (reads_kind.mpr ⟨p, rfl⟩).bind fun _ => (reads_word.mpr rfl).bind fun _ => ?_
        refine (reads_symbol.mpr rfl).bind fun _ => ?_
        exact (reads_body.mpr ⟨us, s, rfl, inner⟩).bind fun _ => reads_ok.mpr ⟨rfl, rfl⟩

theorem decls_of_ne_nil (some : ts ≠ []) :
    decls finish ts = decl finish ts >>= fun first =>
      decls finish first.rest >>= fun more => .ok (first.value :: more) := by
  cases ts with
  | nil => exact absurd rfl some
  | cons token rest => rw [decls]

theorem decls_eq_ok_iff {ds : List Decl} : decls finish ts = .ok ds ↔ SchemaTokens ts ds := by
  constructor
  · intro read
    induction ts using shorter_induction generalizing ds with
    | _ ts ih =>
    by_cases empty : ts = []
    · subst empty
      rw [decls] at read
      cases read
      exact .nil
    · rw [decls_of_ne_nil empty] at read
      obtain ⟨⟨d, behind, shorter⟩, first, read⟩ := bind_eq_ok_iff.mp read
      obtain ⟨others, more, read⟩ := bind_eq_ok_iff.mp read
      cases read
      obtain ⟨front, rfl, spelled⟩ := reads_decl.mp ⟨shorter, first⟩
      exact .cons spelled (ih _ shorter more)
  · intro spelled
    induction spelled with
    | nil => rw [decls]
    | @cons us vs d others first rest ih =>
        have read : Reads (decl finish (us ++ vs)) d vs := reads_decl.mpr ⟨us, rfl, first⟩
        obtain ⟨shorter, run⟩ := read
        have some : us ++ vs ≠ [] := List.ne_nil_of_length_pos (Nat.zero_lt_of_lt shorter)
        rw [decls_of_ne_nil some, run]
        exact bind_eq_ok_iff.mpr ⟨_, rfl, bind_eq_ok_iff.mpr ⟨others, ih, rfl⟩⟩

end Reading

namespace Grammar

theorem SchemaTokens.append {ts us : List Token} {ds es : List Decl} (first : SchemaTokens ts ds)
    (second : SchemaTokens us es) : SchemaTokens (ts ++ us) (ds ++ es) := by
  induction first with
  | nil => exact second
  | cons first rest ih =>
      rw [List.append_assoc, List.cons_append]
      exact .cons first ih

theorem SchemaTokens.single {ts : List Token} {d : Decl} (only : DeclTokens ts d) :
    SchemaTokens ts [d] := by
  rw [← List.append_nil ts]
  exact .cons only .nil

theorem SchemaTokens.unique {ts : List Token} {ds others : List Decl} (first : SchemaTokens ts ds)
    (second : SchemaTokens ts others) : ds = others := by
  have finish : Position := ⟨.null, .null, none⟩
  have left : Reading.decls finish ts = .ok ds := Reading.decls_eq_ok_iff.mpr first
  have right : Reading.decls finish ts = .ok others := Reading.decls_eq_ok_iff.mpr second
  exact Except.ok.inj (left.symm.trans right)

end Grammar

/-- What is read from a text is what its tokens spell. -/
theorem schemaTokens_of_text {text : Text} {file : Option Text} {decls : List Decl}
    (read : declarationsOfText text file = .ok decls) :
    SchemaTokens (scan text file).tokens decls := by
  unfold declarationsOfText at read
  cases ending : (scan text file).ending with
  | error fault =>
      rw [ending] at read
      cases read
  | ok finish =>
      rw [ending] at read
      exact Reading.decls_eq_ok_iff.mp read

end SchemaHistory
