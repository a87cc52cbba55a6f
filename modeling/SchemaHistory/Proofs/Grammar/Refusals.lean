import SchemaHistory.Proofs.Grammar.Overruns

/-! # Where a schema is refused

Each reader of a member, a type or a schema refuses in front of a token, or at the end, up to which
the tokens are tenable.  For the whole schema nothing is taken before (`decls_refused`). -/
set_option autoImplicit false
namespace SchemaHistory

open Grammar

namespace Reading
variable {finish : Position} {taken ts : List Token}

/-! ## Members -/

theorem refuses_field (goes : ∀ front f, FieldTokens front f → Begins (taken ++ front)) :
    Refuses finish taken ts (field finish ts) := by
  have byte := byte_spelled finish
  have named (hs : List Token) (header : Option Header) (w : Text) (p : Position)
      (headed : HeadedTokens hs header) : Begins (taken ++ hs ++ [⟨.word w, p⟩]) := by
    have whole : FieldTokens (hs ++ ⟨.word w, p⟩ :: ⟨.symbol ':', finish⟩ ::
        [⟨.word "u8", finish⟩]) ⟨.str w, _, header, some p⟩ := .mk headed byte
    exact (goes _ _ whole).cut [⟨.symbol ':', finish⟩, ⟨.word "u8", finish⟩] rfl (by simp)
  have headed (hs : List Token) (header : Option Header) (headed : HeadedTokens hs header) :
      Begins (taken ++ hs) := (named hs header "f" finish headed).of_append rfl
  unfold field
  refine (refuses_header? (fun hs h spelled => headed hs h (.some spelled)) .field).bind
    fun header mid _ read => ?_
  obtain ⟨-, hs, rfl, own⟩ := reads_header?.mp read
  refine Refuses.behind hs ?_
  refine (refuses_word (.inl (headed hs header own)) .fieldName).bind fun a mid _ read => ?_
  obtain ⟨w, p⟩ := a
  obtain rfl := reads_word.mp read
  refine Refuses.behind [⟨.word w, p⟩] ?_
  refine (refuses_symbol (.inl (named hs header w p own)) ':').bind fun q mid _ read => ?_
  obtain rfl := reads_symbol.mp read
  refine Refuses.behind [⟨.symbol ':', q⟩] ?_
  refine (refuses_typeExpr mid _ fun front t spelled => ?_).bind fun _ _ _ _ => refuses_ok
  have whole : FieldTokens (hs ++ ⟨.word w, p⟩ :: ⟨.symbol ':', q⟩ :: front)
      ⟨.str w, t, header, some p⟩ := .mk own spelled
  exact (goes _ _ whole).cut [] rfl (by simp)

theorem refuses_fields
    (goes : ∀ front fs, Listed FieldTokens front fs →
      Begins (taken ++ (front ++ [⟨.symbol '\x7d', finish⟩]))) :
    Refuses finish taken ts (fields finish ts) :=
  refuses_items (by decide) rfl (fun _ _ _ => refuses_field)
    (fun _ _ _ _ read => reads_field.mp read) goes

theorem refuses_payload
    (goes : ∀ front payload, PayloadTokens front payload → Begins (taken ++ front)) :
    Refuses finish taken ts (payload finish ts) := by
  rcases ts with - | ⟨⟨lexeme, p⟩, rest⟩
  · exact refuses_ok
  cases lexeme with
  | word w => exact refuses_ok
  | number digits => exact refuses_ok
  | symbol c =>
      simp only [payload]
      split_ifs with brace round equals
      · subst brace
        refine Refuses.behind [⟨.symbol '\x7b', p⟩] ?_
        refine (refuses_fields fun front fs listed => ?_).bind fun _ _ _ _ => refuses_ok
        exact (goes _ _ (.struct listed (p := p) (q := finish))).cut [] rfl (by simp)
      · subst round
        refine Refuses.behind [⟨.symbol '(', p⟩] ?_
        refine (refuses_items (by decide) rfl (fun taken us _ => refuses_typeExpr us taken)
          (fun _ _ _ _ read => reads_typeExpr.mp read) fun front items listed => ?_).bind
          fun _ _ _ _ => refuses_ok
        exact (goes _ _ (.tuple listed (p := p) (q := finish))).cut [] rfl (by simp)
      · subst equals
        refine Refuses.behind [⟨.symbol '=', p⟩] ?_
        have opened : Begins (taken ++ [⟨.symbol '=', p⟩]) :=
          (goes _ _ (.int fits_zero (p := p) (q := finish))).cut [⟨.number "0", finish⟩] rfl
            (by simp)
        exact (refuses_number (.inl opened) .discriminant).bind fun _ _ _ _ => refuses_ok
      · exact refuses_ok

theorem refuses_variant (goes : ∀ front v, VariantTokens front v → Begins (taken ++ front)) :
    Refuses finish taken ts (variant finish ts) := by
  have headed (hs : List Token) (header : Option Header) (headed : HeadedTokens hs header) :
      Begins (taken ++ hs) := by
    have whole : VariantTokens (hs ++ [⟨.word "V", finish⟩])
        ⟨.str "V", .unit, header, some finish⟩ := .mk headed .unit
    exact (goes _ _ whole).cut [⟨.word "V", finish⟩] rfl (List.append_assoc ..).symm
  unfold variant
  refine (refuses_header? (fun hs h spelled => headed hs h (.some spelled)) .variant).bind
    fun header mid _ read => ?_
  obtain ⟨-, hs, rfl, own⟩ := reads_header?.mp read
  refine Refuses.behind hs ?_
  refine (refuses_word (.inl (headed hs header own)) .variantName).bind fun a mid _ read => ?_
  obtain ⟨w, p⟩ := a
  obtain rfl := reads_word.mp read
  refine Refuses.behind [⟨.word w, p⟩] ?_
  refine (refuses_payload fun front payload carried => ?_).bind fun _ _ _ _ => refuses_ok
  have whole : VariantTokens (hs ++ ⟨.word w, p⟩ :: front) ⟨.str w, payload, header, some p⟩ :=
    .mk own carried
  exact (goes _ _ whole).cut [] rfl (by simp)

/-! ## Types -/

theorem refuses_body {k : Kind}
    (goes : ∀ front members, BodyTokens k front members →
      Begins (taken ++ (front ++ [⟨.symbol '\x7d', finish⟩]))) :
    Refuses finish taken ts (body finish k ts) := by
  cases k with
  | enum =>
      refine (refuses_items (by decide) rfl (fun _ _ _ => refuses_variant)
        (fun _ _ _ _ => spelled_of_reads_variant) fun front vs listed => ?_).bind
        fun _ _ _ _ => refuses_ok
      exact goes front _ (.enum listed)
  | struct =>
      exact (refuses_fields fun front fs listed => goes front _ (.struct listed)).bind
        fun _ _ _ _ => refuses_ok
  | node =>
      exact (refuses_fields fun front fs listed => goes front _ (.node listed)).bind
        fun _ _ _ _ => refuses_ok

theorem bodyTokens_nil (k : Kind) : ∃ members, BodyTokens k [] members := by
  cases k with
  | struct => exact ⟨_, .struct .none⟩
  | node => exact ⟨_, .node .none⟩
  | enum => exact ⟨_, .enum .none⟩

theorem refuses_decl (goes : ∀ front d, DeclTokens front d → Begins (taken ++ front)) :
    Refuses finish taken ts (decl finish ts) := by
  have whole (hs : List Token) (header : Option Header) (k : Kind) (p : Position) (w : Text)
      (q r : Position) (us : List Token) (members : Body) (headed : HeadedTokens hs header)
      (inner : BodyTokens k us members) :
      Begins (taken ++ hs ++ [⟨.word k.name, p⟩] ++ [⟨.word w, q⟩] ++ [⟨.symbol '\x7b', r⟩] ++
        (us ++ [⟨.symbol '\x7d', finish⟩])) := by
    have spelled : DeclTokens (hs ++ ⟨.word k.name, p⟩ :: ⟨.word w, q⟩ :: ⟨.symbol '\x7b', r⟩ ::
        (us ++ [⟨.symbol '\x7d', finish⟩])) ⟨.str w, members, header, some q⟩ := .mk headed inner
    exact (goes _ _ spelled).cut [] rfl (by simp)
  have named (hs : List Token) (header : Option Header) (k : Kind) (p : Position) (w : Text)
      (q : Position) (headed : HeadedTokens hs header) :
      Begins (taken ++ hs ++ [⟨.word k.name, p⟩] ++ [⟨.word w, q⟩]) := by
    obtain ⟨members, inner⟩ := bodyTokens_nil k
    exact ((whole hs header k p w q finish [] members headed inner).of_append rfl).of_append rfl
  have begun (hs : List Token) (header : Option Header) (headed : HeadedTokens hs header) :
      Begins (taken ++ hs) :=
    ((named hs header .struct finish "S" finish headed).of_append rfl).of_append rfl
  unfold decl
  refine (refuses_header? (fun hs h spelled => begun hs h (.some spelled)) .type).bind
    fun header mid _ read => ?_
  obtain ⟨-, hs, rfl, own⟩ := reads_header?.mp read
  refine Refuses.behind hs ?_
  refine (refuses_kind (.inl (begun hs header own))).bind fun k mid _ read => ?_
  obtain ⟨p, rfl⟩ := reads_kind.mp read
  refine Refuses.behind [⟨.word k.name, p⟩] ?_
  have unnamed := (named hs header k p "S" finish own).of_append rfl
  refine (refuses_word (.inl unnamed) .typeName).bind fun a mid _ read => ?_
  obtain ⟨w, q⟩ := a
  obtain rfl := reads_word.mp read
  refine Refuses.behind [⟨.word w, q⟩] ?_
  refine (refuses_symbol (.inl (named hs header k p w q own)) '\x7b').bind fun r mid _ read => ?_
  obtain rfl := reads_symbol.mp read
  refine Refuses.behind [⟨.symbol '\x7b', r⟩] ?_
  exact (refuses_body fun us members inner => whole hs header k p w q r us members own inner).bind
    fun _ _ _ _ => refuses_ok

/-! ## Schemas -/

theorem refuses_decls {ds : List Decl} (spelled : SchemaTokens taken ds) :
    Refuses finish taken ts (decls finish ts) := by
  induction ts using shorter_induction generalizing taken ds with
  | _ ts ih =>
  by_cases empty : ts = []
  · rw [empty, decls]
    exact refuses_ok
  · have goes (front : List Token) (d : Decl) (own : DeclTokens front d) :
        SchemaTokens (taken ++ front) (ds ++ [d]) := spelled.append (.single own)
    rw [decls_of_ne_nil empty]
    refine (refuses_decl fun front d own => ⟨[], rfl, ds ++ [d], ?_⟩).bind
      fun d mid shorter read => ?_
    · rw [List.append_nil]
      exact goes front d own
    · obtain ⟨front, rfl, own⟩ := reads_decl.mp read
      refine Refuses.behind front (Refuses.check ?_ fun _ _ => refuses_ok)
      exact ih _ shorter (goes front d own)

/-- A schema is refused in front of a token, or at its end, up to which its tokens are tenable. -/
theorem decls_refused {m : Misreading} (refused : decls finish ts = .error m) :
    ∃ front back, ts = front ++ back ∧ StopsAt finish back m ∧ Tenable front :=
  refuses_decls .nil m refused

theorem next_position (finish : Position) (ts : List Token) :
    (next finish ts).2 = finish ∨ ∃ token ∈ ts, token.position = (next finish ts).2 := by
  cases ts with
  | nil => exact .inl rfl
  | cons token rest => exact .inr ⟨token, List.mem_cons_self, rfl⟩

/-- The fault of a schema is at one of its tokens or at its end. -/
theorem fault_of_refused {d : Diagnostic} (refused : decls finish ts = .error (.fault d)) :
    ∃ fault p, d = ⟨.text fault, some p⟩ ∧ (p = finish ∨ ∃ token ∈ ts, token.position = p) := by
  obtain ⟨front, back, rfl, ⟨fault, rfl⟩, -⟩ := decls_refused refused
  refine ⟨fault, _, rfl, (next_position finish back).imp_right ?_⟩
  rintro ⟨token, member, place⟩
  exact ⟨token, List.mem_append_right _ member, place⟩

/-- A numeral ends the reading only if it is among the tokens and has too many digits. -/
theorem overlong_of_refused {numeral : Text.Overlong}
    (refused : decls finish ts = .error (.overlong numeral)) :
    ∃ digits p, ⟨.number digits, p⟩ ∈ ts ∧ Text.digitLimit < digits.length ∧
      numeral = ⟨digits.length⟩ := by
  obtain ⟨front, back, rfl, ⟨digits, p, rest, rfl, long, same⟩, -⟩ := decls_refused refused
  exact ⟨digits, p, List.mem_append_right _ List.mem_cons_self, long, same⟩

end Reading

def refusal? (text : Text) (file : Option Text) : Option Diagnostic :=
  match declarationsOfText text file with
  | .error (.fault d) => some d
  | _ => none

theorem refusal?_eq_some_iff {text : Text} {file : Option Text} {d : Diagnostic} :
    refusal? text file = some d ↔ declarationsOfText text file = .error (.fault d) := by
  unfold refusal?
  constructor
  · intro found
    split at found
    · rename_i refused
      cases found
      exact refused
    · cases found
  · intro refused
    rw [refused]

end SchemaHistory
