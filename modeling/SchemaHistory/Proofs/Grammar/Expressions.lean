import SchemaHistory.Proofs.Grammar.Reading

/-! # Reading type expressions

A type expression is read exactly from the tokens that spell it, whatever follows them: no
expression is the beginning of a longer one.  Each way to start an expression has its own lemma, and
`reads_typeExpr` puts them together by induction on the number of tokens. -/
set_option autoImplicit false
namespace SchemaHistory

open Grammar

theorem Primitive.named?_eq_none_iff {w : Text} :
    named? w = none ↔ ∀ kind : Primitive, w ≠ kind.name := by
  simp only [named?, List.find?_eq_none, decide_eq_true_eq]
  exact ⟨fun other kind same => other kind (mem_all kind) same.symm,
    fun other kind _ same => other kind same.symm⟩

namespace Reading
variable {finish : Position} {ts rest : List Token} {p : Position} {t : TypeExpr}

theorem expressionTokens_word {w : Text} (notRef : w ≠ "ref") (notOpt : w ≠ "opt") :
    ExpressionTokens [⟨.word w, p⟩] (.ofWord w (some p)) := by
  unfold TypeExpr.ofWord
  cases primitive : Primitive.named? w with
  | some kind =>
      rw [← Primitive.name_of_named? primitive]
      exact .primitive kind
  | none => exact .named notRef notOpt (Primitive.named?_eq_none_iff.mp primitive)

theorem reads_bracketEnd {inner : TypeExpr} :
    Reads (bracketEnd finish inner p ts) t rest ↔
      (∃ q, ts = ⟨.symbol ']', q⟩ :: rest ∧ t = .slice inner (some p)) ∨
        ∃ q r s digits, Fits digits ∧
          ts = ⟨.symbol ';', q⟩ :: ⟨.number digits, r⟩ :: ⟨.symbol ']', s⟩ :: rest ∧
          t = .array inner (.int (Text.digitsValue digits)) (some p) := by
  unfold bracketEnd
  by_cases starts : StartsWith ';' ts
  · obtain ⟨q, left, rfl⟩ := starts
    rw [symbol?_symbol]
    constructor
    · intro read
      obtain ⟨⟨n, r⟩, behindSize, _, size, read⟩ := read.of_bind
      obtain ⟨s, behind, _, closing, read⟩ := read.of_bind
      simp only [reads_ok] at read size
      obtain ⟨rfl, rfl⟩ := read
      obtain ⟨digits, fits, rfl, rfl⟩ := reads_number.mp size
      obtain rfl := reads_symbol.mp closing
      exact .inr ⟨q, r, s, digits, fits, rfl, rfl⟩
    · rintro (⟨_, ⟨⟩, -⟩ | ⟨_, r, s, digits, fits, ⟨⟩, rfl⟩)
      refine (reads_number.mpr ⟨digits, fits, rfl, rfl⟩).bind fun _ => ?_
      exact (reads_symbol.mpr rfl).bind fun _ => reads_ok.mpr ⟨rfl, rfl⟩
  · rw [symbol?_eq_none starts]
    constructor
    · intro read
      obtain ⟨q, behind, _, closing, read⟩ := read.of_bind
      simp only [reads_ok] at read
      obtain ⟨rfl, rfl⟩ := read
      exact .inl ⟨q, reads_symbol.mp closing, rfl⟩
    · rintro (⟨q, rfl, rfl⟩ | ⟨q, r, s, digits, -, rfl, -⟩)
      · exact (reads_symbol.mpr rfl).bind fun _ => reads_ok.mpr ⟨rfl, rfl⟩
      · exact absurd ⟨q, _, rfl⟩ starts

/-! ## The ways to start an expression -/

theorem reads_square :
    Reads (typeExpr finish (⟨.symbol '[', p⟩ :: ts)) t rest ↔
      ∃ inner mid, Reads (typeExpr finish ts) inner mid ∧
        Reads (bracketEnd finish inner p mid) t rest := by
  rw [typeExpr, if_pos rfl]
  constructor
  · intro read
    obtain ⟨inner, mid, _, first, read⟩ := read.of_bind
    obtain ⟨closed, left, _, second, read⟩ := read.of_bind
    simp only [reads_ok] at read
    obtain ⟨rfl, rfl⟩ := read
    exact ⟨inner, mid, first, second⟩
  · rintro ⟨inner, mid, first, second⟩
    exact first.bind fun _ => second.bind fun _ => reads_ok.mpr ⟨rfl, rfl⟩

theorem reads_round :
    Reads (typeExpr finish (⟨.symbol '(', p⟩ :: ts)) t rest ↔
      ∃ inner, t = .tuple inner (some p) ∧
        Reads (items finish ')' ts (fun us _ => typeExpr finish us) ts (Nat.le_refl _)) inner
          rest := by
  rw [typeExpr, if_neg (by decide), if_pos rfl]
  constructor
  · intro read
    obtain ⟨inner, mid, _, first, read⟩ := read.of_bind
    simp only [reads_ok] at read
    obtain ⟨rfl, rfl⟩ := read
    exact ⟨inner, rfl, first⟩
  · rintro ⟨inner, rfl, first⟩
    exact first.bind fun _ => reads_ok.mpr ⟨rfl, rfl⟩

theorem reads_wrapped {w : Text} (wraps : w = "ref" ∨ w = "opt") :
    Reads (typeExpr finish (⟨.word w, p⟩ :: ts)) t rest ↔
      ∃ q us inner r, ts = ⟨.symbol '<', q⟩ :: us ∧
        Reads (typeExpr finish us) inner (⟨.symbol '>', r⟩ :: rest) ∧
        t = (if w = "ref" then TypeExpr.reference else TypeExpr.optional) inner (some p) := by
  rw [typeExpr, if_pos wraps]
  constructor
  · intro read
    obtain ⟨q, us, _, opening, read⟩ := read.of_bind
    obtain ⟨inner, mid, _, first, read⟩ := read.of_bind
    obtain ⟨r, left, _, closing, read⟩ := read.of_bind
    simp only [reads_ok] at read
    obtain ⟨rfl, rfl⟩ := read
    obtain rfl := reads_symbol.mp closing
    exact ⟨q, us, inner, r, reads_symbol.mp opening, first, rfl⟩
  · rintro ⟨q, us, inner, r, rfl, first, rfl⟩
    refine (reads_symbol.mpr rfl).bind fun _ => first.bind fun _ => ?_
    exact (reads_symbol.mpr rfl).bind fun _ => reads_ok.mpr ⟨rfl, rfl⟩

theorem reads_lone {w : Text} (alone : ¬(w = "ref" ∨ w = "opt")) :
    Reads (typeExpr finish (⟨.word w, p⟩ :: ts)) t rest ↔
      TypeExpr.ofWord w (some p) = t ∧ ts = rest := by
  rw [typeExpr, if_neg alone]
  exact reads_ok

/-! ## All expressions -/

def ReadsExpression (finish : Position) (ts : List Token) : Prop :=
  ∀ t rest, Reads (typeExpr finish ts) t rest ↔
    ∃ front, ts = front ++ rest ∧ ExpressionTokens front t

/-- The items of a tuple, where the reader is known to be right about each of them. -/
theorem reads_values {whole : List Token} {xs : List TypeExpr} {inside : ts.length ≤ whole.length}
    (reads : ∀ us : List Token, us.length ≤ whole.length → ReadsExpression finish us) :
    Reads (items finish ')' whole (fun us _ => typeExpr finish us) ts inside) xs rest ↔
      ∃ front p, ts = front ++ ⟨.symbol ')', p⟩ :: rest ∧ Listed ExpressionTokens front xs :=
  reads_items (by decide) (fun _ _ spelled _ => spelled.front (by decide) (by decide))
    fun us inside t rest _ => reads us inside t rest

section
variable (shorter : ∀ us : List Token, us.length < ts.length → ReadsExpression finish us)
include shorter

/-- What is read is spelled by the tokens that are gone. -/
theorem spelled_of_reads (read : Reads (typeExpr finish ts) t rest) :
    ∃ front, ts = front ++ rest ∧ ExpressionTokens front t := by
  rcases ts with - | ⟨⟨lexeme, p⟩, us⟩
  · simp [typeExpr] at read
  · cases lexeme with
    | number digits => simp [typeExpr] at read
    | word w =>
        by_cases wraps : w = "ref" ∨ w = "opt"
        · obtain ⟨q, vs, inner, r, rfl, first, rfl⟩ := (reads_wrapped wraps).mp read
          have short : vs.length < (⟨.word w, p⟩ :: ⟨.symbol '<', q⟩ :: vs).length :=
            Nat.lt_succ_of_lt (Nat.lt_succ_self _)
          obtain ⟨front, rfl, spelled⟩ := (shorter vs short _ _).mp first
          refine ⟨⟨.word w, p⟩ :: ⟨.symbol '<', q⟩ :: (front ++ [⟨.symbol '>', r⟩]), by simp, ?_⟩
          rcases wraps with rfl | rfl
          · exact .reference spelled
          · exact .optional spelled
        · obtain ⟨rfl, rfl⟩ := (reads_lone wraps).mp read
          exact ⟨[⟨.word w, p⟩], rfl,
            expressionTokens_word (fun same => wraps (.inl same)) fun same => wraps (.inr same)⟩
    | symbol c =>
        by_cases square : c = '['
        · subst square
          obtain ⟨inner, mid, first, second⟩ := reads_square.mp read
          obtain ⟨front, rfl, spelled⟩ := (shorter us (Nat.lt_succ_self _) _ _).mp first
          rcases reads_bracketEnd.mp second with
            ⟨q, rfl, rfl⟩ | ⟨q, r, s, digits, fits, rfl, rfl⟩
          · exact ⟨⟨.symbol '[', p⟩ :: (front ++ [⟨.symbol ']', q⟩]), by simp, .slice spelled⟩
          · exact ⟨⟨.symbol '[', p⟩ ::
                (front ++ [⟨.symbol ';', q⟩, ⟨.number digits, r⟩, ⟨.symbol ']', s⟩]),
              by simp, .array spelled fits⟩
        · by_cases round : c = '('
          · subst round
            obtain ⟨inner, rfl, list⟩ := reads_round.mp read
            obtain ⟨front, q, rfl, listed⟩ :=
              (reads_values fun vs short => shorter vs (Nat.lt_succ_of_le short)).mp list
            exact ⟨⟨.symbol '(', p⟩ :: (front ++ [⟨.symbol ')', q⟩]), by simp, .tuple listed⟩
          · rw [typeExpr, if_neg square, if_neg round] at read
            exact absurd read not_reads_error

/-- What the tokens spell is read, whatever follows. -/
theorem reads_of_spelled {front : List Token} (split : ts = front ++ rest)
    (spelled : ExpressionTokens front t) : Reads (typeExpr finish ts) t rest := by
  have inside {us left : List Token} {t : TypeExpr} (inner : ExpressionTokens us t)
      (short : (us ++ left).length < ts.length) : Reads (typeExpr finish (us ++ left)) t left :=
    (shorter _ short t left).mpr ⟨us, rfl, inner⟩
  cases spelled with
  | primitive kind =>
      have alone : ¬(Text.ofString kind.name = "ref" ∨ Text.ofString kind.name = "opt") := by
        cases kind <;> decide
      subst split
      refine (reads_lone alone).mpr ⟨?_, rfl⟩
      simp only [TypeExpr.ofWord, Primitive.named?_name]
  | named notRef notOpt notPrimitive =>
      subst split
      refine (reads_lone fun wraps => wraps.elim notRef notOpt).mpr ⟨?_, rfl⟩
      simp only [TypeExpr.ofWord, Primitive.named?_eq_none_iff.mpr notPrimitive]
  | @reference p q r us t inner =>
      simp only [List.cons_append, List.append_assoc, List.nil_append] at split
      subst split
      have first : Reads _ t (⟨.symbol '>', r⟩ :: rest) :=
        inside inner (Nat.lt_succ_of_lt (Nat.lt_succ_self _))
      exact (reads_wrapped (.inl rfl)).mpr ⟨q, _, t, r, rfl, first, rfl⟩
  | @optional p q r us t inner =>
      simp only [List.cons_append, List.append_assoc, List.nil_append] at split
      subst split
      have first : Reads _ t (⟨.symbol '>', r⟩ :: rest) :=
        inside inner (Nat.lt_succ_of_lt (Nat.lt_succ_self _))
      exact (reads_wrapped (.inr rfl)).mpr ⟨q, _, t, r, rfl, first, rfl⟩
  | @slice p q us t inner =>
      simp only [List.cons_append, List.append_assoc, List.nil_append] at split
      subst split
      have first : Reads _ t (⟨.symbol ']', q⟩ :: rest) :=
        inside inner (Nat.lt_succ_self _)
      exact reads_square.mpr ⟨t, _, first, reads_bracketEnd.mpr (.inl ⟨q, rfl, rfl⟩)⟩
  | @array p q r s us t digits inner fits =>
      simp only [List.cons_append, List.append_assoc, List.nil_append] at split
      subst split
      have first :
          Reads _ t (⟨.symbol ';', q⟩ :: ⟨.number digits, r⟩ :: ⟨.symbol ']', s⟩ :: rest) :=
        inside inner (Nat.lt_succ_self _)
      refine reads_square.mpr ⟨t, _, first, reads_bracketEnd.mpr (.inr ?_)⟩
      exact ⟨q, r, s, digits, fits, rfl, rfl⟩
  | @tuple p q us xs inner =>
      simp only [List.cons_append, List.append_assoc, List.nil_append] at split
      subst split
      refine reads_round.mpr ⟨xs, rfl, ?_⟩
      have right (vs : List Token) (short : vs.length ≤ (us ++ ⟨.symbol ')', q⟩ :: rest).length) :
          ReadsExpression finish vs := shorter vs (Nat.lt_succ_of_le short)
      exact (reads_values right).mpr ⟨us, q, rfl, inner⟩

end

/-- A type expression is read exactly from the tokens that spell it. -/
theorem reads_typeExpr : Reads (typeExpr finish ts) t rest ↔
    ∃ front, ts = front ++ rest ∧ ExpressionTokens front t := by
  have all : ReadsExpression finish ts := by
    induction ts using shorter_induction with
    | _ ts ih =>
    have shorter (us : List Token) (short : us.length < ts.length) : ReadsExpression finish us :=
      ih _ short
    intro t rest
    constructor
    · exact spelled_of_reads shorter
    · rintro ⟨front, split, spelled⟩
      exact reads_of_spelled shorter split spelled
  exact all t rest

end Reading
end SchemaHistory
