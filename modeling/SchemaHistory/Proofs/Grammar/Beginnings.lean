import SchemaHistory.Proofs.Grammar.Schemas
import SchemaHistory.Proofs.Source.Cuts

/-! # Beginnings of schemas

Tokens are a beginning when lexemes of the language can be put behind them so that all of them
together spell a schema.  A reader refuses a list in front of one of its tokens, and what it has
taken up to there is a beginning (`Refuses`).  Only headers are different: some are read on although
they cannot be completed any more, because the rules for a header are checked behind its closing
bracket (`Overruns`).

A reader has a lemma that asks for one thing: whatever it may read has to be the end of a beginning.
Readers are put together with `Refuses.bind`. -/
set_option autoImplicit false
namespace SchemaHistory

open Grammar

namespace Grammar

def Begins (ts : List Token) : Prop :=
  ∃ more, more.all Token.isWritable = true ∧ ∃ ds, SchemaTokens (ts ++ more) ds

theorem Begins.of_append {ts more : List Token} (begins : Begins (ts ++ more))
    (writable : more.all Token.isWritable = true) : Begins ts := by
  obtain ⟨others, written, ds, spelled⟩ := begins
  rw [List.append_assoc] at spelled
  exact ⟨more ++ others, by rw [List.all_append, writable, written]; rfl, ds, spelled⟩

/-- What is left of a beginning when tokens are taken away from its end. -/
theorem Begins.cut {whole ts : List Token} (begins : Begins whole) (more : List Token)
    (writable : more.all Token.isWritable = true) (split : whole = ts ++ more) : Begins ts := by
  subst split
  exact begins.of_append writable

theorem fits_zero : Fits "0" := by
  unfold Fits
  decide

structure Clause where
  action : Reading.Action
  digits : Text
  start : Position
  opening : Position
  version : Position
  closing : Position

def Clause.tokens (c : Clause) : List Token :=
  [⟨.word c.action.keyword, c.start⟩, ⟨.symbol '(', c.opening⟩, ⟨.number c.digits, c.version⟩,
    ⟨.symbol ')', c.closing⟩]

/-- No header begins with the tokens and the lexeme behind them, but it is read on. -/
inductive Overrun : List Token → Lexeme → Prop
  | afterRem {p q : Position} {c : Clause} (removes : c.action = .rem) :
      Overrun (⟨.symbol '#', p⟩ :: ⟨.symbol '[', q⟩ :: c.tokens) (.symbol ',')
  | addAgain {p q r : Position} {c : Clause} (adds : c.action = .add) :
      Overrun (⟨.symbol '#', p⟩ :: ⟨.symbol '[', q⟩ :: (c.tokens ++ [⟨.symbol ',', r⟩]))
        (.word "add")
  | afterBoth {p q r : Position} {c d : Clause} (adds : c.action = .add)
      (removes : d.action = .rem) :
      Overrun
        (⟨.symbol '#', p⟩ :: ⟨.symbol '[', q⟩ :: (c.tokens ++ ⟨.symbol ',', r⟩ :: d.tokens))
        (.symbol ',')

def Overruns (ts : List Token) : Prop :=
  ∃ before begun next p after, ts = before ++ begun ++ ⟨next, p⟩ :: after ∧ Overrun begun next

def Tenable (ts : List Token) : Prop := Begins ts ∨ Overruns ts

end Grammar

namespace Reading
variable {α β γ : Type} {n m : Nat} {finish : Position} {taken ts rest : List Token}

/-- A reading ends in front of these tokens: a diagnostic has the place of the first one, or of the
end of the text, and a numeral that is too long is the first one. -/
def StopsAt (finish : Position) (ts : List Token) : Misreading → Prop
  | .fault d => ∃ fault, d = ⟨.text fault, some (next finish ts).2⟩
  | .overlong numeral => ∃ digits p rest, ts = ⟨.number digits, p⟩ :: rest ∧
      Text.digitLimit < digits.length ∧ numeral = ⟨digits.length⟩

/-- A reader that has `taken` behind it and `ts` in front of it refuses them in front of one of
their tokens, or at their end, and what stands before is tenable. -/
def Refuses (finish : Position) (taken ts : List Token) (x : Except Misreading γ) : Prop :=
  ∀ m, x = .error m → ∃ front back, ts = front ++ back ∧
    StopsAt finish back m ∧ Tenable (taken ++ front)

theorem refuses_ok {c : γ} : Refuses finish taken ts (.ok c) := nofun

theorem refuses_here {m : Misreading} (tenable : Tenable taken) (here : StopsAt finish ts m) :
    Refuses finish taken ts (.error m : Except Misreading γ) := by
  rintro _ ⟨⟩
  exact ⟨[], ts, rfl, here, by rwa [List.append_nil]⟩

theorem Refuses.behind {x : Except Misreading γ} (front : List Token)
    (later : Refuses finish (taken ++ front) rest x) :
    Refuses finish taken (front ++ rest) x := by
  intro d refused
  obtain ⟨more, back, rfl, here, tenable⟩ := later d refused
  rw [List.append_assoc] at tenable
  exact ⟨front ++ more, back, (List.append_assoc ..).symm, here, tenable⟩

theorem Refuses.check {x : Except Misreading β} {f : β → Except Misreading γ}
    (first : Refuses finish taken ts x)
    (later : ∀ b, x = .ok b → Refuses finish taken ts (f b)) :
    Refuses finish taken ts (x >>= f) := by
  cases x with
  | error e =>
      rintro d ⟨⟩
      exact first _ rfl
  | ok b => exact later b rfl

theorem Refuses.bind {x : Reading α n} {f : Parsed Token α n → Except Misreading γ}
    (first : Refuses finish taken ts x)
    (later : ∀ a rest shorter, Reads x a rest → Refuses finish taken ts (f ⟨a, rest, shorter⟩)) :
    Refuses finish taken ts (x >>= f) :=
  first.check fun ⟨a, rest, shorter⟩ read => later a rest shorter ⟨shorter, read⟩

/-! ## Single tokens -/

section
variable (tenable : Tenable taken)
include tenable

theorem refuses_symbol (c : Char) : Refuses finish taken ts (symbol finish c ts) := by
  unfold symbol
  cases symbol? c ts with
  | some p => exact refuses_ok
  | none => exact refuses_here tenable ⟨_, rfl⟩

theorem refuses_word (expected : Expected) :
    Refuses finish taken ts (word finish expected ts) := by
  rcases ts with - | ⟨⟨lexeme, p⟩, rest⟩
  · exact refuses_here tenable ⟨_, rfl⟩
  · cases lexeme with
    | word w => exact refuses_ok
    | _ => exact refuses_here tenable ⟨_, rfl⟩

theorem refuses_number (role : NumberRole) :
    Refuses finish taken ts (number finish role ts) := by
  rcases ts with - | ⟨⟨lexeme, p⟩, rest⟩
  · exact refuses_here tenable ⟨_, rfl⟩
  · cases lexeme with
    | number digits =>
        rw [number_eq]
        split_ifs with long
        · exact refuses_here tenable ⟨digits, p, rest, rfl, long, rfl⟩
        · exact refuses_here tenable ⟨_, rfl⟩
        · exact refuses_ok
    | _ => exact refuses_here tenable ⟨_, rfl⟩

theorem refuses_separator (close : Char) :
    Refuses finish taken ts (separator finish close ts) := by
  rcases ts with - | ⟨⟨lexeme, p⟩, rest⟩
  · exact refuses_here tenable ⟨_, rfl⟩
  · cases lexeme with
    | symbol c =>
        simp only [separator]
        split_ifs
        · exact refuses_ok
        · exact refuses_ok
        · exact refuses_here tenable ⟨_, rfl⟩
    | _ => exact refuses_here tenable ⟨_, rfl⟩

theorem refuses_action : Refuses finish taken ts (action finish ts) := by
  rcases ts with - | ⟨⟨lexeme, p⟩, rest⟩
  · exact refuses_here tenable ⟨_, rfl⟩
  · cases lexeme with
    | word w =>
        simp only [action]
        split_ifs
        · exact refuses_ok
        · exact refuses_ok
        · exact refuses_here tenable ⟨_, rfl⟩
    | _ => exact refuses_here tenable ⟨_, rfl⟩

theorem refuses_kind : Refuses finish taken ts (kind finish ts) := by
  rcases ts with - | ⟨⟨lexeme, p⟩, rest⟩
  · exact refuses_here tenable ⟨_, rfl⟩
  · cases lexeme with
    | word w =>
        simp only [kind]
        split_ifs
        · exact refuses_ok
        · exact refuses_ok
        · exact refuses_ok
        · exact refuses_here tenable ⟨_, rfl⟩
    | _ => exact refuses_here tenable ⟨_, rfl⟩

end

/-! ## Lists -/

theorem refuses_items {close : Char} {whole : List Token} {tokens : List Token → α → Prop}
    {item : (ts : List Token) → ts.length ≤ whole.length → Reading α ts.length}
    {inside : ts.length ≤ whole.length} (notComma : close ≠ ',')
    (writable : Scan.isSymbol close = true)
    (each : ∀ taken us inside, (∀ front a, tokens front a → Begins (taken ++ front)) →
      Refuses finish taken us (item us inside))
    (reads : ∀ us inside a rest, Reads (item us inside) a rest →
      ∃ front, us = front ++ rest ∧ tokens front a)
    (goes : ∀ front xs, Listed tokens front xs →
      Begins (taken ++ (front ++ [⟨.symbol close, finish⟩]))) :
    Refuses finish taken ts (items finish close whole item ts inside) := by
  induction ts using shorter_induction generalizing taken with
  | _ ts ih =>
  -- behind the items so far the list may be closed
  have open_ (front : List Token) (xs : List α) (listed : Listed tokens front xs) :
      Begins (taken ++ front) := by
    have closed := goes front xs listed
    rw [← List.append_assoc] at closed
    exact closed.of_append (by simpa [Token.isWritable, Lexeme.isWritable] using writable)
  rw [items]
  by_cases starts : StartsWith close ts
  · obtain ⟨p, left, rfl⟩ := starts
    rw [symbol?_symbol]
    exact refuses_ok
  · rw [symbol?_eq_none starts]
    refine (each taken ts inside fun front a first => open_ front [a] (.last first)).bind
      fun a mid shorter read => ?_
    obtain ⟨front, rfl, first⟩ := reads ts inside a mid read
    refine Refuses.behind front ?_
    refine (refuses_separator (.inl (open_ front [a] (.last first))) close).bind
      fun more later behind sep => ?_
    cases more with
    | false => exact refuses_ok
    | true =>
        obtain ⟨p, rfl⟩ := (reads_separator notComma).mp sep
        have smaller : later.length < (front ++ ⟨.symbol ',', p⟩ :: later).length :=
          Nat.lt_trans behind shorter
        refine Refuses.behind [⟨.symbol ',', p⟩]
          ((ih _ smaller fun others ys listed => ?_).bind fun _ _ _ _ => refuses_ok)
        have whole := goes (front ++ ⟨.symbol ',', p⟩ :: others) (a :: ys) (.more first listed)
        simp only [List.append_assoc, List.cons_append, List.nil_append] at whole ⊢
        exact whole

/-! ## Type expressions -/

section
variable {t : TypeExpr}

/-- The end of a bracket may close a slice or give the size of an array. -/
theorem refuses_bracketEnd {inner : TypeExpr} {p : Position}
    (slice : Begins (taken ++ [⟨.symbol ']', finish⟩]))
    (array : ∀ digits q r, Fits digits →
      Begins (taken ++ [⟨.symbol ';', q⟩, ⟨.number digits, r⟩, ⟨.symbol ']', finish⟩])) :
    Refuses finish taken ts (bracketEnd finish inner p ts) := by
  unfold bracketEnd
  by_cases starts : StartsWith ';' ts
  · obtain ⟨q, left, rfl⟩ := starts
    rw [symbol?_symbol]
    refine Refuses.behind [⟨.symbol ';', q⟩] ?_
    have sized (digits : Text) (r : Position) (fits : Fits digits) :
        Begins (taken ++ [⟨.symbol ';', q⟩] ++ [⟨.number digits, r⟩]) :=
      (array digits q r fits).cut [⟨.symbol ']', finish⟩] rfl (by simp)
    have unsized := (sized "0" finish fits_zero).of_append rfl
    refine (refuses_number (.inl unsized) .arraySize).bind fun a later short number => ?_
    obtain ⟨n, r⟩ := a
    obtain ⟨digits, fits, -, rfl⟩ := reads_number.mp number
    refine Refuses.behind [⟨.number digits, r⟩] ?_
    exact (refuses_symbol (.inl (sized digits r fits)) ']').bind fun _ _ _ _ => refuses_ok
  · rw [symbol?_eq_none starts]
    exact (refuses_symbol (.inl (slice.of_append rfl)) ']').bind fun _ _ _ _ => refuses_ok

theorem exists_wrapped {w : Text} {us : List Token} (wraps : w = "ref" ∨ w = "opt")
    (inner : ExpressionTokens us t) (p q r : Position) :
    ∃ t, ExpressionTokens (⟨.word w, p⟩ :: ⟨.symbol '<', q⟩ :: (us ++ [⟨.symbol '>', r⟩])) t := by
  rcases wraps with rfl | rfl
  · exact ⟨_, .reference inner⟩
  · exact ⟨_, .optional inner⟩

def RefusesExpression (finish : Position) (ts : List Token) : Prop :=
  ∀ taken, (∀ front t, ExpressionTokens front t → Begins (taken ++ front)) →
    Refuses finish taken ts (typeExpr finish ts)

theorem byte_spelled (p : Position) :
    ExpressionTokens [⟨.word "u8", p⟩] (.primitive .u8 (some p)) :=
  .primitive .u8

section
variable {p : Position} (goes : ∀ front t, ExpressionTokens front t → Begins (taken ++ front))
include goes

theorem refuses_square (inner : RefusesExpression finish ts) :
    Refuses finish taken (⟨.symbol '[', p⟩ :: ts) (typeExpr finish (⟨.symbol '[', p⟩ :: ts)) := by
  have closed (front : List Token) (t : TypeExpr) (spelled : ExpressionTokens front t) :
      Begins (taken ++ [⟨.symbol '[', p⟩] ++ front ++ [⟨.symbol ']', finish⟩]) :=
    (goes _ _ (.slice (p := p) (q := finish) spelled)).cut [] rfl (by simp)
  rw [typeExpr, if_pos rfl]
  refine Refuses.behind [⟨.symbol '[', p⟩] ?_
  refine (inner _ fun front t spelled => (closed front t spelled).of_append rfl).bind
    fun t mid short read => ?_
  obtain ⟨front, rfl, spelled⟩ := reads_typeExpr.mp read
  refine Refuses.behind front ?_
  refine (refuses_bracketEnd (closed front t spelled) fun digits q r fits => ?_).bind
    fun _ _ _ _ => refuses_ok
  have whole := goes _ _ (.array (p := p) (q := q) (r := r) (s := finish) spelled fits)
  exact whole.cut [] rfl (by simp)

theorem refuses_round
    (inner : ∀ us : List Token, us.length ≤ ts.length → RefusesExpression finish us) :
    Refuses finish taken (⟨.symbol '(', p⟩ :: ts) (typeExpr finish (⟨.symbol '(', p⟩ :: ts)) := by
  rw [typeExpr, if_neg (by decide), if_pos rfl]
  refine Refuses.behind [⟨.symbol '(', p⟩] ?_
  refine (refuses_items (by decide) rfl (fun taken us inside goes => inner us inside taken goes)
    (fun us _ t left read => reads_typeExpr.mp read) fun front xs listed => ?_).bind
    fun _ _ _ _ => refuses_ok
  exact (goes _ _ (.tuple (p := p) (q := finish) listed)).cut [] rfl (by simp)

theorem refuses_wrapped {w : Text} (wraps : w = "ref" ∨ w = "opt")
    (inner : ∀ us : List Token, us.length < ts.length → RefusesExpression finish us) :
    Refuses finish taken (⟨.word w, p⟩ :: ts) (typeExpr finish (⟨.word w, p⟩ :: ts)) := by
  have opened (q : Position) (front : List Token) (t : TypeExpr)
      (spelled : ExpressionTokens front t) :
      Begins (taken ++ [⟨.word w, p⟩] ++ [⟨.symbol '<', q⟩] ++ front) := by
    obtain ⟨_, whole⟩ := exists_wrapped wraps spelled p q finish
    exact (goes _ _ whole).cut [⟨.symbol '>', finish⟩] rfl (by simp)
  rw [typeExpr, if_pos wraps]
  refine Refuses.behind [⟨.word w, p⟩] ?_
  have named := ((opened finish _ _ (byte_spelled finish)).of_append rfl).of_append rfl
  refine (refuses_symbol (.inl named) '<').bind fun q mid short opens => ?_
  obtain rfl := reads_symbol.mp opens
  refine Refuses.behind [⟨.symbol '<', q⟩] ?_
  refine (inner mid short _ (opened q)).bind fun t left _ read => ?_
  obtain ⟨front, rfl, spelled⟩ := reads_typeExpr.mp read
  refine Refuses.behind front ?_
  exact (refuses_symbol (.inl (opened q front t spelled)) '>').bind fun _ _ _ _ => refuses_ok

end

theorem refuses_typeExpr (ts : List Token) : RefusesExpression finish ts := by
  induction ts using shorter_induction with
  | _ ts ih =>
  intro taken goes
  have here : Tenable taken := .inl ((goes _ _ (byte_spelled finish)).of_append rfl)
  rcases ts with - | ⟨⟨lexeme, p⟩, rest⟩
  · rw [typeExpr]
    · exact refuses_here here ⟨_, rfl⟩
    all_goals exact fun _ _ _ same => by cases same
  -- every inner expression is read from what follows the first token
  have inner (us : List Token) (short : us.length ≤ rest.length) : RefusesExpression finish us :=
    ih us (Nat.lt_succ_of_le short)
  cases lexeme with
  | number digits =>
      rw [typeExpr]
      · exact refuses_here here ⟨_, rfl⟩
      all_goals exact fun _ _ _ same => by cases same
  | symbol c =>
      by_cases square : c = '['
      · subst square
        exact refuses_square goes (inner rest (Nat.le_refl _))
      · by_cases round : c = '('
        · subst round
          exact refuses_round goes inner
        · rw [typeExpr, if_neg square, if_neg round]
          exact refuses_here here ⟨_, rfl⟩
  | word w =>
      by_cases wraps : w = "ref" ∨ w = "opt"
      · exact refuses_wrapped goes wraps fun us short => inner us (Nat.le_of_lt short)
      · rw [typeExpr, if_neg wraps]
        exact refuses_ok

end

end Reading
end SchemaHistory
