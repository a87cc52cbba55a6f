import SchemaHistory.Proofs.Grammar.Reading

/-! # Reading version headers

The list between the brackets of a header may have any specifiers when it is read, and afterwards
only three kinds of lists are accepted.  Both steps together take exactly the tokens of a header
(`reads_header?`); what follows may be anything but a second header. -/
set_option autoImplicit false
namespace SchemaHistory

open Grammar

namespace Reading
variable {finish : Position} {ts rest : List Token}

def Action.keyword : Action → Text
  | .add => "add"
  | .rem => "rem"

theorem reads_action {a : Action} {p : Position} :
    Reads (action finish ts) (a, p) rest ↔ ts = ⟨.word a.keyword, p⟩ :: rest := by
  have differ : Text.ofString "rem" ≠ "add" := by decide
  rcases ts with - | ⟨⟨lexeme, q⟩, left⟩
  · simp [action]
  · cases lexeme with
    | number digits => simp [action]
    | symbol c => simp [action]
    | word w =>
        simp only [action]
        by_cases isAdd : w = "add"
        · cases a <;> simp [isAdd, Action.keyword, differ.symm]
        · rw [if_neg isAdd]
          by_cases isRem : w = "rem" <;> cases a <;> simp [isAdd, isRem, Action.keyword, differ]

section
variable {a b : Action} {n m : Literal}

/-- A specifier is read exactly from its tokens; it remembers where they start. -/
theorem reads_specifier : (∃ p, Reads (specifier finish ts) ⟨a, p, n⟩ rest) ↔
    ∃ front, ts = front ++ rest ∧ SpecifierTokens a.keyword front n := by
  unfold specifier
  constructor
  · rintro ⟨p, read⟩
    obtain ⟨⟨b, p'⟩, behindAction, _, acts, read⟩ := read.of_bind
    obtain ⟨q, behindOpening, _, opening, read⟩ := read.of_bind
    obtain ⟨⟨k, r⟩, behindNumber, _, version, read⟩ := read.of_bind
    obtain ⟨s, behind, _, closing, read⟩ := read.of_bind
    simp only [reads_ok, Specifier.mk.injEq] at read
    obtain ⟨⟨rfl, rfl, rfl⟩, rfl⟩ := read
    obtain rfl := reads_action.mp acts
    obtain rfl := reads_symbol.mp opening
    obtain ⟨digits, fits, rfl, rfl⟩ := reads_number.mp version
    obtain rfl := reads_symbol.mp closing
    exact ⟨_, rfl, .mk fits⟩
  · rintro ⟨front, rfl, spelled⟩
    cases spelled with
    | @mk p q r s digits fits =>
        refine ⟨p, (reads_action.mpr rfl).bind fun _ => (reads_symbol.mpr rfl).bind fun _ => ?_⟩
        refine (reads_number.mpr ⟨digits, fits, rfl, rfl⟩).bind fun _ => ?_
        exact (reads_symbol.mpr rfl).bind fun _ => reads_ok.mpr ⟨rfl, rfl⟩

/-- Behind the first specifier the header ends, or a comma and more specifiers follow. -/
theorem reads_specifiers {ss : List Specifier} :
    Reads (specifiers finish ts) ss rest ↔
      ∃ s mid, Reads (specifier finish ts) s mid ∧
        ((∃ p, mid = ⟨.symbol ']', p⟩ :: rest ∧ ss = [s]) ∨
          ∃ p later others, mid = ⟨.symbol ',', p⟩ :: later ∧
            Reads (specifiers finish later) others rest ∧ ss = s :: others) := by
  rw [specifiers]
  constructor
  · intro read
    obtain ⟨s, mid, _, first, read⟩ := read.of_bind
    refine ⟨s, mid, first, ?_⟩
    by_cases starts : StartsWith ']' mid
    · obtain ⟨p, left, rfl⟩ := starts
      simp only [symbol?_symbol, reads_ok] at read
      obtain ⟨rfl, rfl⟩ := read
      exact .inl ⟨p, rfl, rfl⟩
    · simp only [symbol?_eq_none starts] at read
      obtain ⟨p, later, _, comma, read⟩ := read.of_bind
      obtain ⟨others, left, _, next, read⟩ := read.of_bind
      simp only [reads_ok] at read
      obtain ⟨rfl, rfl⟩ := read
      exact .inr ⟨p, later, others, reads_symbol.mp comma, next, rfl⟩
  · rintro ⟨s, mid, first, ⟨p, rfl, rfl⟩ | ⟨p, later, others, rfl, next, rfl⟩⟩
    · refine first.bind fun _ => ?_
      simp only [symbol?_symbol]
      exact reads_ok.mpr ⟨rfl, rfl⟩
    · refine first.bind fun _ => ?_
      have other : ¬StartsWith ']' (⟨.symbol ',', p⟩ :: later) := by simp
      simp only [symbol?_eq_none other]
      refine (reads_symbol.mpr rfl).bind fun _ => ?_
      exact next.bind fun _ => reads_ok.mpr ⟨rfl, rfl⟩

theorem not_reads_no_specifiers : ¬Reads (specifiers finish ts) [] rest := by
  rw [reads_specifiers]
  rintro ⟨s, mid, -, ⟨p, -, ⟨⟩⟩ | ⟨p, later, others, -, -, ⟨⟩⟩⟩

theorem reads_one_specifier : (∃ p, Reads (specifiers finish ts) [⟨a, p, n⟩] rest) ↔
    ∃ front q, ts = front ++ ⟨.symbol ']', q⟩ :: rest ∧ SpecifierTokens a.keyword front n := by
  constructor
  · rintro ⟨p, read⟩
    rcases reads_specifiers.mp read with
      ⟨s, mid, first, ⟨q, rfl, ⟨⟩⟩ | ⟨q, later, others, -, next, ⟨⟩⟩⟩
    · obtain ⟨front, split, spelled⟩ := reads_specifier.mp ⟨p, first⟩
      exact ⟨front, q, split, spelled⟩
    · exact absurd next not_reads_no_specifiers
  · rintro ⟨front, q, split, spelled⟩
    obtain ⟨p, first⟩ := reads_specifier.mpr ⟨front, split, spelled⟩
    exact ⟨p, reads_specifiers.mpr ⟨_, _, first, .inl ⟨q, rfl, rfl⟩⟩⟩

theorem reads_two_specifiers :
    (∃ p q, Reads (specifiers finish ts) [⟨a, p, n⟩, ⟨b, q, m⟩] rest) ↔
      ∃ front r behind s, ts = front ++ ⟨.symbol ',', r⟩ :: (behind ++ ⟨.symbol ']', s⟩ :: rest) ∧
        SpecifierTokens a.keyword front n ∧ SpecifierTokens b.keyword behind m := by
  constructor
  · rintro ⟨p, q, read⟩
    rcases reads_specifiers.mp read with
      ⟨s, mid, first, ⟨r, rfl, ⟨⟩⟩ | ⟨r, later, others, rfl, next, ⟨⟩⟩⟩
    obtain ⟨behind, s, rfl, second⟩ := reads_one_specifier.mp ⟨q, next⟩
    obtain ⟨front, split, spelled⟩ := reads_specifier.mp ⟨p, first⟩
    exact ⟨front, r, behind, s, split, spelled, second⟩
  · rintro ⟨front, r, behind, s, split, spelled, second⟩
    obtain ⟨q, next⟩ := reads_one_specifier.mpr ⟨behind, s, rfl, second⟩
    obtain ⟨p, first⟩ := reads_specifier.mpr ⟨front, split, spelled⟩
    exact ⟨p, q, reads_specifiers.mpr ⟨_, _, first, .inr ⟨r, _, _, rfl, next, rfl⟩⟩⟩

end

/-! ## Headers -/

theorem headerOf_eq_ok_iff {hash : Position} {ss : List Specifier} {h : Header} :
    headerOf hash ss = .ok h ↔
      (∃ p n, ss = [⟨.add, p, n⟩] ∧ .adding n none (some hash) = h) ∨
      (∃ p n, ss = [⟨.rem, p, n⟩] ∧ .removing n (some hash) = h) ∨
      ∃ p n q m, ss = [⟨.add, p, n⟩, ⟨.rem, q, m⟩] ∧ .adding n (some m) (some hash) = h := by
  unfold headerOf
  split <;> simp [and_assoc]

theorem reads_headerBody {ss : List Specifier} (some : ss ≠ []) :
    Reads (headerBody finish ts) ss rest ↔ Reads (specifiers finish ts) ss rest := by
  unfold headerBody
  by_cases starts : StartsWith ']' ts
  · obtain ⟨p, left, rfl⟩ := starts
    rw [symbol?_symbol]
    constructor
    · intro read
      exact absurd (reads_ok.mp read).1.symm some
    · intro read
      obtain ⟨⟨a, p, n⟩, mid, first, -⟩ := reads_specifiers.mp read
      obtain ⟨front, split, spelled⟩ := reads_specifier.mp ⟨p, first⟩
      cases spelled
      cases split
  · rw [symbol?_eq_none starts]

/-- The brackets of a header and what stands between them. -/
theorem headerTokens_iff {hash q : Position} {h : Header} :
    (∃ ss, Reads (headerBody finish ts) ss rest ∧ headerOf hash ss = .ok h) ↔
      ∃ front, ts = front ++ rest ∧
        HeaderTokens (⟨.symbol '#', hash⟩ :: ⟨.symbol '[', q⟩ :: front) h := by
  simp only [headerOf_eq_ok_iff]
  constructor
  · rintro ⟨ss, read, ⟨p, n, rfl, rfl⟩ | ⟨p, n, rfl, rfl⟩ | ⟨p, n, q, m, rfl, rfl⟩⟩
    · rw [reads_headerBody (by simp)] at read
      obtain ⟨front, r, rfl, added⟩ := reads_one_specifier.mp ⟨p, read⟩
      exact ⟨front ++ [⟨.symbol ']', r⟩], by simp, .add added⟩
    · rw [reads_headerBody (by simp)] at read
      obtain ⟨front, r, rfl, removed⟩ := reads_one_specifier.mp ⟨p, read⟩
      exact ⟨front ++ [⟨.symbol ']', r⟩], by simp, .rem removed⟩
    · rw [reads_headerBody (by simp)] at read
      obtain ⟨front, r, behind, s, rfl, added, removed⟩ := reads_two_specifiers.mp ⟨p, q, read⟩
      exact ⟨front ++ ⟨.symbol ',', r⟩ :: (behind ++ [⟨.symbol ']', s⟩]), by simp,
        .both added removed⟩
  · rintro ⟨front, rfl, spelled⟩
    cases spelled with
    | @add _ _ r us n added =>
        obtain ⟨p, read⟩ := (reads_one_specifier (a := .add)).mpr ⟨us, r, rfl, added⟩
        rw [← reads_headerBody (by simp)] at read
        rw [List.append_assoc]
        exact ⟨_, read, .inl ⟨p, n, rfl, rfl⟩⟩
    | @rem _ _ r us n removed =>
        obtain ⟨p, read⟩ := (reads_one_specifier (a := .rem)).mpr ⟨us, r, rfl, removed⟩
        rw [← reads_headerBody (by simp)] at read
        rw [List.append_assoc]
        exact ⟨_, read, .inr (.inl ⟨p, n, rfl, rfl⟩)⟩
    | @both _ _ r s us vs n m added removed =>
        obtain ⟨p, t, read⟩ := (reads_two_specifiers (a := .add) (b := .rem)).mpr
          ⟨us, r, vs, s, rfl, added, removed⟩
        rw [← reads_headerBody (by simp)] at read
        rw [List.append_assoc, List.cons_append, List.append_assoc]
        exact ⟨_, read, .inr (.inr ⟨p, n, t, m, rfl, rfl⟩)⟩

/-- An optional header is read exactly from its tokens, where no second header follows. -/
theorem reads_header? {owner : HeaderOwner} {header : Option Header} :
    Reads (header? finish owner ts) header rest ↔
      ¬StartsWith '#' rest ∧ ∃ front, ts = front ++ rest ∧ HeadedTokens front header := by
  unfold header?
  by_cases starts : StartsWith '#' ts
  · obtain ⟨hash, left, rfl⟩ := starts
    rw [symbol?_symbol]
    constructor
    · intro read
      obtain ⟨q, behindOpening, _, opening, read⟩ := read.of_bind
      obtain ⟨ss, behindBody, _, body, read⟩ := read.of_bind
      obtain ⟨h, accepted, read⟩ := reads_bind.mp read
      obtain rfl := reads_symbol.mp opening
      by_cases again : StartsWith '#' behindBody
      · obtain ⟨r, later, rfl⟩ := again
        simp only [symbol?_symbol, not_reads_error] at read
      · simp only [symbol?_eq_none again, reads_ok] at read
        obtain ⟨rfl, rfl⟩ := read
        obtain ⟨front, rfl, spelled⟩ := headerTokens_iff.mp ⟨ss, body, accepted⟩
        exact ⟨again, ⟨.symbol '#', hash⟩ :: ⟨.symbol '[', q⟩ :: front, rfl, .some spelled⟩
    · rintro ⟨single, front, split, headed⟩
      cases headed with
      | none => exact absurd ⟨hash, left, split.symm⟩ single
      | @some _ h spelled =>
          obtain ⟨p, q, us, rfl⟩ := spelled.brackets
          cases split
          obtain ⟨ss, body, accepted⟩ := headerTokens_iff.mpr ⟨us, rfl, spelled⟩
          refine (reads_symbol.mpr rfl).bind fun _ => body.bind fun _ => ?_
          refine reads_bind.mpr ⟨h, accepted, ?_⟩
          simp only [symbol?_eq_none single]
          exact reads_ok.mpr ⟨rfl, rfl⟩
  · rw [symbol?_eq_none starts]
    simp only [reads_ok]
    constructor
    · rintro ⟨rfl, rfl⟩
      exact ⟨starts, [], rfl, .none⟩
    · rintro ⟨-, front, rfl, headed⟩
      cases headed with
      | none => exact ⟨rfl, rfl⟩
      | some spelled =>
          obtain ⟨p, q, us, rfl⟩ := spelled.brackets
          exact absurd ⟨p, _, rfl⟩ starts

end Reading
end SchemaHistory
