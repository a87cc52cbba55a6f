import SchemaHistory.Proofs.Source.Order

/-! # The first stray letter

A letter is stray when it stands outside of comments and starts nothing.  A text without stray
letters is laid out up to its end, any other up to its first one, and a scan gives the tokens of
that layout (`scan_lossless`).  That a letter stands outside of comments can be told from its line
alone, because outside of comments no slash stands in front of another letter
(`LaidOut.quiet`). -/
set_option autoImplicit false
namespace SchemaHistory

namespace Scan

/-- The letter starts nothing, and no comment has begun in its line. -/
def Stray (before : Text) (l : Letter) (after : Text) : Prop :=
  ¬[.char '/', .char '/'] <:+: Text.lastLine (before ++ [l]) ∧ Foreign l after

def FirstStray (text before : Text) (l : Letter) (after : Text) : Prop :=
  text = before ++ l :: after ∧ Stray before l after ∧
    ∀ b m a, text = b ++ m :: a → Stray b m a → before.length ≤ b.length

def Quiet (front s after : Text) : Prop :=
  ∀ b m a, s = b ++ m :: a → ¬Stray (front ++ b) m (a ++ after)

/-- Outside of comments there is no slash in the line so far; a comment lasts up to its end. -/
def Settled (front t : Text) : Prop := .char '/' ∉ front.lastLine ∨ Text.Stops inLine t

section
variable {front s t after body : Text} {l : Letter} {c : Char}

theorem quiet_nil : Quiet front [] after := by
  intro b m a split
  cases b <;> cases split

theorem quiet_cons :
    Quiet front (l :: s) after ↔ ¬Stray front l (s ++ after) ∧ Quiet (front ++ [l]) s after := by
  constructor
  · intro quiet
    refine ⟨fun stray => quiet [] l s rfl (by rwa [List.append_nil]), ?_⟩
    rintro b m a rfl stray
    rw [List.append_assoc] at stray
    exact quiet (l :: b) m a rfl stray
  · rintro ⟨here, later⟩ b m a split stray
    cases b with
    | nil =>
        obtain ⟨rfl, rfl⟩ := List.cons.inj split
        rw [List.append_nil] at stray
        exact here stray
    | cons x b =>
        obtain ⟨rfl, rfl⟩ := List.cons.inj split
        rw [List.append_cons] at stray
        exact later b m a rfl stray

theorem quiet_append :
    Quiet front (s ++ t) after ↔ Quiet front s (t ++ after) ∧ Quiet (front ++ s) t after := by
  induction s generalizing front with
  | nil => simp [quiet_nil]
  | cons l s ih =>
      rw [List.cons_append, quiet_cons, quiet_cons, ih, List.append_assoc, List.append_assoc,
        and_assoc]
      rfl

theorem quiet_of_forall (inside : ∀ l ∈ s, ∀ after, ¬Foreign l after) : Quiet front s after := by
  rintro b m a rfl stray
  exact inside m (List.mem_append_right _ List.mem_cons_self) _ stray.2

theorem quiet_comment (inside : ∀ l ∈ body, inLine l = true) :
    Quiet front (.char '/' :: .char '/' :: body) after := by
  refine quiet_cons.mpr ⟨fun stray => stray.2.2.2.2 ⟨rfl, rfl⟩, ?_⟩
  have line : ∀ l ∈ (.char '/' :: .char '/' :: body : Text), inLine l = true :=
    List.forall_mem_cons.mpr ⟨by decide, List.forall_mem_cons.mpr ⟨by decide, inside⟩⟩
  intro b m a split stray
  -- up to the letter, the line has both slashes in it
  have slashes : [.char '/', .char '/'] <+: (.char '/' :: (b ++ [m]) : Text) := by
    cases b with
    | nil =>
        obtain ⟨rfl, -⟩ := List.cons.inj split
        exact List.prefix_rfl
    | cons x b =>
        obtain ⟨rfl, -⟩ := List.cons.inj split
        exact ⟨b ++ [m], rfl⟩
  have shown : Text.lastLine (front ++ [.char '/'] ++ b ++ [m]) =
      front.lastLine ++ .char '/' :: (b ++ [m]) := by
    rw [List.append_assoc, List.append_assoc]
    refine Text.lastLine_append fun l member => line l ?_
    rw [split]
    simp only [List.singleton_append, List.mem_cons, List.mem_append, List.not_mem_nil,
      or_false] at member ⊢
    tauto
  rw [Stray, shown] at stray
  exact stray.1 (slashes.isInfix.trans (List.suffix_append _ _).isInfix)

/-- In front of a letter that is no slash and ends no line, no comment has begun. -/
theorem Settled.concat (settled : Settled front (l :: t)) (other : l ≠ .char '/') :
    Settled (front ++ [l]) t := by
  refine .inl fun slash => ?_
  by_cases newline : l = .char '\n'
  · subst newline
    rw [Text.lastLine_newline] at slash
    cases slash
  · have inside : inLine l = true := decide_eq_true newline
    rw [Text.lastLine_concat inside, List.mem_append, List.mem_singleton] at slash
    rcases settled with clear | ends
    · exact slash.elim clear fun same => other same.symm
    · exact absurd inside (by rw [Text.stops_cons.mp ends]; decide)

theorem Settled.append (settled : Settled front (s ++ t)) (others : ∀ l ∈ s, l ≠ .char '/') :
    Settled (front ++ s) t := by
  induction s generalizing front with
  | nil => rwa [List.append_nil]
  | cons l s ih =>
      obtain ⟨first, others⟩ := List.forall_mem_cons.mp others
      rw [List.append_cons]
      exact ih (settled.concat first) others

theorem not_foreign_of_isBlank (blank : Text.isBlank c = true) : ¬Foreign (.char c) after :=
  fun foreign => absurd blank (by rw [show Text.isBlank c = false from foreign.1]; decide)

end
end Scan

open Scan
section
variable {file : Option Text} {front t g s after tail : Text} {ts : List Token} {l : Letter}
  {lexeme : Lexeme}

theorem Gap.quiet (gap : Gap after g) (front : Text) (settled : Settled front (g ++ after)) :
    Quiet front g after ∧ Settled (front ++ g) after := by
  induction gap generalizing front with
  | nil =>
      rw [List.append_nil]
      exact ⟨quiet_nil, settled⟩
  | @blank c g blank more ih =>
      have other : Letter.char c ≠ .char '/' := by
        intro same
        cases same
        exact absurd blank (by decide)
      obtain ⟨quiet, behind⟩ := ih _ (settled.concat other)
      rw [List.append_assoc] at behind
      exact ⟨quiet_cons.mpr ⟨fun stray => not_foreign_of_isBlank blank stray.2, quiet⟩, behind⟩
  | @comment body g inside ends more ih =>
      obtain ⟨quiet, behind⟩ := ih (front ++ .char '/' :: .char '/' :: body) (.inr ends)
      rw [List.append_assoc] at behind
      exact ⟨quiet_append.mpr ⟨quiet_comment inside, quiet⟩, behind⟩

/-- The letters of tokens. -/
theorem Scan.Whole.letters (whole : Whole front after lexeme) :
    ∀ l ∈ lexeme.text, isWordPart l = true ∨ l.satisfies isSymbol = true := by
  cases lexeme with
  | word w => exact fun l member => .inl (isWordPart_of_isName whole.1 l member)
  | number digits =>
      have inside := (isNumeral_iff.mp whole.1).2
      exact fun l member => .inl (isWordPart_of_isDigit (inside l member))
  | symbol c => exact List.forall_mem_singleton.mpr (.inr whole)

theorem LaidOut.quiet (laid : LaidOut file front t ts tail) (settled : Settled front t) :
    ∃ read, t = read ++ tail ∧ Quiet front read tail ∧ Settled (front ++ read) tail := by
  induction laid with
  | done last => exact ⟨_, rfl, last.quiet _ settled⟩
  | @token front gap rest tail lexeme ts between whole later ih =>
      have letters := whole.letters
      have others : ∀ l ∈ lexeme.text, l ≠ .char '/' := by
        rintro l member rfl
        exact absurd (letters _ member) (by decide)
      have plain : ∀ l ∈ lexeme.text, ∀ after, ¬Foreign l after := by
        rintro l member after ⟨-, part, symbol, -⟩
        exact absurd (letters l member) (by rw [part, symbol]; decide)
      obtain ⟨quietGap, atToken⟩ := between.quiet _ settled
      have behind := atToken.append others
      rw [List.append_assoc] at behind
      obtain ⟨read, rfl, quiet, settledBehind⟩ := ih behind
      refine ⟨gap ++ (lexeme.text ++ read), by simp only [List.append_assoc], ?_, ?_⟩
      · rw [← List.append_assoc] at quiet
        have quietToken := quiet_append.mpr ⟨quiet_of_forall plain, quiet⟩
        exact quiet_append.mpr ⟨by rwa [List.append_assoc], quietToken⟩
      · rwa [List.append_assoc, List.append_assoc] at settledBehind

/-! ## The first stray letter -/

theorem settled_nil : Settled [] t := .inl List.not_mem_nil

theorem LaidOut.not_stray (laid : LaidOut file [] t ts []) {before : Text}
    (split : t = before ++ l :: after) : ¬Stray before l after := by
  obtain ⟨read, same, quiet, -⟩ := laid.quiet settled_nil
  rw [List.append_nil] at same
  have here := quiet before l after (same.symm.trans split)
  rwa [List.append_nil] at here

theorem LaidOut.firstStray (laid : LaidOut file [] t ts (l :: after)) (foreign : Foreign l after) :
    ∃ before, FirstStray t before l after := by
  obtain ⟨read, rfl, quiet, settled⟩ := laid.quiet settled_nil
  have inside : inLine l = true := by
    refine decide_eq_true fun newline => ?_
    subst newline
    exact not_foreign_of_isBlank Text.isBlank_newline foreign
  have clear : .char '/' ∉ read.lastLine := settled.resolve_right fun ends =>
    absurd inside (by rw [Text.stops_cons.mp ends]; decide)
  refine ⟨read, rfl, ⟨fun slashes => ?_, foreign⟩, fun b m a split stray => ?_⟩
  · -- the letter would be the only slash of its line
    have twice := slashes.sublist.count_le (.char '/')
    rw [Text.lastLine_concat inside, List.count_append, List.count_eq_zero.mpr clear] at twice
    have once : [l].count (.char '/') ≤ 1 := List.count_le_length
    have two : [Letter.char '/', .char '/'].count (.char '/') = 2 := by decide
    omega
  · rcases split_of_append_eq split with ⟨more, rfl, -⟩ | ⟨more, rfl, rfl⟩
    · rw [List.length_append]
      exact Nat.le_add_right _ _
    · exact absurd stray (quiet b m more rfl)

theorem Scan.ofText_foreign {p : Cursor} (foreign : Foreign l after) :
    ofText file p (l :: after) = refused l (p.position file) := by
  obtain ⟨blank, part, symbol, slashes⟩ := foreign
  cases l with
  | surrogate offset => rw [ofText]
  | char c =>
      have neither := mt isWordPart_char.mpr (Bool.eq_false_iff.mp part)
      obtain ⟨start, digit⟩ := not_or.mp neither
      have comment : ¬startsComment c after = true := by
        intro comment
        obtain ⟨rfl, inner, rfl⟩ := exists_of_startsComment comment
        exact slashes ⟨rfl, rfl⟩
      have plain : ¬Text.isBlank c = true := Bool.eq_false_iff.mp blank
      have other : ¬isSymbol c = true := Bool.eq_false_iff.mp symbol
      rw [ofText, if_neg plain, if_neg comment, if_neg start, if_neg digit, if_neg other]

theorem LaidOut.scan_eq (laid : LaidOut file [] t ts tail) :
    ∃ read, t = read ++ tail ∧
      scan t file = (ofText file (Cursor.ofFront read) tail).behind ts := by
  obtain ⟨read, rfl, found⟩ := laid.cuts
  unfold Cuts at found
  rw [← Cursor.ofFront_append] at found
  exact ⟨read, rfl, found⟩

theorem LaidOut.scan_eq_ok (laid : LaidOut file [] t ts []) :
    scan t file = ⟨ts, .ok ((Cursor.ofFront t).position file)⟩ := by
  obtain ⟨read, rfl, found⟩ := laid.scan_eq
  rw [found, ofText, behind, List.append_nil, List.append_nil]

theorem LaidOut.scan_eq_error (laid : LaidOut file [] t ts (l :: after))
    (foreign : Foreign l after) {before : Text} (split : t = before ++ l :: after) :
    scan t file = ⟨ts, .error
      ⟨.text (.unexpectedCharacter l), some ((Cursor.ofFront before).position file)⟩⟩ := by
  obtain ⟨read, same, found⟩ := laid.scan_eq
  obtain rfl := List.append_cancel_right (same.symm.trans split)
  rw [found, ofText_foreign foreign, refused, behind, List.append_nil]

/-- A text that is accepted is laid out by its tokens up to its end, and this layout is the only one
that it has.  A text is refused if and only if it has a stray letter, and then at the first one,
behind the tokens that lay it out up to there.  Tokens stand one behind the other. -/
theorem scan_lossless (text : Text) (file : Option Text) :
    (∀ ts finish, scan text file = ⟨ts, .ok finish⟩ ↔
      LaidOut file [] text ts [] ∧ finish = (Cursor.ofFront text).position file) ∧
    (∀ ts d, scan text file = ⟨ts, .error d⟩ ↔ ∃ before l after, FirstStray text before l after ∧
      LaidOut file [] text ts (l :: after) ∧ d =
        ⟨.text (.unexpectedCharacter l), some ((Cursor.ofFront before).position file)⟩) ∧
    ((∃ d, (scan text file).ending = .error d) ↔
      ∃ before l after, text = before ++ l :: after ∧ Stray before l after) ∧
    (scan text file).tokens.Pairwise fun a b => a.position.Precedes b.position := by
  obtain ⟨tail, laid, ends⟩ := scan_laysOut text file
  rw [List.nil_append] at ends
  have refused (d : Diagnostic) (ending : (scan text file).ending = .error d) :
      ∃ before l after, FirstStray text before l after ∧
        LaidOut file [] text (scan text file).tokens (l :: after) ∧ d =
          ⟨.text (.unexpectedCharacter l), some ((Cursor.ofFront before).position file)⟩ := by
    rw [ending] at ends
    cases ends with
    | stuck split foreign =>
        obtain ⟨before, first⟩ := laid.firstStray foreign
        obtain rfl := List.append_cancel_right (first.1.symm.trans split)
        exact ⟨_, _, _, first, laid, rfl⟩
  refine ⟨fun ts finish => ⟨fun same => ?_, ?_⟩, fun ts d => ⟨fun same => ?_, ?_⟩, ⟨?_, ?_⟩,
    laid.increasing⟩
  · rw [same] at laid ends
    cases ends
    exact ⟨laid, rfl⟩
  · rintro ⟨laid, rfl⟩
    exact laid.scan_eq_ok
  · have found := refused d (by rw [same])
    rwa [same] at found
  · rintro ⟨before, l, after, first, laid, rfl⟩
    exact laid.scan_eq_error first.2.1.2 first.1
  · rintro ⟨d, ending⟩
    obtain ⟨before, l, after, first, -⟩ := refused d ending
    exact ⟨before, l, after, first.1, first.2.1⟩
  · rintro ⟨before, l, after, split, stray⟩
    generalize ending : (scan text file).ending = result at ends
    cases ends with
    | finished => exact absurd stray (laid.not_stray split)
    | stuck => exact ⟨_, rfl⟩

end
end SchemaHistory
