import SchemaHistory.Proofs.Faults.Sequence
import SchemaHistory.Proofs.Grammar.HeaderPlaces
import SchemaHistory.Proofs.Grammar.Moved
import SchemaHistory.Proofs.Grammar.Refusals
import SchemaHistory.Proofs.Source.Strays

/-! # Which fault of a text is reported

A text is at fault up to a token, or up to a stray letter, when no way to go on from there is read.
The fault that is reported is not always the first one of the text.  A stray letter is reported even
if a token in front of it is at fault, and a header may have been overrun; `first_fault_iff` says
that there is no other way to miss the first fault. -/
set_option autoImplicit false
namespace SchemaHistory

open Grammar

/-- Some text that goes on from this one is read. -/
def Viable (file : Option Text) (t : Text) : Prop :=
  ∃ more ds, declarationsOfText (t ++ more) file = .ok ds

/-- `t` is the text up to a token and with it, and the token stands at `p`. -/
def ThroughToken (file : Option Text) (text t : Text) (p : Position) : Prop :=
  ∃ before lexeme after, text = before ++ (lexeme.text ++ after) ∧
    p = (Cursor.ofFront before).position file ∧ t = before ++ lexeme.text ∧
    ⟨lexeme, p⟩ ∈ (scan text file).tokens

/-- `t` is the text up to a stray letter and with it, and the letter stands at `p`. -/
def ThroughStray (file : Option Text) (text t : Text) (p : Position) : Prop :=
  ∃ before l after, text = before ++ l :: after ∧ p = (Cursor.ofFront before).position file ∧
    t = before ++ [l] ∧ Scan.Stray before l after

/-- The diagnostic is about the first fault of the text, or about a place in front of it. -/
def ReportedFirst (file : Option Text) (text : Text) (d : Diagnostic) : Prop :=
  ∀ t p, ThroughToken file text t p ∨ ThroughStray file text t p → ¬Viable file t →
    ∃ q, d.position = some q ∧ q.AtOrBefore p

/-! ## Going on behind a token -/

/-- Tokens with the same lexemes spell the same schema in other places. -/
theorem Grammar.SchemaTokens.of_lexemes {ts us : List Token} {ds : List Decl}
    (spelled : SchemaTokens ts ds) (same : ts.map Token.lexeme = us.map Token.lexeme) :
    ∃ es, SchemaTokens us es := by
  let finish : Position := ⟨.null, .null, none⟩
  have own := Reading.moved_decls (fun _ => finish) finish ts
  have others := Reading.moved_decls (fun _ => finish) finish us
  rw [move_of_lexemes finish same, others, Reading.decls_eq_ok_iff.mpr spelled] at own
  cases read : Reading.decls finish us with
  | ok es => exact ⟨es, Reading.decls_eq_ok_iff.mp read⟩
  | error m =>
      rw [read] at own
      cases own

section
variable {file : Option Text} {text t : Text} {p : Position} {before behind : List Token}
  {token : Token}

/-- The text up to a token can go on if the tokens up to there can, and if it can go on then they
can, perhaps with more letters in the last one. -/
theorem exists_through (split : (scan text file).tokens = before ++ token :: behind) :
    ∃ t, ThroughToken file text t token.position ∧
      (Begins (before ++ [token]) → Viable file t) ∧
      (Viable file t → ∃ lexeme later ds, token.lexeme.Continues lexeme ∧
        SchemaTokens (before ++ ⟨lexeme, token.position⟩ :: later) ds) := by
  obtain ⟨lexeme, p⟩ := token
  obtain ⟨tail, laid, -⟩ := Scan.scan_laysOut text file
  rw [split] at laid
  obtain ⟨b, rest, here, place, spaced, continued⟩ := laid.extended
  have found : ⟨lexeme, p⟩ ∈ (scan text file).tokens := by
    rw [split]
    exact List.mem_append_right _ List.mem_cons_self
  refine ⟨b ++ lexeme.text, ⟨b, lexeme, rest, here, place, rfl, found⟩, ?_, ?_⟩
  · rintro ⟨more, writable, ds, spelled⟩
    obtain ⟨us, same, tokens, finish, ending⟩ := spaced more writable
    have lexemes : (before ++ [(⟨lexeme, p⟩ : Token)] ++ more).map Token.lexeme =
        (before ++ (⟨lexeme, p⟩ : Token) :: us).map Token.lexeme := by simp [same]
    obtain ⟨es, read⟩ := spelled.of_lexemes lexemes
    refine ⟨Scan.spaced more, es, ?_⟩
    rw [declarationsOfText, ending, tokens]
    exact Reading.decls_eq_ok_iff.mpr read
  · rintro ⟨more, ds, read⟩
    obtain ⟨longer, later, goesOn, tokens⟩ := continued more
    have spelled := schemaTokens_of_text read
    rw [tokens] at spelled
    exact ⟨longer, later, ds, goesOn, spelled⟩

theorem ThroughToken.unique {s : Text} (first : ThroughToken file text s p)
    (second : ThroughToken file text t p) : s = t := by
  obtain ⟨b, lexeme, rest, split, place, rfl, found⟩ := first
  obtain ⟨c, other, left, again, here, rfl, member⟩ := second
  have same := Scan.eq_of_position_eq found member rfl
  cases same
  have prefixes : b = c := prefix_unique ⟨_, split.symm⟩ ⟨_, again.symm⟩ (place.symm.trans here)
  rw [prefixes]

theorem ThroughToken.split (through : ThroughToken file text t p) :
    ∃ before token behind, (scan text file).tokens = before ++ token :: behind ∧
      token.position = p ∧ (Begins (before ++ [token]) → Viable file t) := by
  obtain ⟨b, lexeme, rest, here, place, rfl, found⟩ := through
  obtain ⟨before, behind, split⟩ := List.append_of_mem found
  obtain ⟨s, other, viable, -⟩ := exists_through split
  have same := other.unique ⟨b, lexeme, rest, here, place, rfl, found⟩
  exact ⟨before, ⟨lexeme, p⟩, behind, split, rfl, same ▸ viable⟩

/-! ## The reported fault -/

theorem Grammar.Overruns.exists_token {ts : List Token} (overruns : Overruns ts) :
    ∃ before token behind, ts = before ++ token :: behind ∧ Overruns (before ++ [token]) := by
  obtain ⟨front, begun, next, p, behind, rfl, overrun⟩ := overruns
  exact ⟨front ++ begun, ⟨next, p⟩, behind, rfl, front, begun, next, p, [], rfl, overrun⟩

section
variable {finish : Position} {front back : List Token} {d fault : Diagnostic}

theorem LaidOut.precedes_next (laid : LaidOut file [] text (front ++ back) [])
    (member : token ∈ front) : token.position.Precedes
      (Reading.next ((Cursor.ofFront text).position file) back).2 := by
  cases back with
  | nil =>
      rw [List.append_nil] at laid
      exact laid.precedes_tail (List.append_nil text).symm member
  | cons x back =>
      exact (List.pairwise_append.mp laid.increasing).2.2 token member x List.mem_cons_self

theorem LaidOut.next_atOrBefore (laid : LaidOut file [] text (front ++ back) [])
    (member : token ∈ back) : (Reading.next finish back).2.AtOrBefore token.position := by
  cases back with
  | nil => cases member
  | cons x back =>
      rcases List.mem_cons.mp member with rfl | later
      · exact .inl rfl
      · have behind := (List.pairwise_append.mp laid.increasing).2.1
        exact .inr ((List.pairwise_cons.mp behind).1 token later)

/-- A stray letter stands behind all tokens. -/
theorem reportedFirst_stray (ending : (scan text file).ending = .error fault) :
    ReportedFirst file text fault ↔ ∀ t p, ThroughToken file text t p → Viable file t := by
  obtain ⟨tail, laid, ends⟩ := Scan.scan_laysOut text file
  rw [ending, List.nil_append] at ends
  cases ends with
  | @stuck start rest l split foreign =>
      obtain ⟨first, own, -, earliest⟩ := laid.firstStray foreign
      obtain rfl := List.append_cancel_right (own.symm.trans split)
      constructor
      · intro reported t p through
        by_contra dead
        obtain ⟨q, here, reached⟩ := reported t p (.inl through) dead
        cases here
        obtain ⟨before, lexeme, after, -, -, -, found⟩ := through
        exact (laid.precedes_tail split found).not_atOrBefore reached
      · rintro viable t p (token | ⟨before, m, after, again, rfl, rfl, stray⟩) dead
        · exact absurd (viable t p token) dead
        · have shorter : first <+: before := List.prefix_of_prefix_length_le ⟨_, split.symm⟩
            ⟨_, again.symm⟩ (earliest before m after again stray)
          exact ⟨_, rfl, atOrBefore_of_prefix shorter⟩

/-- Where all letters can be read, only an overrun header hides the first fault. -/
theorem reportedFirst_token (ending : (scan text file).ending = .ok finish)
    (split : (scan text file).tokens = front ++ back)
    (here : d.position = some (Reading.next finish back).2) (tenable : Tenable front) :
    ReportedFirst file text d ↔ ¬Overruns front := by
  obtain ⟨tail, laid, ends⟩ := Scan.scan_laysOut text file
  rw [ending, List.nil_append] at ends
  cases ends
  have scanned := laid.isWritable
  rw [split] at laid scanned
  constructor
  · intro reported overruns
    obtain ⟨before, token, behind, rfl, early⟩ := overruns.exists_token
    rw [List.append_assoc, List.cons_append] at split
    obtain ⟨t, through, -, goesOn⟩ := exists_through split
    have dead : ¬Viable file t := fun viable => by
      obtain ⟨lexeme, later, ds, continues, spelled⟩ := goesOn viable
      exact not_spelled_of_overruns early continues spelled
    obtain ⟨q, same, reached⟩ := reported t token.position (.inl through) dead
    rw [here] at same
    cases same
    have member : token ∈ before ++ token :: behind := List.mem_append_right _ List.mem_cons_self
    exact (laid.precedes_next member).not_atOrBefore reached
  · rintro safe t p (through | ⟨before, l, after, again, -, -, stray⟩) dead
    · obtain ⟨before, token, behind, same, rfl, viable⟩ := through.split
      refine ⟨_, here, laid.next_atOrBefore ?_⟩
      rw [split] at same
      rcases split_of_append_eq same with ⟨more, -, rfl⟩ | ⟨taken, rfl, rfl⟩
      · exact List.mem_append_right _ List.mem_cons_self
      · -- the tokens up to one that was taken are a beginning
        simp only [List.all_append, List.all_cons, Bool.and_eq_true] at scanned
        have begins := tenable.resolve_right safe
        rw [List.append_cons] at begins
        exact absurd (viable (begins.of_append scanned.1.2.2)) dead
    · rw [← split] at laid
      exact absurd stray (laid.not_stray again)

/-- A text with a stray letter is refused there, and its first fault is reported exactly if it can
go on behind each of its tokens.  Any other text is refused in front of a token, or at its end, and
its first fault is reported exactly if no header has been overrun up to there. -/
theorem first_fault_iff (refused : declarationsOfText text file = .error (.fault d)) :
    (∀ fault, (scan text file).ending = .error fault → d = fault ∧
      (ReportedFirst file text d ↔ ∀ t p, ThroughToken file text t p → Viable file t)) ∧
    ∀ finish, (scan text file).ending = .ok finish → ∃ front back,
      (scan text file).tokens = front ++ back ∧
      d.position = some (Reading.next finish back).2 ∧
      (ReportedFirst file text d ↔ ¬Overruns front) := by
  rw [declarationsOfText] at refused
  refine ⟨fun fault ending => ?_, fun finish ending => ?_⟩
  · rw [ending] at refused
    cases refused
    exact ⟨rfl, reportedFirst_stray ending⟩
  · rw [ending] at refused
    obtain ⟨front, back, split, ⟨fault, rfl⟩, tenable⟩ := Reading.decls_refused refused
    exact ⟨front, back, split, rfl, reportedFirst_token ending split rfl tenable⟩

end
end

def missingColon : Text := "struct S \x7b f u8 \x7d"

theorem first_fault_missing_colon :
    ∃ d, declarationsOfText missingColon none = .error (.fault d) ∧
      ReportedFirst none missingColon d := by
  obtain ⟨d, found⟩ : ∃ d, refusal? missingColon none = some d :=
    Option.isSome_iff_exists.mp (by decide +kernel)
  have refused := refusal?_eq_some_iff.mp found
  obtain ⟨finish, ending⟩ : ∃ finish, (scan missingColon none).ending = .ok finish :=
    fault?_eq_none_iff.mp (by decide +kernel)
  obtain ⟨front, back, split, -, reported⟩ := (first_fault_iff refused).2 finish ending
  refine ⟨d, refused, reported.mpr fun overruns => ?_⟩
  have noHash : ∀ token ∈ (scan missingColon none).tokens, token.lexeme ≠ .symbol '#' := by
    decide +kernel
  obtain ⟨before, begun, next, p, after, rfl, overrun⟩ := overruns
  obtain ⟨q, us, rfl⟩ := overrun.hash
  rw [split] at noHash
  exact noHash ⟨.symbol '#', q⟩ (by simp) rfl

def strayBehindBrace : Text := "\x7d @"

def braceBehindAdd : Text := "#[add(1), add \x7d"

def inFirstLine (n : Int) : Position := ⟨.int 1, .int n, none⟩

def addOne : Clause := ⟨.add, "1", inFirstLine 3, inFirstLine 6, inFirstLine 7, inFirstLine 8⟩

theorem scan_braceBehindAdd :
    (scan braceBehindAdd none).tokens =
      ⟨.symbol '#', inFirstLine 1⟩ :: ⟨.symbol '[', inFirstLine 2⟩ ::
        (addOne.tokens ++ [⟨.symbol ',', inFirstLine 9⟩]) ++ [⟨.word "add", inFirstLine 11⟩] ++
        [⟨.symbol '\x7d', inFirstLine 15⟩] := by
  decide +kernel

/-- In the one text the brace is at fault, in the other the second `add`, but what stands behind
them is reported. -/
theorem later_fault_reported :
    (∃ d, declarationsOfText strayBehindBrace none = .error (.fault d) ∧
      ¬ReportedFirst none strayBehindBrace d) ∧
    ∃ d, declarationsOfText braceBehindAdd none = .error (.fault d) ∧
      ¬ReportedFirst none braceBehindAdd d := by
  constructor
  · have faulty : (fault? (scan strayBehindBrace none).ending).isSome := by decide +kernel
    obtain ⟨d, found⟩ := Option.isSome_iff_exists.mp faulty
    have ending := fault?_eq_some_iff.mp found
    refine ⟨d, by rw [declarationsOfText, ending], fun reported => ?_⟩
    have split : (scan strayBehindBrace none).tokens =
        [] ++ ⟨.symbol '\x7d', ⟨.int 1, .int 1, none⟩⟩ :: [] := by decide +kernel
    obtain ⟨t, through, -, goesOn⟩ := exists_through split
    obtain ⟨lexeme, later, ds, continues, spelled⟩ :=
      goesOn ((reportedFirst_stray ending).mp reported _ _ through)
    cases continues
    exact spelled.front (by decide) ⟨_, _, rfl⟩
  · obtain ⟨d, found, here⟩ := Option.bind_eq_some_iff.mp
      (show (refusal? braceBehindAdd none).bind Diagnostic.position = some (inFirstLine 15) by
        decide +kernel)
    obtain ⟨finish, ending⟩ : ∃ finish, (scan braceBehindAdd none).ending = .ok finish :=
      fault?_eq_none_iff.mp (by decide +kernel)
    have overruns : Overruns (⟨.symbol '#', inFirstLine 1⟩ :: ⟨.symbol '[', inFirstLine 2⟩ ::
        (addOne.tokens ++ [⟨.symbol ',', inFirstLine 9⟩]) ++ [⟨.word "add", inFirstLine 11⟩]) :=
      ⟨[], _, _, _, [], rfl, .addAgain rfl⟩
    refine ⟨d, refusal?_eq_some_iff.mp found, fun reported => ?_⟩
    exact (reportedFirst_token ending scan_braceBehindAdd here (.inr overruns)).mp reported overruns

end SchemaHistory
