import SchemaHistory.Proofs.Source.Layout

/-! # Texts that go on behind a token

When a text is cut off behind one of its tokens and continued in another way, the tokens in front
of that one stay, and the token itself stays or becomes longer (`LaidOut.extended`).  Any lexemes
can be written behind it, with blanks between them. -/
set_option autoImplicit false
namespace SchemaHistory

/-- With more letters behind it, the lexeme may become the other one. -/
def Lexeme.Continues : Lexeme → Lexeme → Prop
  | .word w, lexeme => ∃ w', lexeme = .word w' ∧ w <+: w'
  | .number digits, lexeme => ∃ more, lexeme = .number more ∧ digits <+: more
  | .symbol c, lexeme => lexeme = .symbol c

theorem Lexeme.continues_self (lexeme : Lexeme) : lexeme.Continues lexeme := by
  cases lexeme with
  | word w => exact ⟨w, rfl, List.prefix_rfl⟩
  | number digits => exact ⟨digits, rfl, List.prefix_rfl⟩
  | symbol c => rfl

open Scan

def Scan.spaced (ts : List Token) : Text :=
  ts.flatMap fun token => .char ' ' :: token.lexeme.text

section
variable {file : Option Text} {front text r tail : Text} {ts more : List Token} {lexeme : Lexeme}
  {token : Token}

theorem Scan.Whole.isWritable {after : Text} (whole : Whole front after lexeme) :
    lexeme.isWritable = true := by
  cases lexeme with
  | word w => exact whole.1
  | number digits => exact whole.1
  | symbol c => exact whole

theorem LaidOut.isWritable (laid : LaidOut file front text ts tail) :
    ts.all Token.isWritable = true := by
  induction laid with
  | done last => rfl
  | token between whole later ih =>
      rw [List.all_cons, ih, Bool.and_true]
      exact whole.isWritable

theorem cuts_lexeme (writable : lexeme.isWritable = true) (stops : Text.Stops isWordPart r)
    (p : Cursor) : Cuts file p lexeme.text r [⟨lexeme, p.position file⟩] := by
  cases lexeme with
  | word w => exact cuts_word writable stops
  | number digits => exact cuts_numeral writable (stops_isDigit stops)
  | symbol c => exact cuts_symbol writable

theorem stops_spaced (ts : List Token) : Text.Stops isWordPart (spaced ts) := by
  cases ts with
  | nil => exact Text.stops_nil
  | cons token ts => exact Text.stops_cons.mpr (by decide)

theorem cuts_spaced (file : Option Text) (writable : ts.all Token.isWritable = true) (p : Cursor) :
    ∃ us, us.map Token.lexeme = ts.map Token.lexeme ∧ Cuts file p (spaced ts) [] us := by
  induction ts generalizing p with
  | nil => exact ⟨[], rfl, rfl⟩
  | cons token ts ih =>
      obtain ⟨own, others⟩ := Bool.and_eq_true_iff.mp writable
      obtain ⟨us, same, later⟩ := ih others ((p.after (.char ' ')).afterAll token.lexeme.text)
      have stops : Text.Stops isWordPart (spaced ts ++ []) := by
        rw [List.append_nil]
        exact stops_spaced ts
      have first := (cuts_lexeme own stops (p.after (.char ' '))).append later
      refine ⟨_, ?_, first.afterBlank (c := ' ') (by decide)⟩
      rw [List.map_append, same]
      rfl

/-- Letters behind a lexeme belong to it as far as they can. -/
theorem exists_continued (file : Option Text) (writable : lexeme.isWritable = true) (more : Text) :
    ∃ longer run rest, more = run ++ rest ∧ lexeme.Continues longer ∧
      longer.text = lexeme.text ++ run ∧
      ∀ p, Cuts file p longer.text rest [⟨longer, p.position file⟩] := by
  cases lexeme with
  | word w =>
      have parts : ∀ l ∈ more.takeWhile isWordPart, isWordPart l = true :=
        List.all_eq_true.mp List.all_takeWhile
      obtain ⟨c, others, rfl, start, inside⟩ := exists_of_isName writable
      have longer : isName (.char c :: (others ++ more.takeWhile isWordPart)) = true :=
        Bool.and_eq_true_iff.mpr ⟨start, List.all_eq_true.mpr
          (List.forall_mem_append.mpr ⟨inside, parts⟩)⟩
      exact ⟨.word (.char c :: (others ++ more.takeWhile isWordPart)), _, _,
        List.takeWhile_append_dropWhile.symm, ⟨_, rfl, List.prefix_append _ _⟩, rfl,
        fun p => cuts_word longer (stops_dropWhile isWordPart more)⟩
  | number digits =>
      have parts : ∀ l ∈ more.takeWhile isDigit, isDigit l = true :=
        List.all_eq_true.mp List.all_takeWhile
      obtain ⟨something, inside⟩ := isNumeral_iff.mp writable
      have longer : isNumeral (digits ++ more.takeWhile isDigit) = true :=
        isNumeral_iff.mpr ⟨List.append_ne_nil_of_left_ne_nil something _,
          List.forall_mem_append.mpr ⟨inside, parts⟩⟩
      exact ⟨.number (digits ++ more.takeWhile isDigit), _, _,
        List.takeWhile_append_dropWhile.symm, ⟨_, rfl, List.prefix_append _ _⟩, rfl,
        fun p => cuts_numeral longer (stops_dropWhile isDigit more)⟩
  | symbol c =>
      exact ⟨.symbol c, [], more, rfl, rfl, (List.append_nil _).symm, fun p => cuts_symbol writable⟩

/-- What stands behind a token does not change the tokens in front of it; it may give the token more
letters, and any lexemes can follow it. -/
theorem LaidOut.extended {before behind : List Token} {q : Position}
    (laid : LaidOut file [] text (before ++ ⟨lexeme, q⟩ :: behind) tail) :
    ∃ b rest, text = b ++ (lexeme.text ++ rest) ∧ q = (Cursor.ofFront b).position file ∧
      (∀ more, more.all Token.isWritable = true →
        ∃ us, us.map Token.lexeme = more.map Token.lexeme ∧
          (scan (b ++ lexeme.text ++ spaced more) file).tokens = before ++ ⟨lexeme, q⟩ :: us ∧
          ∃ finish, (scan (b ++ lexeme.text ++ spaced more) file).ending = .ok finish) ∧
      ∀ more, ∃ longer later, lexeme.Continues longer ∧
        (scan (b ++ lexeme.text ++ more) file).tokens = before ++ ⟨longer, q⟩ :: later := by
  obtain ⟨b, rest, split, rfl, whole, found⟩ := laid.upTo
  have writable : lexeme.isWritable = true := whole.isWritable
  have something : lexeme.text ≠ [] := whole.text_ne_nil
  have recut (s r : Text) (us : List Token) (same : (s ++ r).head? = lexeme.text.head?)
      (cut : Cuts file (Cursor.ofFront ([] ++ b)) s r us) :
      Cuts file Cursor.start (b ++ s) r (before ++ us) := by
    rw [Cursor.ofFront_append] at cut
    exact (found (s ++ r) same).append cut
  refine ⟨b, rest, split, rfl, fun more allWritable => ?_, fun more => ?_⟩
  · obtain ⟨us, same, later⟩ := cuts_spaced file allWritable
      ((Cursor.ofFront ([] ++ b)).afterAll lexeme.text)
    have stops : Text.Stops isWordPart (spaced more ++ []) := by
      rw [List.append_nil]
      exact stops_spaced more
    have cut := recut (lexeme.text ++ spaced more) [] _
      (by rw [List.append_assoc, List.head?_append_of_ne_nil _ something])
      ((cuts_lexeme writable stops _).append later)
    rw [← List.append_assoc] at cut
    obtain ⟨tokens, ending⟩ := scan_eq_of_cuts cut
    exact ⟨us, same, tokens, ending⟩
  · obtain ⟨longer, run, left, rfl, goesOn, longText, cut⟩ := exists_continued file writable more
    have whole := recut longer.text left _
      (by rw [longText, List.append_assoc, List.head?_append_of_ne_nil _ something])
      (cut (Cursor.ofFront ([] ++ b)))
    unfold Cuts at whole
    rw [longText] at whole
    simp only [List.append_assoc] at whole ⊢
    rw [scan, whole]
    exact ⟨longer, _, goesOn, List.append_assoc ..⟩

end
end SchemaHistory
