import SchemaHistory.Proofs.Text.Pieces
import SchemaHistory.Source.Token

/-! # Scanning piece by piece

`Scan.Cuts` says which tokens a piece of text gives when the scan comes to its first letter.  Pieces
can be put behind each other (`Cuts.append`), and a word or a number only has to be followed by a
letter that does not continue it.  All words that a scan finds are names. -/
set_option autoImplicit false
namespace SchemaHistory

namespace Scan

def behind (ts : List Token) (scan : Scan) : Scan := { scan with tokens := ts ++ scan.tokens }

/-- A letter or an underscore, then letters, underscores and digits. -/
def isName : Text → Bool
  | .char c :: rest => isWordStart c && rest.all isWordPart
  | _ => false

def isNumeral (t : Text) : Bool := !t.isEmpty && t.all isDigit

end Scan

/-- The text of the lexeme is one that a scan cuts into this lexeme. -/
def Lexeme.isWritable : Lexeme → Bool
  | .word w => Scan.isName w
  | .number digits => Scan.isNumeral digits
  | .symbol c => Scan.isSymbol c

def Token.isWritable (token : Token) : Bool := token.lexeme.isWritable

namespace Scan

/-- The piece `s` gives the tokens `ts` from `p` on, where `r` follows. -/
def Cuts (file : Option Text) (p : Cursor) (s r : Text) (ts : List Token) : Prop :=
  ofText file p (s ++ r) = (ofText file (p.afterAll s) r).behind ts

/-! ## Classes of characters -/

section
variable {c : Char}

theorem isWordStart_iff : isWordStart c = true ↔
    65 ≤ c.toNat ∧ c.toNat ≤ 90 ∨ 97 ≤ c.toNat ∧ c.toNat ≤ 122 ∨ c.toNat = 95 := by
  have underscore : c = '_' ↔ c.toNat = 95 := Char.toNat_inj.symm
  have letter : c.isAlpha = (decide (65 ≤ c.val ∧ c.val ≤ 90) ||
      (decide (97 ≤ c.val) && decide (c.val ≤ 122))) := rfl
  simp [isWordStart, letter, underscore, or_assoc, UInt32.le_iff_toNat_le]

theorem isDigit_iff : c.isDigit = true ↔ 48 ≤ c.toNat ∧ c.toNat ≤ 57 := by
  simp [Char.isDigit, UInt32.le_iff_toNat_le]

theorem isBlank_of_graphic (above : 0x20 < c.toNat) (below : c.toNat < 0x7F) :
    Text.isBlank c = false := by
  simp only [Text.isBlank, Text.isSpace, Text.spaceRanges, Text.isSeparator, List.any_cons,
    List.any_nil, Bool.or_false, Bool.or_eq_false_iff, Bool.and_eq_false_iff,
    decide_eq_false_iff_not]
  omega

theorem startsComment_of_ne {rest : Text} (other : c ≠ '/') : startsComment c rest = false := by
  simp [startsComment, other]

theorem isWordPart_char : isWordPart (.char c) = true ↔
    isWordStart c = true ∨ c.isDigit = true := by
  simp only [isWordPart, isWordStart, Letter.satisfies, Char.isAlphanum, Bool.or_eq_true]
  exact or_right_comm

theorem isWordPart_of_isDigit {l : Letter} (digit : isDigit l = true) : isWordPart l = true := by
  cases l with
  | char c => exact isWordPart_char.mpr (.inr digit)
  | surrogate offset => cases digit

theorem stops_isDigit {t : Text} (stops : Text.Stops isWordPart t) : Text.Stops isDigit t := by
  intro l first
  rw [Bool.eq_false_iff]
  intro digit
  exact absurd (isWordPart_of_isDigit digit) (by rw [stops l first]; decide)

theorem not_isDigit_of_isWordStart (start : isWordStart c = true) : c.isDigit = false := by
  rw [Bool.eq_false_iff]
  intro digit
  have word := isWordStart_iff.mp start
  have number := isDigit_iff.mp digit
  omega

theorem not_isWordPart_of_isBlank (blank : Text.isBlank c = true) :
    isWordPart (.char c) = false := by
  rw [Bool.eq_false_iff, ne_eq, isWordPart_char, isWordStart_iff, isDigit_iff]
  intro part
  exact absurd blank (by rw [isBlank_of_graphic (by omega) (by omega)]; decide)

theorem not_isWordPart_of_isSymbol (symbol : isSymbol c = true) :
    isWordPart (.char c) = false := by
  have apart : symbols.all (fun c => !isWordPart (.char c)) = true := by decide
  simpa using List.all_eq_true.mp apart c (List.contains_iff_mem.mp symbol)

theorem exists_of_startsComment {rest : Text} (comment : startsComment c rest = true) :
    c = '/' ∧ ∃ inner, rest = .char '/' :: inner := by
  simp only [startsComment, Bool.and_eq_true, beq_iff_eq] at comment
  obtain ⟨same, first⟩ := comment
  exact ⟨same, List.head?_eq_some_iff.mp first⟩

theorem exists_of_isName {w : Text} (name : isName w = true) :
    ∃ c rest, w = .char c :: rest ∧ isWordStart c = true ∧ ∀ l ∈ rest, isWordPart l = true := by
  match w, name with
  | .char c :: rest, name =>
      obtain ⟨first, others⟩ := Bool.and_eq_true_iff.mp name
      exact ⟨c, rest, rfl, first, List.all_eq_true.mp others⟩

theorem isWordPart_of_isName {w : Text} (name : isName w = true) :
    ∀ l ∈ w, isWordPart l = true := by
  obtain ⟨c, rest, rfl, first, others⟩ := exists_of_isName name
  exact List.forall_mem_cons.mpr ⟨isWordPart_char.mpr (.inl first), others⟩

theorem isNumeral_iff {t : Text} : isNumeral t = true ↔ t ≠ [] ∧ ∀ l ∈ t, isDigit l = true := by
  simp [isNumeral]

end

/-! ## Pieces -/

section
variable {file : Option Text} {p : Cursor} {r s t w : Text} {ts us : List Token} {c : Char}

theorem Cuts.append (first : Cuts file p s (t ++ r) ts) (second : Cuts file (p.afterAll s) t r us) :
    Cuts file p (s ++ t) r (ts ++ us) := by
  unfold Cuts at first second ⊢
  rw [List.append_assoc, first, second, Cursor.afterAll_append]
  simp only [behind, List.append_assoc]

theorem Cuts.tokens (cut : Cuts file p s [] ts) : (ofText file p s).tokens = ts := by
  unfold Cuts at cut
  rw [List.append_nil] at cut
  rw [cut, ofText]
  exact List.append_nil ts

theorem scan_eq_of_cuts (cut : Cuts file Cursor.start s [] ts) :
    (scan s file).tokens = ts ∧ ∃ finish, (scan s file).ending = .ok finish := by
  unfold Cuts at cut
  rw [List.append_nil] at cut
  rw [scan, cut, ofText]
  exact ⟨List.append_nil ts, _, rfl⟩

theorem cuts_blank (blank : Text.isBlank c = true) : Cuts file p [.char c] r [] := by
  unfold Cuts
  rw [List.singleton_append, ofText, if_pos blank]
  rfl

theorem cuts_symbol (symbol : isSymbol c = true) :
    Cuts file p [.char c] r [⟨.symbol c, p.position file⟩] := by
  have apart : (symbols.all fun d => !Text.isBlank d && d != '/' && !isWordStart d && !d.isDigit) =
      true := by decide
  have own := List.all_eq_true.mp apart c (List.contains_iff_mem.mp symbol)
  simp only [Bool.and_eq_true, Bool.not_eq_true', bne_iff_ne, and_assoc] at own
  obtain ⟨blank, slash, start, digit⟩ := own
  unfold Cuts
  rw [List.singleton_append, ofText, blank, startsComment_of_ne slash, start, digit, symbol]
  rfl

theorem Cuts.afterSymbol (symbol : isSymbol c = true)
    (later : Cuts file (p.after (.char c)) s r ts) :
    Cuts file p (.char c :: s) r (⟨.symbol c, p.position file⟩ :: ts) :=
  (cuts_symbol symbol).append later

theorem Cuts.afterBlank (blank : Text.isBlank c = true)
    (later : Cuts file (p.after (.char c)) s r ts) : Cuts file p (.char c :: s) r ts :=
  (cuts_blank blank).append later

theorem cuts_word (name : isName w = true) (stops : Text.Stops isWordPart r) :
    Cuts file p w r [⟨.word w, p.position file⟩] := by
  obtain ⟨c, rest, rfl, first, others⟩ := exists_of_isName name
  have code := isWordStart_iff.mp first
  have blank : Text.isBlank c = false := isBlank_of_graphic (by omega) (by omega)
  have slash : c ≠ '/' := by
    intro same
    subst same
    exact absurd first (by decide)
  unfold Cuts
  rw [List.cons_append, ofText, blank, startsComment_of_ne slash, if_pos first]
  simp only [Text.takeWhile_append_stops others stops, Text.dropWhile_append_stops others stops]
  rfl

theorem cuts_numeral {digits : Text} (numeral : isNumeral digits = true)
    (ends : Text.Stops isDigit r) :
    Cuts file p digits r [⟨.number digits, p.position file⟩] := by
  obtain ⟨something, inside⟩ := isNumeral_iff.mp numeral
  obtain ⟨l, rest, rfl⟩ := List.exists_cons_of_ne_nil something
  obtain ⟨first, others⟩ := List.forall_mem_cons.mp inside
  cases l with
  | surrogate offset => cases first
  | char c =>
      have digit : c.isDigit = true := first
      have code := isDigit_iff.mp digit
      have blank : Text.isBlank c = false := isBlank_of_graphic (by omega) (by omega)
      have slash : c ≠ '/' := by
        intro same
        subst same
        exact absurd digit (by decide)
      have start : isWordStart c = false := by
        rw [Bool.eq_false_iff, ne_eq, isWordStart_iff]
        omega
      unfold Cuts
      rw [List.cons_append, ofText, blank, startsComment_of_ne slash, start, if_pos digit]
      simp only [Text.takeWhile_append_stops others ends, Text.dropWhile_append_stops others ends]
      rfl

theorem isNumeral_ofNat (n : Nat) : isNumeral (Text.ofNat n) = true := by
  obtain ⟨c, rest, shape, -⟩ := Text.exists_ofNat n
  refine isNumeral_iff.mpr ⟨by rw [shape]; exact List.cons_ne_nil _ _, ?_⟩
  exact fun l member => Text.isWesternDigit_of_mem_ofNat member

theorem cuts_number (n : Nat) (stops : Text.Stops isWordPart r) :
    Cuts file p (Text.ofNat n) r [⟨.number (Text.ofNat n), p.position file⟩] :=
  cuts_numeral (isNumeral_ofNat n) (stops_isDigit stops)

theorem cuts_comment {body : Text} (inside : ∀ l ∈ body, inLine l = true)
    (ends : Text.Stops inLine r) : Cuts file p (.char '/' :: .char '/' :: body) r [] := by
  have line : ∀ l ∈ (.char '/' :: body : Text), inLine l = true :=
    List.forall_mem_cons.mpr ⟨by decide, inside⟩
  have blank : Text.isBlank '/' = false := by decide
  have comment : startsComment '/' (.char '/' :: body ++ r) = true := rfl
  unfold Cuts
  rw [List.cons_append, ofText, blank, comment]
  simp only [Text.takeWhile_append_stops line ends, Text.dropWhile_append_stops line ends]
  rfl

end

/-! ## Words of a scan -/

theorem isName_of_mem {file : Option Text} {p : Cursor} {t w : Text} {q : Position}
    (found : ⟨.word w, q⟩ ∈ (ofText file p t).tokens) : isName w = true := by
  fun_induction ofText file p t with
  | case1 => cases found
  | case2 => cases found
  | case3 p c rest blank ih => exact ih found
  | case4 p c rest blank comment ih => exact ih found
  | case5 p c rest blank comment start word ih =>
      rcases List.mem_cons.mp found with same | later
      · have whole : w = word := Lexeme.word.inj (Token.mk.inj same).1
        rw [whole]
        exact Bool.and_eq_true_iff.mpr ⟨start, List.all_takeWhile⟩
      · exact ih later
  | case6 p c rest blank comment start digit digits ih =>
      rcases List.mem_cons.mp found with same | later
      · cases same
      · exact ih later
  | case7 p c rest blank comment start digit symbol ih =>
      rcases List.mem_cons.mp found with same | later
      · cases same
      · exact ih later
  | case8 => cases found

end Scan
end SchemaHistory
