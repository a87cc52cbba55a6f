import Mathlib.Data.List.DropRight
import SchemaHistory.Proofs.Source.Cuts
import SchemaHistory.Proofs.Source.Standing

/-! # How a scanned text is laid out

`LaidOut` says how a text is put together from tokens and from the gaps between them, and where each
token stands, counted from all of the text in front of it.  It does not mention the scan.  A scan
finds such a layout up to the end of the text or up to a letter that starts nothing
(`Scan.scan_laysOut`), and a text that has one up to its end has no other (`LaidOut.cuts`). -/
set_option autoImplicit false
namespace SchemaHistory

def Text.lastLine (front : Text) : Text := front.rtakeWhile Scan.inLine

def Cursor.ofFront (front : Text) : Cursor :=
  ⟨1 + front.count (.char '\n'), 1 + front.lastLine.length⟩

section
variable {front s : Text} {l : Letter}

theorem Text.lastLine_newline : Text.lastLine (front ++ [.char '\n']) = [] :=
  List.rtakeWhile_concat_neg _ _ _ (by decide)

theorem Text.lastLine_concat (inside : Scan.inLine l = true) :
    Text.lastLine (front ++ [l]) = front.lastLine ++ [l] :=
  List.rtakeWhile_concat_pos _ _ _ inside

theorem Text.lastLine_append (inside : ∀ l ∈ s, Scan.inLine l = true) :
    Text.lastLine (front ++ s) = front.lastLine ++ s := by
  induction s generalizing front with
  | nil => rw [List.append_nil, List.append_nil]
  | cons l s ih =>
      obtain ⟨first, others⟩ := List.forall_mem_cons.mp inside
      rw [List.append_cons, ih others, lastLine_concat first, List.append_assoc]
      rfl

theorem Cursor.afterAll_start (front : Text) : start.afterAll front = ofFront front := by
  induction front using List.reverseRecOn with
  | nil => rfl
  | append_singleton front l ih =>
      rw [afterAll_append, ih]
      by_cases newline : l = .char '\n'
      · subst newline
        simp only [ofFront, Text.lastLine_newline, List.count_append]
        rfl
      · have inside : Scan.inLine l = true := decide_eq_true newline
        have other : [l].count (.char '\n') = 0 :=
          List.count_eq_zero.mpr (by simpa using Ne.symm newline)
        simp only [ofFront, Text.lastLine_concat inside, List.count_append, other,
          List.length_append, afterAll_cons, afterAll_nil, after, if_neg newline]
        rfl

theorem Cursor.ofFront_append (front s : Text) :
    ofFront (front ++ s) = (ofFront front).afterAll s := by
  rw [← afterAll_start, ← afterAll_start, afterAll_append]

end

/-! ## Layouts -/

namespace Scan

/-- The piece is of the class, and no longer piece around it is. -/
def Maximal (p : Text → Bool) (before s after : Text) : Prop :=
  p s = true ∧ ∀ l r, l <:+ before → r <+: after → p (l ++ s ++ r) = true → l = [] ∧ r = []

/-- Words and numbers take all letters that belong to them. -/
def Whole (before after : Text) : Lexeme → Prop
  | .word w => Maximal isName before w after
  | .number digits => Maximal isNumeral before digits after
  | .symbol c => isSymbol c = true

/-- A letter that starts nothing when it stands outside of comments. -/
def Foreign (l : Letter) (after : Text) : Prop :=
  l.satisfies Text.isBlank = false ∧ isWordPart l = false ∧ l.satisfies isSymbol = false ∧
    ¬(l = .char '/' ∧ after.head? = some (.char '/'))

end Scan

open Scan

/-- Blank characters and comments, where `after` follows.  A comment ends in front of a line feed or
where the text ends. -/
inductive Gap (after : Text) : Text → Prop
  | nil : Gap after []
  | blank {c : Char} {g : Text} (blank : Text.isBlank c = true) (more : Gap after g) :
      Gap after (.char c :: g)
  | comment {body g : Text} (inside : ∀ l ∈ body, inLine l = true)
      (ends : Text.Stops inLine (g ++ after)) (more : Gap after g) :
      Gap after (.char '/' :: .char '/' :: (body ++ g))

/-- The text that stands behind `front` is made of gaps and the tokens, up to `tail`. -/
inductive LaidOut (file : Option Text) : Text → Text → List Token → Text → Prop
  | done {front gap tail : Text} (last : Gap tail gap) : LaidOut file front (gap ++ tail) [] tail
  | token {front gap rest tail : Text} {lexeme : Lexeme} {ts : List Token}
      (between : Gap (lexeme.text ++ rest) gap) (whole : Whole (front ++ gap) rest lexeme)
      (later : LaidOut file (front ++ (gap ++ lexeme.text)) rest ts tail) :
      LaidOut file front (gap ++ (lexeme.text ++ rest))
        (⟨lexeme, (Cursor.ofFront (front ++ gap)).position file⟩ :: ts) tail

inductive Ends (file : Option Text) (text : Text) : Text → Except Diagnostic Position → Prop
  | finished : Ends file text [] (.ok ((Cursor.ofFront text).position file))
  | stuck {before after : Text} {l : Letter} (split : text = before ++ l :: after)
      (foreign : Foreign l after) :
      Ends file text (l :: after)
        (.error ⟨.text (.unexpectedCharacter l), some ((Cursor.ofFront before).position file)⟩)

section
variable {file : Option Text} {front piece t r tail : Text} {ts : List Token} {l : Letter}
  {lexeme : Lexeme}

theorem LaidOut.here (file : Option Text) (front tail : Text) : LaidOut file front tail [] tail :=
  @LaidOut.done file front [] tail .nil

theorem LaidOut.widen (laid : LaidOut file (front ++ piece) t ts tail)
    (wider : ∀ g after, t = g ++ after → Gap after g → Gap after (piece ++ g)) :
    LaidOut file front (piece ++ t) ts tail := by
  cases laid with
  | done last =>
      rw [← List.append_assoc]
      exact .done (wider _ _ rfl last)
  | token between whole later =>
      rw [← List.append_assoc, List.append_assoc front]
      rw [List.append_assoc front] at whole
      rw [List.append_assoc front, ← List.append_assoc piece] at later
      exact .token (wider _ _ rfl between) whole later

theorem LaidOut.behindToken (whole : Whole front t lexeme)
    (later : LaidOut file (front ++ lexeme.text) t ts tail) :
    LaidOut file front (lexeme.text ++ t)
      (⟨lexeme, (Cursor.ofFront front).position file⟩ :: ts) tail := by
  have laid : LaidOut file front ([] ++ (lexeme.text ++ t))
      (⟨lexeme, (Cursor.ofFront (front ++ [])).position file⟩ :: ts) tail :=
    .token .nil (by rwa [List.append_nil]) later
  rwa [List.append_nil] at laid

/-! ## Words and numbers are maximal -/

/-- Words in front of the text are not continued by it: only a number can be followed by a letter of
a word, and not by a digit. -/
def Scan.Detached (front t : Text) : Prop :=
  ∀ l, l <:+ front → (∀ x ∈ l, isWordPart x = true) → ∀ y ∈ t.head?,
    (isDigit y = true → l = []) ∧ (isWordPart y = true → ∀ x ∈ l, isDigit x = true)

namespace Scan

theorem detached_nil : Detached [] t := by
  intro s suffix inside y first
  rw [List.suffix_nil.mp suffix]
  exact ⟨fun _ => rfl, fun _ x member => absurd member List.not_mem_nil⟩

theorem detached_of_stops (stops : Text.Stops isWordPart t) : Detached front t := by
  intro s suffix inside y first
  refine ⟨fun digit => ?_, fun part => ?_⟩
  · exact absurd digit (by rw [stops_isDigit stops y first]; decide)
  · exact absurd part (by rw [stops y first]; decide)

/-- A comment is not followed by a letter of a word. -/
theorem stops_of_stops_inLine (ends : Text.Stops inLine t) : Text.Stops isWordPart t := by
  intro l first
  have newline : l = .char '\n' := by simpa [inLine] using ends l first
  subst newline
  decide

theorem detached_concat (other : isWordPart l = false) : Detached (front ++ [l]) t := by
  intro s suffix inside y first
  have none : s = [] := by
    rcases List.suffix_concat_iff.mp suffix with same | ⟨shorter, rfl, -⟩
    · exact same
    · have part := inside l (List.mem_append_right _ List.mem_cons_self)
      exact absurd part (by rw [other]; decide)
  rw [none]
  exact ⟨fun _ => rfl, fun _ x member => absurd member List.not_mem_nil⟩

theorem Detached.behindDigits {digits : Text} (detached : Detached front (digits ++ t))
    (numeral : isNumeral digits = true) (stops : Text.Stops isDigit t) :
    Detached (front ++ digits) t := by
  obtain ⟨something, inside⟩ := isNumeral_iff.mp numeral
  intro s suffix parts y first
  refine ⟨fun digit => absurd digit (by rw [stops y first]; decide), fun _ => ?_⟩
  obtain ⟨before, split⟩ := suffix
  rcases List.append_eq_append_iff.mp split with ⟨longer, rfl, rfl⟩ | ⟨shorter, rfl, rfl⟩
  · -- the digits go on with the letters in front of them only if there are none
    obtain ⟨c, others, rfl⟩ := List.exists_cons_of_ne_nil something
    have free := (detached longer (List.suffix_append _ _)
      (fun x member => parts x (List.mem_append_left _ member)) c rfl).1
      (inside c List.mem_cons_self)
    rw [free, List.nil_append]
    exact inside
  · exact fun x member => inside x (List.mem_append_right _ member)

theorem maximal_name {w : Text} (detached : Detached front (w ++ t)) (name : isName w = true)
    (stops : Text.Stops isWordPart t) : Maximal isName front w t := by
  refine ⟨name, fun before after suffix follows longer => ?_⟩
  have parts := isWordPart_of_isName longer
  simp only [List.forall_mem_append] at parts
  obtain ⟨⟨left, own⟩, right⟩ := parts
  constructor
  · obtain ⟨c, others, rfl, start, -⟩ := exists_of_isName name
    have digits := (detached before suffix left (.char c) rfl).2 (own _ List.mem_cons_self)
    cases before with
    | nil => rfl
    | cons x before =>
        obtain ⟨d, behind, same, first, -⟩ := exists_of_isName longer
        obtain ⟨rfl, -⟩ := List.cons.inj same
        have digit : d.isDigit = true := digits _ List.mem_cons_self
        exact absurd digit (by rw [not_isDigit_of_isWordStart first]; decide)
  · cases after with
    | nil => rfl
    | cons x after =>
        obtain ⟨rest, rfl⟩ := follows
        exact absurd (right x List.mem_cons_self) (by rw [Text.stops_cons.mp stops]; decide)

theorem maximal_numeral {digits : Text} (detached : Detached front (digits ++ t))
    (numeral : isNumeral digits = true) (stops : Text.Stops isDigit t) :
    Maximal isNumeral front digits t := by
  refine ⟨numeral, fun before after suffix follows longer => ?_⟩
  obtain ⟨-, parts⟩ := isNumeral_iff.mp longer
  simp only [List.forall_mem_append] at parts
  obtain ⟨⟨left, own⟩, right⟩ := parts
  constructor
  · obtain ⟨c, others, rfl⟩ := List.exists_cons_of_ne_nil (isNumeral_iff.mp numeral).1
    exact (detached before suffix (fun x member => isWordPart_of_isDigit (left x member)) c rfl).1
      (own c List.mem_cons_self)
  · cases after with
    | nil => rfl
    | cons x after =>
        obtain ⟨rest, rfl⟩ := follows
        exact absurd (right x List.mem_cons_self) (by rw [Text.stops_cons.mp stops]; decide)

theorem stops_dropWhile (part : Letter → Bool) (t : Text) : Text.Stops part (t.dropWhile part) := by
  intro l first
  have outside := List.head?_dropWhile_not part t
  rw [Option.mem_def.mp first] at outside
  exact outside

end Scan

/-! ## The layout that a scan finds -/

namespace Scan

def LaysOut (file : Option Text) (front t : Text) (scan : Scan) : Prop :=
  ∃ tail, LaidOut file front t scan.tokens tail ∧ Ends file (front ++ t) tail scan.ending

variable {found : Scan} {p : Cursor}

theorem LaysOut.behindGap (wider : ∀ g after, t = g ++ after → Gap after g → Gap after (piece ++ g))
    (later : LaysOut file (front ++ piece) t found) : LaysOut file front (piece ++ t) found := by
  obtain ⟨tail, laid, ends⟩ := later
  rw [List.append_assoc] at ends
  exact ⟨tail, laid.widen wider, ends⟩

theorem LaysOut.behindToken (lexeme : Lexeme) (here : p = Cursor.ofFront front)
    (whole : Whole front t lexeme) (later : LaysOut file (front ++ lexeme.text) t found) :
    LaysOut file front (lexeme.text ++ t) (found.put ⟨lexeme, p.position file⟩) := by
  obtain ⟨tail, laid, ends⟩ := later
  rw [List.append_assoc] at ends
  subst here
  exact ⟨tail, laid.behindToken whole, ends⟩

/-- Behind `front`, the scan that starts at the right place lays the text out. -/
theorem laysOut (file : Option Text) (p : Cursor) (t : Text) :
    ∀ front, p = Cursor.ofFront front → Detached front t →
      LaysOut file front t (ofText file p t) := by
  have step (p : Cursor) (front s : Text) (here : p = Cursor.ofFront front) :
      p.afterAll s = Cursor.ofFront (front ++ s) := by rw [Cursor.ofFront_append, here]
  fun_induction ofText file p t with
  | case1 p =>
      rintro front rfl -
      exact ⟨[], .here file front [], by rw [List.append_nil]; exact .finished⟩
  | case2 p offset rest =>
      rintro front rfl -
      refine ⟨_, .here file front _, .stuck rfl ⟨rfl, rfl, rfl, ?_⟩⟩
      rintro ⟨slash, -⟩
      cases slash
  | case3 p c rest blank ih =>
      intro front here detached
      have later := ih _ (step p front [.char c] here)
        (detached_concat (not_isWordPart_of_isBlank blank))
      exact later.behindGap fun _ _ _ gap => gap.blank blank
  | case4 p c rest blank comment ih =>
      intro front here detached
      obtain ⟨rfl, inner, rfl⟩ := exists_of_startsComment comment
      have ends := stops_dropWhile inLine (.char '/' :: inner)
      have later := ih _ (step p front _ here) (detached_of_stops (stops_of_stops_inLine ends))
      rw [pieces_eq inLine]
      refine later.behindGap fun g after split gap => ?_
      have inside : ∀ l ∈ inner.takeWhile inLine, inLine l = true :=
        List.all_eq_true.mp List.all_takeWhile
      exact gap.comment inside (by rwa [← split])
  | case5 p c rest blank comment start word ih =>
      intro front here detached
      have name : isName word = true := Bool.and_eq_true_iff.mpr ⟨start, List.all_takeWhile⟩
      have stops := stops_dropWhile isWordPart rest
      rw [pieces_eq isWordPart] at detached ⊢
      exact LaysOut.behindToken (.word word) here (maximal_name detached name stops)
        (ih _ (step p front word here) (detached_of_stops stops))
  | case6 p c rest blank comment start digit digits ih =>
      intro front here detached
      have numeral : isNumeral digits = true :=
        isNumeral_iff.mpr ⟨List.cons_ne_nil _ _, List.forall_mem_cons.mpr
          ⟨digit, List.all_eq_true.mp List.all_takeWhile⟩⟩
      have stops := stops_dropWhile isDigit rest
      rw [pieces_eq isDigit] at detached ⊢
      exact LaysOut.behindToken (.number digits) here
        (maximal_numeral detached numeral stops)
        (ih _ (step p front digits here) (detached.behindDigits numeral stops))
  | case7 p c rest blank comment start digit symbol ih =>
      intro front here detached
      exact LaysOut.behindToken (.symbol c) here symbol
        (ih _ (step p front [.char c] here) (detached_concat (not_isWordPart_of_isSymbol symbol)))
  | case8 p c rest blank comment start digit symbol =>
      rintro front rfl -
      refine ⟨_, .here file front _, .stuck rfl ⟨?_, ?_, ?_, ?_⟩⟩
      · exact Bool.eq_false_iff.mpr blank
      · rw [Bool.eq_false_iff, ne_eq, isWordPart_char]
        exact not_or.mpr ⟨start, digit⟩
      · exact Bool.eq_false_iff.mpr symbol
      · rintro ⟨slash, next⟩
        cases slash
        exact comment (by rw [startsComment, next]; rfl)

theorem scan_laysOut (text : Text) (file : Option Text) : LaysOut file [] text (scan text file) :=
  laysOut file Cursor.start text [] rfl detached_nil

end Scan
end

/-! ## A layout is found

The scan of a piece looks at no more than the first letter of what follows it. -/

section
variable {file : Option Text} {p : Cursor} {front t r g after tail : Text} {ts : List Token}
  {lexeme : Lexeme}

theorem Gap.cuts (gap : Gap after g) (same : r.head? = after.head?) (p : Cursor) :
    Cuts file p g r [] := by
  induction gap generalizing p with
  | nil => rfl
  | blank blank more ih => exact (ih _).afterBlank blank
  | @comment body g inside ends more ih =>
      have again : (g ++ r).head? = (g ++ after).head? := by rw [List.head?_append, same,
        List.head?_append]
      exact (cuts_comment inside (ends.of_head again)).append (ih _)

theorem Scan.Maximal.stops {piece : Text → Bool} {part : Letter → Bool}
    (whole : Maximal piece front t after) (longer : ∀ l, part l = true → piece (t ++ [l]) = true) :
    Text.Stops part after := by
  intro l first
  obtain ⟨rest, rfl⟩ := List.head?_eq_some_iff.mp first
  rw [Bool.eq_false_iff]
  intro inside
  exact absurd (whole.2 [] [l] List.nil_suffix ⟨rest, rfl⟩ (longer l inside)).2
    (List.cons_ne_nil _ _)

theorem Scan.Whole.cuts (whole : Whole front after lexeme) (same : r.head? = after.head?)
    (p : Cursor) : Cuts file p lexeme.text r [⟨lexeme, p.position file⟩] := by
  cases lexeme with
  | word w =>
      have maximal : Maximal isName front w after := whole
      obtain ⟨c, rest, rfl, start, others⟩ := exists_of_isName maximal.1
      have stops : Text.Stops isWordPart after := maximal.stops fun l part =>
        Bool.and_eq_true_iff.mpr ⟨start, List.all_eq_true.mpr
          (List.forall_mem_append.mpr ⟨others, List.forall_mem_singleton.mpr part⟩)⟩
      exact cuts_word maximal.1 (stops.of_head same)
  | number digits =>
      have maximal : Maximal isNumeral front digits after := whole
      have inside := (isNumeral_iff.mp maximal.1).2
      have stops : Text.Stops isDigit after := maximal.stops fun l digit =>
        isNumeral_iff.mpr ⟨by simp, List.forall_mem_append.mpr
          ⟨inside, List.forall_mem_singleton.mpr digit⟩⟩
      exact cuts_numeral maximal.1 (stops.of_head same)
  | symbol c => exact cuts_symbol whole

theorem Scan.Whole.text_ne_nil (whole : Whole front after lexeme) : lexeme.text ≠ [] := by
  cases lexeme with
  | word w =>
      obtain ⟨c, rest, rfl, -⟩ := exists_of_isName whole.1
      exact List.cons_ne_nil _ _
  | number digits => exact (isNumeral_iff.mp whole.1).1
  | symbol c => exact List.cons_ne_nil _ _

theorem cuts_token {gap rest s : Text} {us : List Token} (between : Gap (lexeme.text ++ rest) gap)
    (whole : Whole (front ++ gap) rest lexeme) (same : (s ++ r).head? = rest.head?)
    (found : Cuts file (Cursor.ofFront (front ++ (gap ++ lexeme.text))) s r us) :
    Cuts file (Cursor.ofFront front) (gap ++ (lexeme.text ++ s)) r
      (⟨lexeme, (Cursor.ofFront (front ++ gap)).position file⟩ :: us) := by
  rw [Cursor.ofFront_append, Cursor.afterAll_append] at found
  rw [Cursor.ofFront_append]
  have gapped : Cuts file (Cursor.ofFront front) gap (lexeme.text ++ s ++ r) [] := by
    refine between.cuts ?_ _
    rw [List.append_assoc, List.head?_append_of_ne_nil _ whole.text_ne_nil,
      List.head?_append_of_ne_nil _ whole.text_ne_nil]
  exact gapped.append ((whole.cuts same _).append found)

theorem LaidOut.cuts (laid : LaidOut file front t ts tail) :
    ∃ read, t = read ++ tail ∧ Cuts file (Cursor.ofFront front) read tail ts := by
  induction laid with
  | done last => exact ⟨_, rfl, last.cuts rfl _⟩
  | token between whole later ih =>
      obtain ⟨read, rfl, found⟩ := ih
      exact ⟨_, by simp only [List.append_assoc], cuts_token between whole rfl found⟩

/-- What stands in front of a token in a layout is cut alike whatever follows it, as long as that
starts with the same letter as the token. -/
theorem LaidOut.upTo {token : Token} {before behind : List Token}
    (laid : LaidOut file front t (before ++ token :: behind) tail) :
    ∃ b rest, t = b ++ (token.lexeme.text ++ rest) ∧
      token.position = (Cursor.ofFront (front ++ b)).position file ∧
      Whole (front ++ b) rest token.lexeme ∧
      ∀ r, r.head? = token.lexeme.text.head? → Cuts file (Cursor.ofFront front) b r before := by
  induction before generalizing front t with
  | nil =>
      cases laid with
      | @token _ gap rest _ lexeme _ between whole later =>
          refine ⟨gap, rest, rfl, rfl, whole, fun r same => between.cuts ?_ _⟩
          rw [same, List.head?_append_of_ne_nil _ whole.text_ne_nil]
  | cons x before ih =>
      cases laid with
      | @token _ gap rest _ lexeme _ between whole later =>
          obtain ⟨b, rest, rfl, here, own, found⟩ := ih later
          have front_eq : front ++ (gap ++ lexeme.text) ++ b =
              front ++ (gap ++ (lexeme.text ++ b)) := by simp only [List.append_assoc]
          rw [front_eq] at here own
          refine ⟨gap ++ (lexeme.text ++ b), rest, by simp only [List.append_assoc], here, own,
            fun r same => cuts_token between whole ?_ (found r same)⟩
          rw [List.head?_append, same, ← List.head?_append_of_ne_nil _ own.text_ne_nil,
            ← List.head?_append]

end
end SchemaHistory
