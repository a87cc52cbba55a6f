import Mathlib.Data.List.Nodup
import SchemaHistory.Source.Token

/-! # Where the tokens of a scan stand

Every token of a scan stands in the text, at the place that its position says
(`Scan.stands_of_mem`), and no other token has this position (`Scan.eq_of_position_eq`).  A scan
ends behind the last letter of the text, or at a letter that starts no token
(`Scan.ending_eq_ok`, `Scan.ending_eq_error`). -/
set_option autoImplicit false
namespace SchemaHistory

/-- The letters stand in the text at a place, where the first letter of the text stands at
`start`. -/
def StandsFrom (start : Cursor) (file : Option Text) (text written : Text) (p : Position) : Prop :=
  ∃ before after, text = before ++ written ++ after ∧ p = (start.afterAll before).position file

abbrev StandsAt (file : Option Text) (text written : Text) (p : Position) : Prop :=
  StandsFrom Cursor.start file text written p

theorem StandsFrom.file {start : Cursor} {file : Option Text} {text written : Text} {p : Position}
    (stands : StandsFrom start file text written p) : p.file = file := by
  obtain ⟨before, after, -, rfl⟩ := stands
  rfl

theorem StandsFrom.behind {start : Cursor} {file : Option Text} {rest written : Text}
    {p : Position} (front : Text) (stands : StandsFrom (start.afterAll front) file rest written p) :
    StandsFrom start file (front ++ rest) written p := by
  obtain ⟨before, after, rfl, rfl⟩ := stands
  refine ⟨front ++ before, after, by simp only [List.append_assoc], ?_⟩
  rw [Cursor.afterAll_append]

/-- Reading on leads to a later line, or to a later column of the same line. -/
theorem Cursor.afterAll_grows (p : Cursor) (t : Text) :
    p.line < (p.afterAll t).line ∨
      (p.afterAll t).line = p.line ∧ (p.afterAll t).column = p.column + t.length := by
  induction t generalizing p with
  | nil => exact .inr ⟨rfl, rfl⟩
  | cons l t ih =>
      have later := ih (p.after l)
      rw [← afterAll_cons] at later
      rw [List.length_cons]
      -- a line feed leads to the next line, any other letter to the next column
      by_cases newline : l = .char '\n'
      · have down : p.after l = ⟨p.line + 1, 1⟩ := if_pos newline
        simp only [down] at later
        omega
      · have right : p.after l = ⟨p.line, p.column + 1⟩ := if_neg newline
        simp only [right] at later
        omega

theorem StandsFrom.ne_start {start : Cursor} {file : Option Text} {rest written front : Text}
    {p : Position} (stands : StandsFrom (start.afterAll front) file rest written p)
    (something : front ≠ []) : p ≠ start.position file := by
  obtain ⟨before, after, -, rfl⟩ := stands
  rw [← Cursor.afterAll_append]
  intro same
  have lines : ((start.afterAll (front ++ before)).line : Int) = start.line :=
    Json.int.inj (congrArg Position.line same)
  have columns : ((start.afterAll (front ++ before)).column : Int) = start.column :=
    Json.int.inj (congrArg Position.column same)
  have long : 0 < (front ++ before).length := List.length_pos_iff.mpr (by simp [something])
  have grows := start.afterAll_grows (front ++ before)
  omega

namespace Scan
variable {file : Option Text} {p : Cursor} {t : Text} {c : Char} {rest written : Text}
  {q : Position}

theorem standsFrom_here (front : Text) :
    StandsFrom p file (front ++ rest) front (p.position file) :=
  ⟨[], rest, rfl, rfl⟩

/-- The letters of a class at the front, and what follows them. -/
theorem pieces_eq (part : Letter → Bool) :
    .char c :: rest = (.char c :: rest.takeWhile part) ++ rest.dropWhile part := by
  rw [List.cons_append, List.takeWhile_append_dropWhile]

theorem standsFrom_behind (part : Letter → Bool)
    (stands : StandsFrom (p.afterAll (.char c :: rest.takeWhile part)) file
      (rest.dropWhile part) written q) : StandsFrom p file (.char c :: rest) written q := by
  rw [pieces_eq part]
  exact stands.behind _

theorem standsFrom_piece (part : Letter → Bool) :
    StandsFrom p file (.char c :: rest) (.char c :: rest.takeWhile part) (p.position file) := by
  conv => arg 3; rw [pieces_eq part]
  exact standsFrom_here _

/-- Every token stands where its position says. -/
theorem stands_of_mem {token : Token} (found : token ∈ (ofText file p t).tokens) :
    StandsFrom p file t token.lexeme.text token.position := by
  -- the token is the one that is put in front, or it stands in the rest behind that
  fun_induction ofText file p t with
  | case1 => cases found
  | case2 => cases found
  | case3 p c rest blank ih => exact (ih found).behind [.char c]
  | case4 p c rest blank comment ih => exact standsFrom_behind inLine (ih found)
  | case5 p c rest blank comment start word ih =>
      rcases List.mem_cons.mp found with rfl | later
      · exact standsFrom_piece isWordPart
      · exact standsFrom_behind isWordPart (ih later)
  | case6 p c rest blank comment start digit digits ih =>
      rcases List.mem_cons.mp found with rfl | later
      · exact standsFrom_piece isDigit
      · exact standsFrom_behind isDigit (ih later)
  | case7 p c rest blank comment start digit symbol ih =>
      rcases List.mem_cons.mp found with rfl | later
      · exact standsFrom_here [.char c]
      · exact (ih later).behind [.char c]
  | case8 => cases found

theorem nodup_put {lexeme : Lexeme} {front : Text} (something : front ≠ [])
    (later : ((ofText file (p.afterAll front) rest).tokens.map Token.position).Nodup) :
    ((put ⟨lexeme, p.position file⟩ (ofText file (p.afterAll front) rest)).tokens.map
      Token.position).Nodup := by
  refine List.nodup_cons.mpr ⟨fun again => ?_, later⟩
  obtain ⟨token, member, same⟩ := List.mem_map.mp again
  exact (stands_of_mem member).ne_start something same

/-- No two tokens have the same position. -/
theorem nodup_positions (file : Option Text) (p : Cursor) (t : Text) :
    ((ofText file p t).tokens.map Token.position).Nodup := by
  fun_induction ofText file p t with
  | case1 => exact List.nodup_nil
  | case2 => exact List.nodup_nil
  | case3 p c rest blank ih => exact ih
  | case4 p c rest blank comment ih => exact ih
  | case5 p c rest blank comment start word ih => exact nodup_put (List.cons_ne_nil _ _) ih
  | case6 p c rest blank comment start digit digits ih => exact nodup_put (List.cons_ne_nil _ _) ih
  | case7 p c rest blank comment start digit symbol ih =>
      have later : ((ofText file (p.afterAll [.char c]) rest).tokens.map Token.position).Nodup := ih
      exact nodup_put (List.cons_ne_nil _ _) later
  | case8 => exact List.nodup_nil

theorem eq_of_position_eq {a b : Token} (first : a ∈ (ofText file p t).tokens)
    (second : b ∈ (ofText file p t).tokens) (same : a.position = b.position) : a = b :=
  List.inj_on_of_nodup_map (nodup_positions file p t) first second same

theorem ending_eq_ok {finish : Position} (ended : (ofText file p t).ending = .ok finish) :
    finish = (p.afterAll t).position file := by
  fun_induction ofText file p t with
  | case1 =>
      cases ended
      rfl
  | case2 => cases ended
  | case3 p c rest blank ih => exact ih ended
  | case4 p c rest blank comment ih =>
      rw [pieces_eq inLine, Cursor.afterAll_append]
      exact ih ended
  | case5 p c rest blank comment start word ih =>
      rw [pieces_eq isWordPart, Cursor.afterAll_append]
      exact ih ended
  | case6 p c rest blank comment start digit digits ih =>
      rw [pieces_eq isDigit, Cursor.afterAll_append]
      exact ih ended
  | case7 p c rest blank comment start digit symbol ih => exact ih ended
  | case8 => cases ended

theorem ending_eq_error {d : Diagnostic} (ended : (ofText file p t).ending = .error d) :
    ∃ l q, d = ⟨.text (.unexpectedCharacter l), some q⟩ ∧ StandsFrom p file t [l] q := by
  fun_induction ofText file p t with
  | case1 => cases ended
  | case2 p offset rest =>
      cases ended
      exact ⟨_, _, rfl, standsFrom_here [.surrogate offset]⟩
  | case3 p c rest blank ih =>
      obtain ⟨l, q, same, stands⟩ := ih ended
      exact ⟨l, q, same, stands.behind [.char c]⟩
  | case4 p c rest blank comment ih =>
      obtain ⟨l, q, same, stands⟩ := ih ended
      exact ⟨l, q, same, standsFrom_behind inLine stands⟩
  | case5 p c rest blank comment start word ih =>
      obtain ⟨l, q, same, stands⟩ := ih ended
      exact ⟨l, q, same, standsFrom_behind isWordPart stands⟩
  | case6 p c rest blank comment start digit digits ih =>
      obtain ⟨l, q, same, stands⟩ := ih ended
      exact ⟨l, q, same, standsFrom_behind isDigit stands⟩
  | case7 p c rest blank comment start digit symbol ih =>
      obtain ⟨l, q, same, stands⟩ := ih ended
      exact ⟨l, q, same, stands.behind [.char c]⟩
  | case8 p c rest =>
      cases ended
      exact ⟨_, _, rfl, standsFrom_here [.char c]⟩

end Scan
end SchemaHistory
