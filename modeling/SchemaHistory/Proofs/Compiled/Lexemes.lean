import SchemaHistory.Proofs.Compiled.Relocated
import SchemaHistory.Proofs.Faults.FactOrigins
import SchemaHistory.Proofs.Grammar.Infixes
import SchemaHistory.Proofs.Grammar.Moved

/-! # The lexemes of a text decide

Blanks, line breaks and comments only say where the tokens of a text stand.  Two texts with the same
lexemes become the same tokens when all tokens are moved to one place, so they are read alike
(`read_of_lexemes`), and what is read from them compiles alike (`lexemes_decide`). -/
set_option autoImplicit false
namespace SchemaHistory

open Compiled

theorem unplaced_of_relocate {f : Option Position → Option Position} {ds es : List Decl}
    (same : ds.map (Decl.relocate f) = es.map (Decl.relocate f)) :
    ds.map Decl.unplaced = es.map Decl.unplaced := by
  have forget (schema : List Decl) :
      (schema.map (Decl.relocate f)).map Decl.unplaced = schema.map Decl.unplaced := by
    rw [List.map_map]
    exact List.map_congr_left fun d _ => d.unplaced_relocate f
  rw [← forget, same, forget]

section
variable {text other : Text} {file otherFile : Option Text} {finish otherFinish : Position}
  (ends : (scan text file).ending = .ok finish)
  (otherEnds : (scan other otherFile).ending = .ok otherFinish)
  (same : (scan text file).tokens.map Token.lexeme = (scan other otherFile).tokens.map Token.lexeme)
include ends otherEnds same

/-- Texts with the same lexemes are read as the same declarations in other places, or are refused
for the same cause, or for the same numeral. -/
theorem read_of_lexemes :
    (∃ d e, declarationsOfText text file = .error (.fault d) ∧
      declarationsOfText other otherFile = .error (.fault e) ∧ d.cause = e.cause) ∨
    (∃ numeral, declarationsOfText text file = .error (.overlong numeral) ∧
      declarationsOfText other otherFile = .error (.overlong numeral)) ∨
    ∃ decls others, declarationsOfText text file = .ok decls ∧
      declarationsOfText other otherFile = .ok others ∧
      decls.map Decl.unplaced = others.map Decl.unplaced := by
  have read : declarationsOfText text file = Reading.decls finish (scan text file).tokens := by
    rw [declarationsOfText, ends]
  have otherRead : declarationsOfText other otherFile =
      Reading.decls otherFinish (scan other otherFile).tokens := by
    rw [declarationsOfText, otherEnds]
  have own := Reading.moved_decls (fun _ => finish) finish (scan text file).tokens
  have others := Reading.moved_decls (fun _ => finish) otherFinish (scan other otherFile).tokens
  -- with all places at `finish` both texts give one list of tokens, so the readings coincide
  rw [move_of_lexemes finish same, others] at own
  rw [read, otherRead]
  cases first : Reading.decls finish (scan text file).tokens with
  | ok ds =>
      cases second : Reading.decls otherFinish (scan other otherFile).tokens with
      | ok es =>
          rw [first, second] at own
          exact .inr (.inr ⟨ds, es, rfl, rfl, unplaced_of_relocate (Except.ok.inj own).symm⟩)
      | error n =>
          rw [first, second] at own
          cases own
  | error m =>
      cases second : Reading.decls otherFinish (scan other otherFile).tokens with
      | ok es =>
          rw [first, second] at own
          cases own
      | error n =>
          rw [first, second] at own
          have moved := Except.error.inj own
          cases m with
          | fault d =>
              cases n with
              | fault e =>
                  injection moved with places
                  have causes : e.cause = d.cause := (Diagnostic.mk.inj places).1
                  exact .inl ⟨d, e, rfl, rfl, causes.symm⟩
              | overlong numeral => cases moved
          | overlong numeral =>
              cases n with
              | fault e => cases moved
              | overlong other =>
                  injection moved with numerals
                  subst numerals
                  exact .inr (.inl ⟨other, rfl, rfl⟩)

/-- Texts with the same lexemes are refused for the same cause, or for the same numeral, or they are
read as the same declarations in other places.  These are rejected for the same cause, or they
compile to the same snapshots and the same fingerprint.  The cause is what a diagnostic says besides
its place: it determines the category, the message and the details. -/
theorem lexemes_decide :
    (∃ d e, declarationsOfText text file = .error (.fault d) ∧
      declarationsOfText other otherFile = .error (.fault e) ∧ d.cause = e.cause) ∨
    (∃ numeral, declarationsOfText text file = .error (.overlong numeral) ∧
      declarationsOfText other otherFile = .error (.overlong numeral)) ∨
    ∃ decls others, declarationsOfText text file = .ok decls ∧
      declarationsOfText other otherFile = .ok others ∧
      decls.map Decl.unplaced = others.map Decl.unplaced ∧
      ∀ limit,
        (∃ c e, ofDeclarations limit decls = .ok c ∧ ofDeclarations limit others = .ok e ∧
          c.snapshots = e.snapshots ∧ c.fingerprint = e.fingerprint) ∨
        ∃ d e, ofDeclarations limit decls = .error (.diagnostic d) ∧
          ofDeclarations limit others = .error (.diagnostic e) ∧ d.cause = e.cause := by
  rcases read_of_lexemes ends otherEnds same with
    refused | overlong | ⟨decls, others, read, otherRead, unplaced⟩
  · exact .inl refused
  · exact .inr (.inl overlong)
  · refine .inr (.inr ⟨decls, others, read, otherRead, unplaced, fun limit => ?_⟩)
    rcases alike_of_unplaced unplaced limit with ⟨c, e, own, again, snapshots, json⟩ |
      ⟨r, s, own, again, alike⟩
    · refine .inl ⟨c, e, own, again, snapshots, ?_⟩
      rw [fingerprint, fingerprint, canonical, canonical, Compiled.text, Compiled.text, json]
    · obtain ⟨d, rfl, -⟩ := origin_of_rejected (hasTextNames_of_text read) own
      obtain ⟨e, rfl, -⟩ := origin_of_rejected (hasTextNames_of_text otherRead) again
      have causes : (⟨d.cause, none⟩ : Diagnostic) = ⟨e.cause, none⟩ :=
        Rejection.diagnostic.inj alike
      exact .inr ⟨d, e, own, again, (Diagnostic.mk.inj causes).1⟩

end

def singleLine : Text := "struct S \x7b #[add(2)] f: u8 \x7d"

def manyLines : Text := "struct S\x7b\n#[add(2)]// new\nf:u8\n\x7d"

theorem lexemes_decide_broken :
    ∃ decls others, declarationsOfText singleLine none = .ok decls ∧
      declarationsOfText manyLines (some "s") = .ok others ∧
      decls.map Decl.unplaced = others.map Decl.unplaced ∧
      ∀ limit,
        (∃ c e, ofDeclarations limit decls = .ok c ∧ ofDeclarations limit others = .ok e ∧
          c.snapshots = e.snapshots ∧ c.fingerprint = e.fingerprint) ∨
        ∃ d e, ofDeclarations limit decls = .error (.diagnostic d) ∧
          ofDeclarations limit others = .error (.diagnostic e) ∧ d.cause = e.cause := by
  obtain ⟨finish, ends⟩ : ∃ finish, (scan singleLine none).ending = .ok finish :=
    fault?_eq_none_iff.mp (by decide +kernel)
  obtain ⟨otherFinish, otherEnds⟩ : ∃ finish, (scan manyLines (some "s")).ending = .ok finish :=
    fault?_eq_none_iff.mp (by decide +kernel)
  have same : (scan singleLine none).tokens.map Token.lexeme =
      (scan manyLines (some "s")).tokens.map Token.lexeme := by decide +kernel
  have accepted : fault? (declarationsOfText singleLine none) = none := by decide +kernel
  rcases lexemes_decide ends otherEnds same with ⟨d, e, refused, -⟩ | ⟨numeral, refused, -⟩ | read
  · rw [refused] at accepted
    cases accepted
  · rw [refused] at accepted
    cases accepted
  · exact read

end SchemaHistory
