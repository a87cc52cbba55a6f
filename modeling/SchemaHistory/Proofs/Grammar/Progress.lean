import Mathlib.Data.List.Perm.Subperm
import SchemaHistory.Proofs.Compiled.Pointed
import SchemaHistory.Proofs.Grammar.Counterparts

/-! # Progress of a reading

A reading by position ends as the reading of the list does, with the declarations at the end of the
tokens or with a refusal of the text, and its log shows how it got there (`reading_progresses`). -/
set_option autoImplicit false
namespace SchemaHistory

namespace Tape
variable {α : Type}

def Run.starts (run : Run α) (step : Step) : List Nat :=
  (run.events.filter fun e => e.step = step).map Event.start

/-- The run goes on along `n` tokens and does not stay anywhere.  Steps of one kind start at
different places, and there are only so many of them. -/
structure Run.Progresses (n : Nat) (run : Run α) : Prop where
  inside : ∀ e ∈ run.events, e.start ≤ n
  onward : ∀ e ∈ run.events, ∀ stop, e.stop = some stop → e.start < stop ∧ stop ≤ n
  failed : ∀ e ∈ run.events, e.stop = none → ∃ failure, run.result = .error failure
  apart : ∀ step, (run.starts step).Pairwise (· < ·)
  few : ∀ step, (run.starts step).length ≤ n + 1

theorem length_le_of_increasing {n : Nat} {xs : List Nat} (increasing : xs.Pairwise (· < ·))
    (inside : ∀ x ∈ xs, x ≤ n) : xs.length ≤ n + 1 := by
  have nodup : xs.Nodup := increasing.imp Nat.ne_of_lt
  have range : xs ⊆ List.range (n + 1) := fun x member =>
    List.mem_range.mpr (Nat.lt_succ_of_le (inside x member))
  simpa using (nodup.subperm range).length_le

theorem Climbs.starts_increasing {tape : Tape} {low high : Nat} {run : Run α}
    (climbs : tape.Climbs low high run.events) (step : Step) :
    (run.starts step).Pairwise (· < ·) := by
  refine List.pairwise_map.mpr ((climbs.increasing.filter _).imp_of_mem ?_)
  intro a b first second less
  have own : a.step = step := by simpa using (List.mem_filter.mp first).2
  have other : b.step = step := by simpa using (List.mem_filter.mp second).2
  simp only [Event.rank, own, other] at less
  omega

theorem Climbs.inside {tape : Tape} {low high : Nat} {events : List Event}
    (climbs : tape.Climbs low high events) (le : high ≤ 3 * tape.budget) :
    ∀ e ∈ events, e.start ≤ tape.tokens.length := by
  intro e member
  have below := (climbs.within e member).2
  simp only [Event.rank] at below
  simp only [budget] at le
  omega

theorem Follows.progresses {tape : Tape} {low p n : Nat} {run : Run α} {reading : Reading α n}
    (follows : tape.Follows low p run reading) : run.Progresses tape.tokens.length := by
  obtain ⟨high, climbs, le⟩ : ∃ high, tape.Climbs low high run.events ∧ high ≤ 3 * tape.budget := by
    cases follows with
    | refused climbs => exact ⟨_, climbs, le_refl _⟩
    | reads climbs _ there _ =>
        have := there.length
        refine ⟨_, climbs, ?_⟩
        simp only [budget]
        omega
  have inside := climbs.inside le
  refine ⟨inside, climbs.onward, ?_, climbs.starts_increasing, fun step => ?_⟩
  · intro e member running
    cases follows with
    | refused _ => exact ⟨_, rfl⟩
    | reads _ ended _ _ =>
        have stopped := ended e member
        rw [running] at stopped
        cases stopped
  · refine length_le_of_increasing (climbs.starts_increasing step) fun start member => ?_
    obtain ⟨e, filtered, rfl⟩ := List.mem_map.mp member
    exact inside e (List.mem_filter.mp filtered).1

theorem Follows.result_eq {tape : Tape} {low p : Nat} {ts : List Token} {run : Run (List Decl)}
    (follows : tape.Follows low p run (Reading.allDecls tape.finish ts)) :
    run.result = ((Reading.decls tape.finish ts).map fun ds => (ds, tape.tokens.length)).mapError
      failure := by
  rw [Reading.allDecls] at follows
  cases result : Reading.decls tape.finish ts with
  | error m =>
      rw [result] at follows
      cases follows with
      | refused _ => rfl
  | ok ds =>
      rw [result] at follows
      change tape.Follows low p run (.ok ⟨ds, [], Nat.one_pos⟩) at follows
      cases follows with
      | @reads _ _ q _ _ _ _ there _ =>
          obtain rfl : q = tape.tokens.length := there.length
          rfl

theorem follows_read {text : Text} {file : Option Text} {finish : Position}
    (ended : (scan text file).ending = .ok finish) :
    (ofText text file finish).Follows 0 0 (read text file)
      (Reading.allDecls finish (scan text file).tokens) := by
  have start : (ofText text file finish).At 0 (scan text file).tokens := At.start
  rw [read, ended]
  exact follows_decls start (le_refl _) start.enough

end Tape

/-- A numeral ends the reading of a text only if it is one of its tokens and has too many digits. -/
theorem overlong_of_text {text : Text} {file : Option Text} {numeral : Text.Overlong}
    (refused : declarationsOfText text file = .error (.overlong numeral)) :
    ∃ digits p, ⟨.number digits, p⟩ ∈ (scan text file).tokens ∧
      Text.digitLimit < digits.length ∧ numeral = ⟨digits.length⟩ := by
  unfold declarationsOfText at refused
  cases ended : (scan text file).ending with
  | error fault =>
      rw [ended] at refused
      cases refused
  | ok finish =>
      rw [ended] at refused
      exact Reading.overlong_of_refused refused

/-- Reading a text by position reads what the list of its tokens spells and ends behind the last
token, or the text is refused for a fault of the text, or a number among its tokens has too many
digits; nothing else goes wrong.  So no token is asked for behind the end, no item is put together
from parts that do not fit, and no loop and no nesting uses up its budget.  Every iteration of a
loop, every reading of a type expression and every step goes on by at least one token, or else it
fails and the reading with it.  There are at most as many of each kind as there are tokens, the end
being counted as one. -/
theorem reading_progresses (text : Text) (file : Option Text) :
    (Tape.read text file).result =
      ((declarationsOfText text file).map fun ds => (ds, (scan text file).tokens.length)).mapError
        Tape.failure ∧
    (∀ d, declarationsOfText text file = .error (.fault d) → d.cause.category = .syntaxError) ∧
    (∀ numeral, declarationsOfText text file = .error (.overlong numeral) →
      ∃ digits p, ⟨.number digits, p⟩ ∈ (scan text file).tokens ∧
        Text.digitLimit < digits.length ∧ numeral = ⟨digits.length⟩) ∧
    (Tape.read text file).Progresses (scan text file).tokens.length := by
  refine ⟨?_, fun d refused => (refusedAt_of_text refused).1, fun _ => overlong_of_text, ?_⟩
  · cases ended : (scan text file).ending with
    | error fault =>
        rw [Tape.read, declarationsOfText, ended]
        rfl
    | ok finish =>
        rw [declarationsOfText, ended]
        exact (Tape.follows_read ended).result_eq
  · cases ended : (scan text file).ending with
    | error fault =>
        rw [Tape.read, ended]
        exact ⟨List.forall_mem_nil _, List.forall_mem_nil _, List.forall_mem_nil _,
          fun _ => .nil, fun _ => Nat.zero_le _⟩
    | ok finish => exact (Tape.follows_read ended).progresses

/-- Brackets that are never closed are read up to the end. -/
theorem reading_progresses_unclosed :
    (Tape.read "struct A \x7b x: ((" none).starts .iteration = [0, 3, 6, 7] ∧
    (Tape.read "struct A \x7b x: ((" none).starts .expression = [5, 6, 7] ∧
    (scan "struct A \x7b x: ((" none).tokens.length = 7 ∧
    (Tape.read "struct A \x7b x: ((" none).Progresses
      (scan "struct A \x7b x: ((" none).tokens.length :=
  ⟨by decide +kernel, by decide +kernel, by decide +kernel, (reading_progresses _ none).2.2.2⟩

def manyOnes : Text := List.replicate (Text.digitLimit + 1) (.char '1')

def longDiscriminant : Text := "enum E \x7b A = " ++ (manyOnes ++ " \x7d")

/-- The text is not read, and no fault of the text says why. -/
theorem numeral_not_refused :
    declarationsOfText longDiscriminant none = .error (.overlong ⟨4301⟩) ∧
    refusal? longDiscriminant none = none := by
  have ended : declarationsOfText longDiscriminant none = .error (.overlong ⟨4301⟩) :=
    fault?_eq_some_iff.mp (by decide +kernel)
  exact ⟨ended, by rw [refusal?, ended]⟩

end SchemaHistory
