import Mathlib.Data.List.Nodup
import Mathlib.Tactic.SplitIfs
import SchemaHistory.Proofs.Grammar.Schemas
import SchemaHistory.Proofs.Grammar.Tape

/-! # Positions follow lists

`Tape.Follows` compares a run from a position with a reader that takes tokens from the list that is
left there.  Both read the same value and stop at the same place, or the run fails as the reader
does and with nothing else.  The log of the run climbs: its events are ordered by where they start,
and those that start at one place are an iteration, then a type expression, then the step over the
token there. -/
set_option autoImplicit false
namespace SchemaHistory

open Grammar Reading

namespace Tape

def Step.rank : Step → Nat
  | .iteration => 0
  | .expression => 1
  | .token => 2

def Event.rank (e : Event) : Nat := 3 * e.start + e.step.rank

/-- The ranks of the events increase from `low` on and stay below `high`, and what has stopped has
gone on by at least one token and not beyond the end. -/
structure Climbs (tape : Tape) (low high : Nat) (events : List Event) : Prop where
  increasing : events.Pairwise fun a b => a.rank < b.rank
  within : ∀ e ∈ events, low ≤ e.rank ∧ e.rank < high
  onward : ∀ e ∈ events, ∀ stop, e.stop = some stop → e.start < stop ∧ stop ≤ tape.tokens.length

def At (tape : Tape) (p : Nat) (ts : List Token) : Prop :=
  ∃ front, tape.tokens = front ++ ts ∧ front.length = p

def failure : Misreading → Failure
  | .fault d => .refused d
  | .overlong numeral => .overlong numeral

inductive Follows (tape : Tape) (low p : Nat) {α : Type} {n : Nat} : Run α → Reading α n → Prop
  | reads {events : List Event} {a : α} {q : Nat} {rest : List Token} {shorter : rest.length < n}
      (climbs : tape.Climbs low (3 * q) events) (ended : ∀ e ∈ events, e.stop.isSome)
      (there : tape.At q rest) (onward : p ≤ q) :
      Follows tape low p ⟨events, .ok (a, q)⟩ (.ok ⟨a, rest, shorter⟩)
  | refused {events : List Event} {m : Misreading}
      (climbs : tape.Climbs low (3 * tape.budget) events) :
      Follows tape low p ⟨events, .error (failure m)⟩ (.error m)

variable {tape : Tape} {low mid high p q : Nat} {ts rest : List Token} {token : Token}

/-! ## Places on the tape -/

theorem At.length (here : tape.At p ts) : p + ts.length = tape.tokens.length := by
  obtain ⟨front, split, rfl⟩ := here
  rw [split, List.length_append]

theorem At.head? (here : tape.At p ts) : tape.tokens[p]? = ts.head? := by
  obtain ⟨front, split, rfl⟩ := here
  rw [split, List.getElem?_append_right (le_refl _), Nat.sub_self, List.head?_eq_getElem?]

theorem At.behind (here : tape.At p (token :: rest)) : tape.At (p + 1) rest := by
  obtain ⟨front, split, rfl⟩ := here
  exact ⟨front ++ [token], by simp [split], by simp⟩

theorem At.mem (here : tape.At p (token :: rest)) : token ∈ tape.tokens := by
  obtain ⟨front, split, -⟩ := here
  rw [split]
  exact List.mem_append_right _ List.mem_cons_self

theorem At.enough (here : tape.At p ts) : ts.length < tape.budget := by
  have := here.length
  simp only [budget]
  omega

theorem At.start : tape.At 0 tape.tokens := ⟨[], rfl, rfl⟩

/-! ## Logs -/

theorem climbs_nil : tape.Climbs low high [] :=
  ⟨.nil, List.forall_mem_nil _, List.forall_mem_nil _⟩

theorem Climbs.append {xs ys : List Event} (first : tape.Climbs low mid xs)
    (second : tape.Climbs (max low mid) high ys) (le : mid ≤ high) :
    tape.Climbs low high (xs ++ ys) where
  increasing := List.pairwise_append.mpr ⟨first.increasing, second.increasing, fun x inXs y inYs =>
    Nat.lt_of_lt_of_le (first.within x inXs).2
      (le_trans (le_max_right _ _) (second.within y inYs).1)⟩
  within := List.forall_mem_append.mpr
    ⟨fun x inXs => ⟨(first.within x inXs).1, Nat.lt_of_lt_of_le (first.within x inXs).2 le⟩,
      fun y inYs => ⟨le_trans (le_max_left _ _) (second.within y inYs).1, (second.within y inYs).2⟩⟩
  onward := List.forall_mem_append.mpr ⟨first.onward, second.onward⟩

theorem Climbs.cons {e : Event} {events : List Event}
    (climbs : tape.Climbs (e.rank + 1) high events) (from_ : low ≤ e.rank) (below : e.rank < high)
    (onward : ∀ stop, e.stop = some stop → e.start < stop ∧ stop ≤ tape.tokens.length) :
    tape.Climbs low high (e :: events) where
  increasing :=
    List.pairwise_cons.mpr ⟨fun x inside => (climbs.within x inside).1, climbs.increasing⟩
  within := List.forall_mem_cons.mpr ⟨⟨from_, below⟩, fun x inside =>
    ⟨le_trans from_ (Nat.le_of_succ_le (climbs.within x inside).1), (climbs.within x inside).2⟩⟩
  onward := List.forall_mem_cons.mpr ⟨onward, climbs.onward⟩

/-! ## Readers one after the other -/

section
variable {α β : Type} {n m : Nat}

theorem follows_pure {a : α} {shorter : rest.length < n} (here : tape.At p rest) :
    tape.Follows low p ((pure a : Reader α) p) (.ok ⟨a, rest, shorter⟩) :=
  .reads climbs_nil (List.forall_mem_nil _) here (le_refl _)

theorem follows_fail (m : Misreading) :
    tape.Follows low p ((fail (failure m) : Reader α) p) (.error m : Reading α n) :=
  .refused climbs_nil

theorem Follows.bind {reader : Reader α} {next : α → Reader β} {reading : Reading α n}
    {others : Parsed Token α n → Reading β m} (first : tape.Follows low p (reader p) reading)
    (second : ∀ a q rest shorter, reading = .ok ⟨a, rest, shorter⟩ → tape.At q rest → p ≤ q →
      tape.Follows (max low (3 * q)) q (next a q) (others ⟨a, rest, shorter⟩)) :
    tape.Follows low p ((reader >>= next) p) (reading >>= others) := by
  change tape.Follows low p ((reader p).followedBy next) _
  generalize reader p = run at first
  cases first with
  | refused climbs => exact .refused climbs
  | @reads events a q rest shorter climbs ended there onward =>
      have later := second a q rest shorter rfl there onward
      have length := there.length
      change tape.Follows low p ⟨events ++ (next a q).events, (next a q).result⟩ (others _)
      generalize next a q = run, others ⟨a, rest, shorter⟩ = reading at later
      cases later with
      | refused more =>
          refine .refused (climbs.append more ?_)
          simp only [budget]
          omega
      | reads more finished beyond further =>
          have stopped := List.forall_mem_append.mpr ⟨ended, finished⟩
          refine .reads (climbs.append more ?_) stopped beyond (le_trans onward further)
          omega

theorem Follows.behind {reader : Reader α} {next : α → Reader β} {a : α} {shorter : rest.length < n}
    {reading : Reading β m}
    (first : tape.Follows low p (reader p) (.ok ⟨a, rest, shorter⟩ : Reading α n))
    (second : ∀ q, tape.At q rest → p ≤ q → tape.Follows (max low (3 * q)) q (next a q) reading) :
    tape.Follows low p ((reader >>= next) p) reading := by
  let read : Reading α n := .ok ⟨a, rest, shorter⟩
  change tape.Follows low p _ (read >>= fun _ => reading)
  refine Follows.bind first fun b q left _ same there onward => ?_
  obtain ⟨rfl, left_eq⟩ : a = b ∧ rest = left := reads_ok.mp ⟨_, same⟩
  subst left_eq
  exact second q there onward

theorem Follows.cut {reader : Reader α} {next : α → Reader β} {ending : Misreading}
    (first : tape.Follows low p (reader p) (.error ending : Reading α n)) :
    tape.Follows low p ((reader >>= next) p) (.error ending : Reading β m) := by
  change tape.Follows low p ((reader p).followedBy next) _
  generalize reader p = run at first
  cases first with
  | refused climbs => exact .refused climbs

/-- The value and the rest may be handed on under another bound. -/
theorem Follows.handedOn {run : Run α} {reading : Reading α n}
    (follows : tape.Follows low p run reading)
    {shorter : ∀ parsed : Parsed Token α n, parsed.rest.length < m} :
    tape.Follows low p run
      (reading >>= fun parsed => .ok ⟨parsed.value, parsed.rest, shorter parsed⟩) := by
  cases follows with
  | reads climbs ended there onward => exact .reads climbs ended there onward
  | refused climbs => exact .refused climbs

/-- What takes at least one token may be logged as a step. -/
theorem follows_logged {reader : Reader α} {reading : Reading α ts.length} {step : Step}
    (here : tape.At p ts) (from_ : low ≤ 3 * p + step.rank)
    (follows : tape.Follows (3 * p + step.rank + 1) p (reader p) reading) :
    tape.Follows low p (logged step reader p) reading := by
  have place := here.length
  have rank : step.rank ≤ 2 := by cases step <;> decide
  unfold logged
  generalize reader p = run at follows
  cases follows with
  | refused climbs =>
      refine .refused (Climbs.cons climbs from_ ?_ fun _ stopped => by cases stopped)
      simp only [budget, Event.rank]
      omega
  | @reads events a q rest shorter climbs ended there onward =>
      have length := there.length
      refine .reads (Climbs.cons climbs from_ ?_ fun stop stopped => ?_)
        (List.forall_mem_cons.mpr ⟨rfl, ended⟩) there onward
      · simp only [Event.rank]
        omega
      · cases stopped
        change p < q ∧ q ≤ tape.tokens.length
        omega

end

/-! ## Single tokens -/

section
variable {α β : Type} {n : Nat} {c : Char}

theorem peek_bind {next : Option Token → Reader β} (here : tape.At p ts) :
    (tape.peek >>= next) p = next ts.head? p := by
  have inside : p ≤ tape.tokens.length := here.length ▸ Nat.le_add_right _ _
  change (tape.peek p).followedBy next = _
  rw [peek, if_pos inside, here.head?]
  rfl

theorem bind_asSymbol (ts : List Token) :
    ts.head?.bind (asSymbol c) = (symbol? c ts).map Parsed.value := by
  by_cases starts : StartsWith c ts
  · obtain ⟨q, rest, rfl⟩ := starts
    rw [symbol?_symbol]
    exact if_pos rfl
  · rw [symbol?_eq_none starts]
    rcases ts with - | ⟨⟨lexeme, q⟩, rest⟩
    · rfl
    · refine if_neg fun same => starts ⟨q, rest, ?_⟩
      rw [← same]

theorem sees_bind {next : Bool → Reader β} (here : tape.At p ts) :
    (tape.sees c >>= next) p = next (symbol? c ts).isSome p := by
  have seen : tape.sees c p = ⟨[], .ok ((symbol? c ts).isSome, p)⟩ := by
    rw [sees, peek_bind here, bind_asSymbol, Option.isSome_map]
    rfl
  change (tape.sees c p).followedBy next = _
  rw [seen]
  rfl

theorem follows_unexpected {expected : Expected} (here : tape.At p ts) :
    tape.Follows low p ((tape.unexpected expected : Reader α) p)
      (.error (Reading.unexpected tape.finish expected ts) : Reading α n) := by
  rw [Tape.unexpected, peek_bind here]
  cases ts with
  | nil => exact follows_fail (.fault _)
  | cons token rest => exact follows_fail (.fault _)

theorem follows_next {next : Unit → Reader β} {reading : Reading β n}
    (here : tape.At p (token :: rest)) (from_ : low ≤ 3 * p + 2)
    (follows : tape.Follows (3 * (p + 1)) (p + 1) (next () (p + 1)) reading) :
    tape.Follows low p ((tape.next >>= next) p) reading := by
  have length := here.behind.length
  have stepped : tape.next p = ⟨[⟨.token, p, some (p + 1)⟩], .ok ((), p + 1)⟩ := by
    rw [Tape.next, peek_bind here]
    rfl
  have climbs : tape.Climbs low (3 * (p + 1)) [⟨.token, p, some (p + 1)⟩] := by
    refine Climbs.cons climbs_nil from_ (Nat.lt_succ_self _) fun stop stopped => ?_
    cases stopped
    exact ⟨Nat.lt_succ_self p, by omega⟩
  have first : tape.Follows low p (tape.next p)
      (.ok ⟨(), rest, Nat.lt_succ_self _⟩ : Reading Unit (rest.length + 1)) := by
    rw [stepped]
    exact .reads climbs (List.forall_mem_singleton.mpr rfl) here.behind (Nat.le_succ p)
  refine first.behind fun q there _ => ?_
  obtain rfl : q = p + 1 := by
    have := there.length
    omega
  rwa [max_eq_right (by omega)]

section
variable {read : Token → Option α} {expected : Expected}

theorem follows_taken {a : α} (made : read token = some a) {shorter : rest.length < n}
    (here : tape.At p (token :: rest)) (from_ : low ≤ 3 * p + 2) :
    tape.Follows low p (tape.take read expected p) (.ok ⟨a, rest, shorter⟩ : Reading α n) := by
  rw [take, peek_bind here, List.head?_cons, Option.bind_some, made]
  exact follows_next here from_ (follows_pure here.behind)

theorem follows_untaken (none : ts.head?.bind read = none) (here : tape.At p ts) :
    tape.Follows low p (tape.take read expected p)
      (.error (Reading.unexpected tape.finish expected ts) : Reading α n) := by
  rw [take, peek_bind here, none]
  exact follows_unexpected here

end

theorem follows_symbol (here : tape.At p ts) (from_ : low ≤ 3 * p + 2) :
    tape.Follows low p (tape.symbol c p) (Reading.symbol tape.finish c ts) := by
  rw [symbol, Reading.symbol]
  by_cases starts : StartsWith c ts
  · obtain ⟨q, rest, rfl⟩ := starts
    have made : asSymbol c ⟨.symbol c, q⟩ = some q := if_pos rfl
    rw [symbol?_symbol]
    exact follows_taken made here from_
  · have none : ts.head?.bind (asSymbol c) = none := by
      rw [bind_asSymbol, symbol?_eq_none starts, Option.map_none]
    rw [symbol?_eq_none starts]
    exact follows_untaken none here

theorem follows_word {expected : Expected} (here : tape.At p ts) (from_ : low ≤ 3 * p + 2) :
    tape.Follows low p (tape.word expected p) (Reading.word tape.finish expected ts) := by
  rcases ts with - | ⟨⟨lexeme, q⟩, rest⟩
  · exact follows_untaken rfl here
  cases lexeme with
  | number digits => exact follows_untaken rfl here
  | symbol c => exact follows_untaken rfl here
  | word w =>
      have made : asWord ⟨.word w, q⟩ = some (w, q) := rfl
      exact follows_taken made here from_

theorem follows_number {role : NumberRole} (here : tape.At p ts) (from_ : low ≤ 3 * p + 2) :
    tape.Follows low p (tape.number role p) (Reading.number tape.finish role ts) := by
  have missing (none : ts.head?.bind asNumber = none) : tape.Follows low p (tape.number role p)
      (.error (Reading.unexpected tape.finish (.number role) ts) : Reading _ ts.length) := by
    have untaken : tape.Follows low p (tape.take asNumber (.number role) p)
        (.error (Reading.unexpected tape.finish (.number role) ts) : Reading _ ts.length) :=
      follows_untaken none here
    exact untaken.cut
  rcases ts with - | ⟨⟨lexeme, q⟩, rest⟩
  · exact missing rfl
  cases lexeme with
  | word w => exact missing rfl
  | symbol c => exact missing rfl
  | number digits =>
      have made : asNumber ⟨.number digits, q⟩ = some (digits, q) := rfl
      have taken : tape.Follows low p (tape.take asNumber (.number role) p)
          (.ok ⟨(digits, q), rest, Nat.lt_succ_self _⟩ : Reading _ (rest.length + 1)) :=
        follows_taken made here from_
      refine taken.behind fun r there _ => ?_
      rw [Reading.number]
      simp only []
      cases Text.natural digits with
      | error numeral => exact follows_fail (.overlong numeral)
      | ok n =>
          simp only []
          split_ifs
          · exact follows_fail (.fault _)
          · exact follows_pure there

end
end Tape

/-! ## Lists -/

namespace Reading
variable {α : Type} {finish : Position} {close : Char} {n : Nat}

theorem separator_eq (ts : List Token) : separator finish close ts =
    match symbol? ',' ts with
    | some comma => .ok ⟨true, comma.rest, comma.shorter⟩
    | none => match symbol? close ts with
      | some closing => .ok ⟨false, closing.rest, closing.shorter⟩
      | none => .error (unexpected finish (.separator close) ts) := by
  rcases ts with - | ⟨⟨lexeme, q⟩, rest⟩
  · rfl
  · cases lexeme with
    | word w => rfl
    | number digits => rfl
    | symbol d =>
        simp only [separator, symbol?]
        split_ifs <;> rfl

def listItem (finish : Position) (close : Char) (item : Reading α n) : Reading α n := do
  let first ← item
  match symbol? ',' first.rest with
  | some comma => .ok ⟨first.value, comma.rest, Nat.lt_trans comma.shorter first.shorter⟩
  | none => match symbol? close first.rest with
    | some _ => .ok first
    | none => .error (unexpected finish (.separator close) first.rest)

variable {whole : List Token}
  {item : (ts : List Token) → ts.length ≤ whole.length → Reading α ts.length}

/-- Items are read in iterations: one item with its comma, and then the others. -/
theorem items_eq {ts : List Token} (inside : ts.length ≤ whole.length) :
    items finish close whole item ts inside =
      match symbol? close ts with
      | some closing => .ok ⟨[], closing.rest, closing.shorter⟩
      | none => listItem finish close (item ts inside) >>= fun first =>
          items finish close whole item first.rest
            (Nat.le_trans (Nat.le_of_lt first.shorter) inside) >>= fun more =>
              .ok ⟨first.value :: more.value, more.rest,
                Nat.lt_trans more.shorter first.shorter⟩ := by
  rw [items]
  cases symbol? close ts with
  | some closing => rfl
  | none =>
      simp only [listItem, bind_assoc]
      refine bind_congr fun first => ?_
      rw [separator_eq]
      cases symbol? ',' first.rest with
      | some comma => rfl
      | none =>
          cases closed : symbol? close first.rest with
          | some closing =>
              have inner : first.rest.length ≤ whole.length :=
                Nat.le_trans (Nat.le_of_lt first.shorter) inside
              have ends : items finish close whole item first.rest inner =
                  .ok ⟨[], closing.rest, closing.shorter⟩ := by rw [items, closed]
              change _ = items finish close whole item first.rest inner >>= _
              rw [ends]
              rfl
          | none => rfl

end Reading

namespace Tape
variable {tape : Tape} {low p : Nat} {ts : List Token} {α : Type} {close : Char}

theorem follows_listItem {n : Nat} {reader : Reader α} {reading : Reading α n}
    (follows : tape.Follows low p (reader p) reading) (from_ : low ≤ 3 * p + 2) :
    tape.Follows low p (tape.listItem close reader p)
      (Reading.listItem tape.finish close reading) := by
  refine follows.bind fun a q rest shorter _ there onward => ?_
  rw [sees_bind there]
  by_cases comma : StartsWith ',' rest
  · obtain ⟨r, behind, rfl⟩ := comma
    rw [symbol?_symbol]
    exact follows_next there (by omega) (follows_pure there.behind)
  · rw [symbol?_eq_none comma]
    change tape.Follows _ q ((tape.sees close >>= _) q) _
    rw [sees_bind there]
    by_cases closed : StartsWith close rest
    · obtain ⟨r, behind, rfl⟩ := closed
      rw [symbol?_symbol]
      exact follows_pure there
    · rw [symbol?_eq_none closed]
      exact follows_unexpected there

/-- A loop reads what a reader of lists reads that can be cut into the same iterations. -/
theorem follows_loop {iteration : Bool → Reader α} {whole : List Token}
    (reading : Bool → (ts : List Token) → ts.length ≤ whole.length → Reading (List α) ts.length)
    (once : Bool → (ts : List Token) → ts.length ≤ whole.length → Reading α ts.length)
    (unrolled : ∀ first ts inside, reading first ts inside =
      match symbol? close ts with
      | some closing => .ok ⟨[], closing.rest, closing.shorter⟩
      | none => once first ts inside >>= fun a =>
          reading false a.rest (Nat.le_trans (Nat.le_of_lt a.shorter) inside) >>= fun more =>
            .ok ⟨a.value :: more.value, more.rest, Nat.lt_trans more.shorter a.shorter⟩)
    (each : ∀ first p ts inside, tape.At p ts →
      tape.Follows (3 * p + 1) p (iteration first p) (once first ts inside))
    {first : Bool} {budget : Nat} (inside : ts.length ≤ whole.length) (here : tape.At p ts)
    (from_ : low ≤ 3 * p) (enough : ts.length < budget) :
    tape.Follows low p (tape.loop close iteration first budget p) (reading first ts inside) := by
  -- every iteration leaves a shorter rest, so the budget never runs out
  induction budget generalizing first ts p low with
  | zero => exact absurd enough (Nat.not_lt_zero _)
  | succ budget ih =>
  rw [loop, sees_bind here, unrolled]
  by_cases closed : StartsWith close ts
  · obtain ⟨q, rest, rfl⟩ := closed
    rw [symbol?_symbol]
    have closes : tape.Follows low p (tape.symbol close p)
        (Reading.symbol tape.finish close (⟨.symbol close, q⟩ :: rest)) :=
      follows_symbol here (by omega)
    rw [Reading.symbol, symbol?_symbol] at closes
    exact closes.behind fun r there _ => follows_pure there
  · rw [symbol?_eq_none closed]
    have logged : tape.Follows low p (logged .iteration (iteration first) p)
        (once first ts inside) := follows_logged here from_ (each first p ts inside here)
    refine logged.bind fun a q rest shorter _ there onward => ?_
    have place := here.length
    have length := there.length
    refine (ih _ there (by omega) (by omega)).bind fun more r left _ _ beyond _ => ?_
    exact follows_pure beyond

theorem follows_items {item : Reader α} {whole : List Token}
    {reading : (ts : List Token) → ts.length ≤ whole.length → Reading α ts.length}
    (each : ∀ p ts inside, tape.At p ts →
      tape.Follows (3 * p + 1) p (item p) (reading ts inside))
    (inside : ts.length ≤ whole.length) (here : tape.At p ts) (from_ : low ≤ 3 * p) :
    tape.Follows low p (tape.items close item p)
      (Reading.items tape.finish close whole reading ts inside) := by
  exact follows_loop (fun _ ts inside => Reading.items tape.finish close whole reading ts inside)
    (fun _ ts inside => Reading.listItem tape.finish close (reading ts inside))
    (fun _ _ inside => Reading.items_eq inside)
    (fun _ p ts inside here => follows_listItem (each p ts inside here) (Nat.le_succ _))
    inside here from_ here.enough

end Tape
end SchemaHistory
