import Mathlib.Data.List.Basic
import SchemaHistory.Proofs.Grammar.Basic

/-! # What the readers read

`Reads r a rest` says that a reader has read `a` and left `rest`.  Every reader has one lemma that
says exactly which tokens it takes from the front of its list: they are those that the grammar
gives to the value.  A reader of one item may depend on what follows the item; `reads_items` only
asks for its lemma where a comma or the closing symbol follows. -/
set_option autoImplicit false
namespace SchemaHistory

open Grammar

/-- A reader calls readers of shorter lists, so what holds for the shorter lists of tokens may be
used for a list. -/
@[elab_as_elim]
theorem shorter_induction {P : List Token → Prop} (ts : List Token)
    (step : ∀ ts, (∀ us, us.length < ts.length → P us) → P ts) : P ts :=
  (measure List.length).wf.induction ts step

/-- The reader has read a value and left the rest. -/
def Reads {α : Type} {n : Nat} (reading : Reading α n) (a : α) (rest : List Token) : Prop :=
  ∃ shorter, reading = .ok ⟨a, rest, shorter⟩

section
variable {α β : Type} {n m : Nat} {a : α} {b : β} {mid rest : List Token}

theorem Reads.bind {x : Reading α n} {f : Parsed Token α n → Reading β m} (first : Reads x a mid)
    (next : ∀ shorter, Reads (f ⟨a, mid, shorter⟩) b rest) : Reads (x >>= f) b rest := by
  obtain ⟨shorter, rfl⟩ := first
  exact next shorter

/-- A check in front of a reader has to pass. -/
theorem reads_bind {γ : Type} {x : Except Misreading γ} {f : γ → Reading β m} :
    Reads (x >>= f) b rest ↔ ∃ c, x = .ok c ∧ Reads (f c) b rest := by
  cases x with
  | error d =>
      constructor
      · rintro ⟨shorter, ⟨⟩⟩
      · rintro ⟨c, ⟨⟩, -⟩
  | ok c =>
      constructor
      · intro read
        exact ⟨c, rfl, read⟩
      · rintro ⟨_, ⟨⟩, read⟩
        exact read

theorem Reads.of_bind {x : Reading α n} {f : Parsed Token α n → Reading β m}
    (read : Reads (x >>= f) b rest) :
    ∃ a mid shorter, Reads x a mid ∧ Reads (f ⟨a, mid, shorter⟩) b rest := by
  obtain ⟨⟨a, mid, shorter⟩, first, next⟩ := reads_bind.mp read
  exact ⟨a, mid, shorter, ⟨shorter, first⟩, next⟩

@[simp] theorem reads_ok {p : Parsed Token α n} :
    Reads (.ok p) a rest ↔ p.value = a ∧ p.rest = rest := by
  obtain ⟨value, left, shorter⟩ := p
  constructor
  · rintro ⟨short, ⟨⟩⟩
    exact ⟨rfl, rfl⟩
  · rintro ⟨rfl, rfl⟩
    exact ⟨shorter, rfl⟩

@[simp] theorem not_reads_error {m : Misreading} : ¬Reads (.error m : Reading α n) a rest := by
  rintro ⟨shorter, ⟨⟩⟩

theorem Reads.unique {x : Reading α n} {other : α} {left : List Token} (first : Reads x a rest)
    (second : Reads x other left) : a = other ∧ rest = left := by
  obtain ⟨shorter, rfl⟩ := first
  exact reads_ok.mp second

end

namespace Reading
variable {finish : Position} {ts rest : List Token} {c : Char} {p : Position}

/-! ## Single tokens -/

theorem symbol?_symbol : symbol? c (⟨.symbol c, p⟩ :: rest) =
    some ⟨p, rest, Nat.lt_succ_self _⟩ := if_pos rfl

theorem symbol?_eq_none (other : ¬StartsWith c ts) : symbol? c ts = none := by
  rcases ts with - | ⟨⟨lexeme, p⟩, rest⟩
  · rfl
  · cases lexeme with
    | word w => rfl
    | number digits => rfl
    | symbol d => exact if_neg fun same => other (startsWith_symbol.mpr same)

theorem reads_symbol : Reads (symbol finish c ts) p rest ↔ ts = ⟨.symbol c, p⟩ :: rest := by
  unfold symbol
  by_cases starts : StartsWith c ts
  · obtain ⟨q, left, rfl⟩ := starts
    rw [symbol?_symbol]
    simp
  · rw [symbol?_eq_none starts]
    simp only [not_reads_error, false_iff]
    exact fun same => starts ⟨p, rest, same⟩

theorem reads_word {expected : Expected} {w : Text} :
    Reads (word finish expected ts) (w, p) rest ↔ ts = ⟨.word w, p⟩ :: rest := by
  rcases ts with - | ⟨⟨lexeme, q⟩, left⟩
  · simp [word]
  · cases lexeme <;> simp [word, and_assoc]

theorem number_eq {role : NumberRole} {digits : Text} :
    number finish role (⟨.number digits, p⟩ :: rest) =
      if Text.digitLimit < digits.length then .error (.overlong ⟨digits.length⟩)
      else if greatestNumber < Text.digitsValue digits then
        .error (.fault ⟨.text (.numberTooLarge role), some p⟩)
      else .ok ⟨(Text.digitsValue digits, p), rest, Nat.lt_succ_self _⟩ := by
  simp only [number, Text.natural_eq]
  by_cases long : Text.digitLimit < digits.length
  · simp only [if_pos long]
  · simp only [if_neg long]

theorem reads_number {role : NumberRole} {n : Nat} :
    Reads (number finish role ts) (n, p) rest ↔
      ∃ digits, Fits digits ∧ Text.digitsValue digits = n ∧ ts = ⟨.number digits, p⟩ :: rest := by
  rcases ts with - | ⟨⟨lexeme, q⟩, left⟩
  · simp [number]
  · cases lexeme with
    | word w => simp [number]
    | symbol d => simp [number]
    | number digits =>
        rw [number_eq]
        constructor
        · intro read
          split_ifs at read with long large
          · exact absurd read not_reads_error
          · exact absurd read not_reads_error
          · simp only [reads_ok, Prod.mk.injEq] at read
            obtain ⟨⟨rfl, rfl⟩, rfl⟩ := read
            exact ⟨digits, ⟨Nat.not_lt.mp long, Nat.not_lt.mp large⟩, rfl, rfl⟩
        · rintro ⟨_, ⟨short, small⟩, rfl, ⟨⟩⟩
          have within : ¬greatestNumber < Text.digitsValue digits := Nat.not_lt.mpr small
          rw [if_neg (Nat.not_lt.mpr short), if_neg within]
          exact reads_ok.mpr ⟨rfl, rfl⟩

theorem reads_separator {close : Char} {more : Bool} (notComma : close ≠ ',') :
    Reads (separator finish close ts) more rest ↔
      ∃ p, ts = ⟨.symbol (if more then ',' else close), p⟩ :: rest := by
  rcases ts with - | ⟨⟨lexeme, q⟩, left⟩
  · simp [separator]
  · cases lexeme with
    | word w => simp [separator]
    | number digits => simp [separator]
    | symbol d =>
        simp only [separator]
        by_cases comma : d = ','
        · cases more <;> simp [comma, notComma.symm]
        · rw [if_neg comma]
          by_cases closing : d = close <;> cases more <;> simp [comma, closing]
          exact fun same => absurd same notComma

/-! ## Lists -/

section
variable {α : Type} {close : Char} {whole : List Token}
  {item : (ts : List Token) → ts.length ≤ whole.length → Reading α ts.length}
  {xs : List α} {inside : ts.length ≤ whole.length}

theorem reads_items_closed {left : List Token}
    {inside : (⟨.symbol close, p⟩ :: left : List Token).length ≤ whole.length} :
    Reads (items finish close whole item (⟨.symbol close, p⟩ :: left) inside) xs rest ↔
      xs = [] ∧ left = rest := by
  rw [items, symbol?_symbol]
  simp only [reads_ok]
  exact and_congr_left fun _ => eq_comm

/-- A list that is not closed at once has a first item; behind it the list ends or goes on. -/
theorem reads_items_open (notComma : close ≠ ',') (isOpen : ¬StartsWith close ts) :
    Reads (items finish close whole item ts inside) xs rest ↔
      ∃ a mid, Reads (item ts inside) a mid ∧
        ((∃ p, mid = ⟨.symbol close, p⟩ :: rest ∧ xs = [a]) ∨
          ∃ p later inside others, mid = ⟨.symbol ',', p⟩ :: later ∧
            later.length < ts.length ∧
            Reads (items finish close whole item later inside) others rest ∧ xs = a :: others) := by
  rw [items, symbol?_eq_none isOpen]
  constructor
  · intro read
    obtain ⟨a, mid, short, first, read⟩ := read.of_bind
    obtain ⟨more, later, shorter, sep, read⟩ := read.of_bind
    refine ⟨a, mid, first, ?_⟩
    obtain ⟨p, split⟩ := (reads_separator notComma).mp sep
    cases more with
    | false =>
        simp only [Bool.false_eq_true, if_false, reads_ok] at read
        obtain ⟨rfl, rfl⟩ := read
        exact .inl ⟨p, split, rfl⟩
    | true =>
        obtain ⟨others, left, _, next, read⟩ := read.of_bind
        simp only [reads_ok] at read
        obtain ⟨rfl, rfl⟩ := read
        exact .inr ⟨p, later, _, others, split, Nat.lt_trans shorter short, next, rfl⟩
  · rintro ⟨a, mid, first, ⟨p, rfl, rfl⟩ | ⟨p, later, _, others, rfl, -, next, rfl⟩⟩
    · have closes : Reads (separator finish close (⟨.symbol close, p⟩ :: rest)) false rest :=
        (reads_separator notComma).mpr ⟨p, rfl⟩
      exact first.bind fun _ => closes.bind fun _ => reads_ok.mpr ⟨rfl, rfl⟩
    · have goesOn : Reads (separator finish close (⟨.symbol ',', p⟩ :: later)) true later :=
        (reads_separator notComma).mpr ⟨p, rfl⟩
      exact first.bind fun _ => goesOn.bind fun _ => next.bind fun _ => reads_ok.mpr ⟨rfl, rfl⟩

def Follows (close : Char) (ts : List Token) : Prop := StartsWith close ts ∨ StartsWith ',' ts

def ReadsItem (close : Char) (whole : List Token)
    (item : (ts : List Token) → ts.length ≤ whole.length → Reading α ts.length)
    (tokens : List Token → α → Prop) : Prop :=
  ∀ ts inside a rest, Follows close rest →
    (Reads (item ts inside) a rest ↔ ∃ front, ts = front ++ rest ∧ tokens front a)

/-- A list of items is read with the symbol that closes it. -/
theorem reads_items {tokens : List Token → α → Prop} (notComma : close ≠ ',')
    (fresh : ∀ front a, tokens front a → ∀ rest, ¬StartsWith close (front ++ rest))
    (reads : ReadsItem close whole item tokens) :
    Reads (items finish close whole item ts inside) xs rest ↔
      ∃ front p, ts = front ++ ⟨.symbol close, p⟩ :: rest ∧ Listed tokens front xs := by
  induction ts using shorter_induction generalizing xs with
  | _ ts ih =>
  by_cases starts : StartsWith close ts
  · obtain ⟨p, left, rfl⟩ := starts
    rw [reads_items_closed]
    constructor
    · rintro ⟨rfl, rfl⟩
      exact ⟨[], p, rfl, .none⟩
    · rintro ⟨front, q, split, listed⟩
      have opens {us vs : List Token} (again : ⟨.symbol close, p⟩ :: left = us ++ vs) :
          StartsWith close (us ++ vs) := ⟨p, left, again.symm⟩
      cases listed with
      | none =>
          cases split
          exact ⟨rfl, rfl⟩
      | last first => exact absurd (opens split) (fresh _ _ first _)
      | more first others =>
          rw [List.append_assoc] at split
          exact absurd (opens split) (fresh _ _ first _)
  · rw [reads_items_open notComma starts]
    constructor
    · rintro ⟨a, mid, first, ⟨p, rfl, rfl⟩ | ⟨p, later, _, others, rfl, short, next, rfl⟩⟩
      · obtain ⟨front, rfl, spelled⟩ := (reads _ _ _ _ (.inl ⟨p, rest, rfl⟩)).mp first
        exact ⟨front, p, rfl, .last spelled⟩
      · obtain ⟨front, rfl, spelled⟩ := (reads _ _ _ _ (.inr ⟨p, later, rfl⟩)).mp first
        obtain ⟨behind, q, rfl, listed⟩ := (ih _ short).mp next
        exact ⟨front ++ ⟨.symbol ',', p⟩ :: behind, q, by simp, .more spelled listed⟩
    · rintro ⟨front, p, rfl, listed⟩
      cases listed with
      | none => exact absurd ⟨p, rest, rfl⟩ starts
      | last first =>
          have follows : Follows close (⟨.symbol close, p⟩ :: rest) := .inl ⟨p, rest, rfl⟩
          exact ⟨_, _, (reads _ _ _ _ follows).mpr ⟨_, rfl, first⟩, .inl ⟨p, rfl, rfl⟩⟩
      | more first others =>
          rename_i us vs a as q
          have split : us ++ ⟨.symbol ',', q⟩ :: vs ++ ⟨.symbol close, p⟩ :: rest =
              us ++ ⟨.symbol ',', q⟩ :: (vs ++ ⟨.symbol close, p⟩ :: rest) := by simp
          have short : (vs ++ ⟨.symbol close, p⟩ :: rest).length <
              (us ++ ⟨.symbol ',', q⟩ :: vs ++ ⟨.symbol close, p⟩ :: rest).length := by
            simp only [List.length_append, List.length_cons]
            omega
          refine ⟨a, _, (reads _ _ _ _ (.inr ⟨q, _, rfl⟩)).mpr ⟨us, split, first⟩, .inr ?_⟩
          exact ⟨q, _, Nat.le_trans (Nat.le_of_lt short) inside, as, rfl, short,
            (ih _ short).mpr ⟨vs, p, rfl, others⟩, rfl⟩

end
end Reading
end SchemaHistory
