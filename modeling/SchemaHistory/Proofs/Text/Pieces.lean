import Mathlib.Data.List.Basic
import Mathlib.Data.Nat.Digits.Defs
import SchemaHistory.Text.Numeral

/-! # Cutting texts

A text is cut behind its first letters of a class.  When the rest starts with a letter outside of
the class, or with none, the two pieces can be told from the whole (`pieces_unique`).  Decimal
numerals are digits only, and denote the number that they were made of. -/
set_option autoImplicit false
namespace SchemaHistory

theorem split_of_append_eq {α : Type} {s t before after : List α} {x : α}
    (split : s ++ t = before ++ x :: after) :
    (∃ more, before = s ++ more ∧ t = more ++ x :: after) ∨
      ∃ more, s = before ++ x :: more ∧ after = more ++ t := by
  rcases List.append_eq_append_iff.mp split with second | ⟨more, rfl, own⟩
  · exact .inl second
  · cases more with
    | nil => exact .inl ⟨[], by simp only [List.append_nil], own.symm⟩
    | cons y more =>
        obtain ⟨rfl, rfl⟩ := List.cons.inj own
        exact .inr ⟨more, rfl, rfl⟩

namespace Text
variable {p : Letter → Bool} {w v r s : Text}

def Stops (p : Letter → Bool) (t : Text) : Prop := ∀ l ∈ t.head?, p l = false

theorem stops_nil : Stops p [] := fun _ member => nomatch member

theorem stops_cons {l : Letter} : Stops p (l :: r) ↔ p l = false := by
  simp [Stops]

theorem Stops.of_head (stops : Stops p s) (same : r.head? = s.head?) : Stops p r := by
  intro l first
  rw [same] at first
  exact stops l first

theorem takeWhile_append_stops (inside : ∀ l ∈ w, p l = true) (stops : Stops p r) :
    (w ++ r).takeWhile p = w := by
  rw [List.takeWhile_append_of_pos inside]
  cases r with
  | nil => simp
  | cons l rest => simp [stops_cons.mp stops]

theorem dropWhile_append_stops (inside : ∀ l ∈ w, p l = true) (stops : Stops p r) :
    (w ++ r).dropWhile p = r := by
  rw [List.dropWhile_append_of_pos inside]
  cases r with
  | nil => rfl
  | cons l rest => simp [stops_cons.mp stops]

theorem pieces_unique (left : ∀ l ∈ w, p l = true) (right : ∀ l ∈ v, p l = true)
    (stops : Stops p r) (other : Stops p s) (same : w ++ r = v ++ s) : w = v ∧ r = s := by
  constructor
  · rw [← takeWhile_append_stops left stops, same, takeWhile_append_stops right other]
  · rw [← dropWhile_append_stops left stops, same, dropWhile_append_stops right other]

/-! ## Decimal numerals -/

theorem ofNat_eq (n : Nat) : ofNat n = ofChars (Nat.toDigits 10 n) := by
  simp [ofNat, ofString]

theorem ofInt_natCast (n : Nat) : ofInt n = ofNat n := rfl

theorem isWesternDigit_of_mem_ofNat {n : Nat} {l : Letter} (member : l ∈ ofNat n) :
    isWesternDigit l = true := by
  rw [ofNat_eq, ofChars, List.mem_map] at member
  obtain ⟨c, inside, rfl⟩ := member
  exact Nat.isDigit_of_mem_toDigits (by decide) (by decide) inside

theorem exists_ofNat (n : Nat) :
    ∃ c rest, ofNat n = .char c :: rest ∧ c.isDigit = true ∧
      ∀ l ∈ rest, isWesternDigit l = true := by
  have digits : ∀ l ∈ ofNat n, isWesternDigit l = true := fun l => isWesternDigit_of_mem_ofNat
  rw [ofNat_eq] at digits ⊢
  cases shape : Nat.toDigits 10 n with
  | nil => exact absurd shape Nat.toDigits_ne_nil
  | cons c cs =>
      rw [shape] at digits
      exact ⟨c, ofChars cs, rfl, digits _ List.mem_cons_self,
        fun l member => digits l (List.mem_cons_of_mem _ member)⟩

theorem digitsValue_ofChars (cs : List Char) :
    digitsValue (ofChars cs) = Nat.ofDigitChars 10 cs 0 := by
  simp only [digitsValue, digitValues, ofDigits, ofChars, List.map_map, List.foldl_map,
    Nat.ofDigitChars]
  congr 1
  funext n c
  simp [Letter.code, Nat.mul_comm]

theorem digitsValue_ofNat (n : Nat) : digitsValue (ofNat n) = n := by
  rw [ofNat_eq, digitsValue_ofChars, Nat.ofDigitChars_ten_toDigits]

theorem length_ofNat_le {n places : Nat} (some : 0 < places) (small : n < 10 ^ places) :
    (ofNat n).length ≤ places := by
  rw [ofNat_eq, ofChars, List.length_map]
  exact Nat.toDigits_length 10 n places some small

theorem ofNat_injective {n m : Nat} (same : ofNat n = ofNat m) : n = m := by
  rw [← digitsValue_ofNat n, same, digitsValue_ofNat]

end Text
end SchemaHistory
