import Mathlib.Tactic.Ring
import SchemaHistory.Proofs.Text.Pieces
import SchemaHistory.Settings

/-! # Numbers that can be printed

A number with too many digits can neither be read nor printed.  What a numeral is converted to has
no more digits than the numeral, so every number that is read from a text can be printed again
(`isShort_of_converted`). -/
set_option autoImplicit false
namespace SchemaHistory

namespace Text

theorem foldl_digits_lt {digits : List Nat} (small : ∀ d ∈ digits, d < 10) (n : Nat) :
    digits.foldl (fun n d => n * 10 + d) n < (n + 1) * 10 ^ digits.length := by
  induction digits generalizing n with
  | nil => simp
  | cons d digits ih =>
      obtain ⟨own, others⟩ := List.forall_mem_cons.mp small
      calc digits.foldl (fun n d => n * 10 + d) (n * 10 + d)
          < (n * 10 + d + 1) * 10 ^ digits.length := ih others _
        _ ≤ (n + 1) * 10 * 10 ^ digits.length := Nat.mul_le_mul_right _ (by omega)
        _ = (n + 1) * 10 ^ (digits.length + 1) := by ring

theorem ofDigits_lt {digits : List Nat} (small : ∀ d ∈ digits, d < 10) :
    ofDigits digits < 10 ^ digits.length := by
  simpa [ofDigits] using foldl_digits_lt small 0

theorem digitValues_lt {digits : Text} (western : ∀ l ∈ digits, isWesternDigit l = true) :
    ∀ d ∈ digitValues digits, d < 10 := by
  intro d member
  obtain ⟨l, inside, rfl⟩ := List.mem_map.mp member
  have digit := western l inside
  cases l with
  | surrogate offset => cases digit
  | char c =>
      simp only [isWesternDigit, Letter.satisfies, Char.isDigit, Bool.and_eq_true,
        decide_eq_true_eq] at digit
      have high : c.toNat ≤ '9'.toNat := digit.2
      change c.toNat - '0'.toNat < 10
      simp only [Char.reduceToNat] at high ⊢
      omega

/-! ## Short numbers -/

/-- The number can be printed: its numeral has no more digits than one that is converted. -/
def IsShort (n : Int) : Prop := (ofNat n.natAbs).length ≤ digitLimit

section
variable {n : Int}

theorem isShort_iff : IsShort n ↔ n.natAbs < 10 ^ digitLimit := by
  constructor
  · intro short
    have western : ∀ l ∈ ofNat n.natAbs, isWesternDigit l = true :=
      fun l => isWesternDigit_of_mem_ofNat
    have below := ofDigits_lt (digitValues_lt western)
    rw [← digitsValue, digitsValue_ofNat, digitValues, List.length_map] at below
    exact lt_of_lt_of_le below (Nat.pow_le_pow_right (by decide) short)
  · exact length_ofNat_le (by decide)

theorem isShort_neg : IsShort (-n) ↔ IsShort n := by
  rw [IsShort, IsShort, Int.natAbs_neg]

theorem isShort_of_between {m : Int} (natural : 0 ≤ n) (le : n ≤ m) (short : IsShort m) :
    IsShort n := by
  rw [isShort_iff] at short ⊢
  omega

theorem isShort_of_le {m : Nat} (le : m ≤ 10 ^ 20) : IsShort m := by
  rw [isShort_iff, Int.natAbs_natCast]
  exact lt_of_le_of_lt le (Nat.pow_lt_pow_right (by decide) (by decide))

end

/-! ## Numbers that are read -/

theorem isShort_of_converted {digits : List Nat} {n : Nat} (small : ∀ d ∈ digits, d < 10)
    (read : converted digits = .ok n) : IsShort n := by
  unfold converted at read
  split_ifs at read with few
  cases read
  rw [isShort_iff, Int.natAbs_natCast]
  exact lt_of_lt_of_le (ofDigits_lt small) (Nat.pow_le_pow_right (by decide) (not_lt.mp few))

theorem isShort_of_natural {digits : Text} {n : Nat}
    (western : ∀ l ∈ digits, isWesternDigit l = true) (read : natural digits = .ok n) :
    IsShort n :=
  isShort_of_converted (digitValues_lt western) read

theorem groupedDigits?_lt {value? : Char → Option Nat} {due : Bool} {t : Text} {digits : List Nat}
    (small : ∀ c d, value? c = some d → d < 10)
    (grouped : groupedDigits? value? due t = some digits) : ∀ d ∈ digits, d < 10 := by
  induction t generalizing due digits with
  | nil =>
      cases due <;> cases grouped
      exact List.forall_mem_nil _
  | cons l rest ih =>
      cases l with
      | surrogate offset => cases grouped
      | char c =>
          rw [groupedDigits?] at grouped
          cases digit : value? c with
          | some d =>
              rw [digit] at grouped
              obtain ⟨others, more, rfl⟩ := Option.map_eq_some_iff.mp grouped
              exact List.forall_mem_cons.mpr ⟨small c d digit, ih more⟩
          | none =>
              rw [digit] at grouped
              split_ifs at grouped
              exact ih grouped

theorem isShort_of_toOption {digits : List Nat} {n : Int} (small : ∀ d ∈ digits, d < 10)
    (read : (do let m ← (converted digits).toOption; pure (m : Int)) = some n) : IsShort n := by
  obtain ⟨m, found, equal⟩ := Option.bind_eq_some_iff.mp read
  cases equal
  cases result : converted digits with
  | error numeral =>
      rw [result] at found
      cases found
  | ok k =>
      rw [result] at found
      cases found
      exact isShort_of_converted small result

theorem isShort_of_unsigned? {t : Text} {n : Int} (read : unsigned? t = some n) : IsShort n := by
  obtain ⟨digits, grouped, found⟩ := Option.bind_eq_some_iff.mp read
  exact isShort_of_toOption (groupedDigits?_lt (fun _ _ => digit?_lt) grouped) found

theorem isShort_of_int? {t : Text} {n : Int} (read : int? t = some n) : IsShort n := by
  unfold int? signed? at read
  split at read
  · obtain ⟨m, unsigned, rfl⟩ := Option.map_eq_some_iff.mp read
    exact isShort_neg.mpr (isShort_of_unsigned? unsigned)
  · exact isShort_of_unsigned? read
  · exact isShort_of_unsigned? read

end Text

namespace Settings

theorem westernDigit?_lt {c : Char} {d : Nat} (found : westernDigit? c = some d) : d < 10 := by
  unfold westernDigit? at found
  split at found
  · rename_i digit
    cases found
    have western : ∀ l ∈ [Letter.char c], Text.isWesternDigit l = true :=
      List.forall_mem_singleton.mpr digit
    exact Text.digitValues_lt western _ List.mem_cons_self
  · cases found

theorem isShort_of_positive? {t : Text} {n : Int} (read : positive? t = some n) :
    Text.IsShort n := by
  obtain ⟨whole, -, read⟩ := Option.bind_eq_some_iff.mp read
  obtain ⟨digits, grouped, found⟩ := Option.bind_eq_some_iff.mp read
  exact Text.isShort_of_toOption (Text.groupedDigits?_lt (fun _ _ => westernDigit?_lt) grouped)
    found

end Settings
end SchemaHistory
