import SchemaHistory.Json.Reader
import SchemaHistory.Proofs.Results
import SchemaHistory.Proofs.Table
import SchemaHistory.Proofs.Text.Short

/-! # Numbers in JSON values

`Json.Each` says something of all whole numbers in a value.  Whatever is read from a text contains
short numbers only (`Json.each_of_read`), so it can be written again. -/
set_option autoImplicit false
namespace SchemaHistory

namespace Json

inductive Each (p : Int → Prop) : Json → Prop
  | null : Each p .null
  | bool {b : Bool} : Each p (.bool b)
  | int {n : Int} (holds : p n) : Each p (.int n)
  | real {x : Binary64} : Each p (.real x)
  | str {s : Text} : Each p (.str s)
  | arr {items : List Json} (each : ∀ item ∈ items, Each p item) : Each p (.arr items)
  | obj {members : List (Text × Json)} (each : ∀ m ∈ members, Each p m.2) : Each p (.obj members)

section
variable {p : Int → Prop}

theorem each_int {n : Int} : Each p (.int n) ↔ p n := by
  constructor
  · rintro ⟨⟩
    assumption
  · exact .int

theorem each_arr {items : List Json} : Each p (.arr items) ↔ ∀ item ∈ items, Each p item := by
  constructor
  · rintro ⟨⟩
    assumption
  · exact .arr

theorem each_obj {members : List (Text × Json)} :
    Each p (.obj members) ↔ ∀ m ∈ members, Each p m.2 := by
  constructor
  · rintro ⟨⟩
    assumption
  · exact .obj

theorem each_pair {m n : Text × Json} (first : Each p m.2) (second : Each p n.2) :
    Each p (.obj [m, n]) :=
  .obj (List.forall_mem_cons.mpr ⟨first, List.forall_mem_singleton.mpr second⟩)

theorem each_ofMembers {members : List (Text × Json)} (each : ∀ m ∈ members, Each p m.2) :
    Each p (ofMembers members) :=
  .obj fun m member => each m (Table.mem_of_mem_ofList member)

end

/-! ## Reading -/

theorem each_of_numeral {negative : Bool} {t : Text} {read : Json × Text}
    (numeral : readNumeral negative t = .ok read) : Each Text.IsShort read.1 := by
  unfold readNumeral at numeral
  extract_lets digits at numeral
  have western : ∀ l ∈ digits, Text.isWesternDigit l = true := by
    intro l member
    unfold digits at member
    split at member
    · cases List.mem_singleton.mp member
      rfl
    · exact List.all_eq_true.mp List.all_takeWhile l member
  split at numeral
  · cases numeral
  -- the fraction and the exponent, either of which may be missing
  split at numeral
  split at numeral
  split at numeral
  · obtain ⟨n, converted, equal⟩ := bind_eq_ok_iff.mp numeral
    cases equal
    have short := Text.isShort_of_natural western (mapError_eq_ok_iff.mp converted)
    refine .int ?_
    split
    · exact Text.isShort_neg.mpr short
    · exact short
  · cases numeral
    exact .real

theorem each_of_scalar {t : Text} {read : Json × Text} (scalar : readScalar t = .ok read) :
    Each Text.IsShort read.1 := by
  unfold readScalar at scalar
  split at scalar
  · rename_i found word
    cases scalar
    obtain ⟨entry, member, own⟩ := List.exists_of_findSome?_eq_some word
    obtain ⟨rest, -, rfl⟩ := Option.map_eq_some_iff.mp own
    simp only [words, List.mem_cons, List.not_mem_nil, or_false] at member
    rcases member with rfl | rfl | rfl | rfl | rfl | rfl
    · exact .null
    · exact .bool
    · exact .bool
    · exact .real
    · exact .real
    · exact .real
  · exact each_of_numeral scalar
  · exact each_of_numeral scalar

mutual

theorem each_of_value (t : Text) (read : Parsed Letter Json t.length)
    (value : readValue t = .ok read) : Each Text.IsShort read.value := by
  rw [readValue.eq_def] at value
  split at value
  · split at value
    · cases value
    · cases value
      exact .str
  · split at value
    · cases value
      exact .arr (List.forall_mem_nil _)
    · obtain ⟨items, found, rfl⟩ := map_eq_ok_iff.mp value
      exact .arr (each_of_items _ items found)
  · split at value
    · cases value
      exact .obj (List.forall_mem_nil _)
    · obtain ⟨members, found, rfl⟩ := map_eq_ok_iff.mp value
      exact each_ofMembers (each_of_members _ members found)
  · split at value
    · cases value
    · rename_i scalar
      split_ifs at value
      cases value
      exact each_of_scalar scalar
termination_by 2 * t.length

theorem each_of_items (t : Text) (read : Parsed Letter (List Json) t.length)
    (items : readItems t = .ok read) : ∀ item ∈ read.value, Each Text.IsShort item := by
  have start := length_skipSpace_le t
  rw [readItems] at items
  split at items
  · cases items
  · rename_i first found
    have own := each_of_value _ first found
    have shorter := first.shorter
    split at items
    · cases items
      exact List.forall_mem_singleton.mpr own
    · rename_i tail comma
      have := shorter_of_skipSpace comma
      obtain ⟨more, later, rfl⟩ := map_eq_ok_iff.mp items
      exact List.forall_mem_cons.mpr ⟨own, each_of_items tail more later⟩
    · cases items
termination_by 2 * t.length + 1

theorem each_of_members (t : Text) (read : Parsed Letter (List (Text × Json)) t.length)
    (members : readMembers t = .ok read) : ∀ m ∈ read.value, Each Text.IsShort m.2 := by
  rw [readMembers] at members
  split at members
  · rename_i named opening
    have start := shorter_of_skipSpace opening
    split at members
    · cases members
    · rename_i name _
      have nameEnds := name.shorter
      split at members
      · rename_i body colon
        have bodyShorter := shorter_of_skipSpace colon
        have bodyStart := length_skipSpace_le body
        split at members
        · cases members
        · rename_i first found
          have own := each_of_value _ first found
          have valueEnds := first.shorter
          split at members
          · cases members
            exact List.forall_mem_singleton.mpr own
          · rename_i tail comma
            have := shorter_of_skipSpace comma
            obtain ⟨more, later, rfl⟩ := map_eq_ok_iff.mp members
            exact List.forall_mem_cons.mpr ⟨own, each_of_members tail more later⟩
          · cases members
      · cases members
  · cases members
termination_by 2 * t.length + 1

end

/-- All whole numbers in a value that was read can be printed. -/
theorem each_of_read {text : Text} {value : Json} (done : read text = .ok value) :
    Each Text.IsShort value := by
  obtain ⟨p, found, rest⟩ := bind_eq_ok_iff.mp done
  split at rest
  · cases rest
    exact each_of_value _ p found
  · cases rest

end Json
end SchemaHistory
