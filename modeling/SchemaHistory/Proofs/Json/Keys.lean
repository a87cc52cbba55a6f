import SchemaHistory.Json.Order

/-! # Texts as names

A text can be looked up, is its own key and counts as equal to itself alone, also among values of
other kinds.  Which of two values is compared with the other makes no difference. -/
set_option autoImplicit false
namespace SchemaHistory.Json

theorem canBeLookedUp_of_isText {name : Json} (text : name.isText = true) :
    name.canBeLookedUp = true := by
  cases name <;> first | rfl | cases text

theorem key_of_isText {name : Json} (text : name.isText = true) : name.key = name := by
  cases name with
  | str s => exact key_str s
  | null => cases text
  | bool b => cases text
  | int n => cases text
  | real x => cases text
  | arr items => cases text
  | obj members => cases text

theorem eq_of_key_eq {name word : Json} (text : word.isText = true) (same : name.key = word) :
    name = word := by
  subst same
  cases name with
  | str s => exact (key_str s).symm
  | real x =>
      rw [key] at text
      split at text <;> cases text
  | null => simp [key, isText] at text
  | bool b => simp [key, isText] at text
  | int n => simp [key, isText] at text
  | arr items => simp [key, isText] at text
  | obj members => simp [key, isText] at text

theorem equals_eq_false_iff {a b : Json} (left : a.isText = true) (right : b.isText = true) :
    equals a b = false ↔ a ≠ b := by
  have number : a ≠ .real .nan := by
    rintro rfl
    cases left
  simp [equals, number, key_of_isText left, key_of_isText right]

/-- Only one value has the key of what is no number. -/
theorem key_eq_nan_iff {a : Json} : a.key = .real .nan ↔ a = .real .nan := by
  cases a with
  | real x =>
      cases whole : x.whole? with
      | some n =>
          have finite : x ≠ .nan := by
            rintro rfl
            cases whole
          simp [key, whole, finite]
      | none => simp [key, whole]
  | _ => simp [key]

theorem equals_comm (a b : Json) : equals a b = equals b a := by
  unfold equals
  by_cases same : a.key = b.key
  · have number : a = .real .nan ↔ b = .real .nan := by
      rw [← key_eq_nan_iff (a := a), same, key_eq_nan_iff]
    simp only [same, ne_eq, number]
  · simp only [same, Ne.symm same, decide_false, Bool.and_false]

end SchemaHistory.Json
