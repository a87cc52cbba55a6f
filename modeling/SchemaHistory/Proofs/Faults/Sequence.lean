import Mathlib.Data.List.Basic

/-! # Checks in a row

A check finds a fault or nothing, and of several checks in a row the first fault counts.  A list of
checks says what a computation may reject without saying how it is run: `fault?_bind` goes from the
checks of two computations to those of the one after the other.  `checksAfter` lists the checks of
all elements of a list, where those of one element may look at the elements in front of it. -/
set_option autoImplicit false
namespace SchemaHistory

section
variable {ε α β : Type}

def fault? : Except ε α → Option ε
  | .ok _ => none
  | .error e => some e

def firstFault (checks : List (Option ε)) : Option ε := checks.findSome? id

@[simp] theorem firstFault_nil : firstFault ([] : List (Option ε)) = none := rfl

@[simp] theorem firstFault_one (check : Option ε) : firstFault [check] = check := by
  cases check <;> rfl

theorem firstFault_cons (check : Option ε) (checks : List (Option ε)) :
    firstFault (check :: checks) = check.or (firstFault checks) := by
  cases check <;> rfl

theorem firstFault_append (checks later : List (Option ε)) :
    firstFault (checks ++ later) = (firstFault checks).or (firstFault later) :=
  List.findSome?_append

theorem firstFault_map (f : ε → β) (checks : List (Option ε)) :
    firstFault (checks.map (Option.map f)) = (firstFault checks).map f := by
  induction checks with
  | nil => rfl
  | cons check checks ih =>
      rw [List.map_cons, firstFault_cons, firstFault_cons, ih]
      cases check <;> rfl

/-- The first fault stands behind checks that find nothing. -/
theorem firstFault_eq_some_iff {checks : List (Option ε)} {e : ε} :
    firstFault checks = some e ↔
      ∃ before after, checks = before ++ some e :: after ∧ ∀ check ∈ before, check = none := by
  rw [firstFault, List.findSome?_eq_some_iff]
  constructor
  · intro found
    rcases found with ⟨before, check, after, split, rfl, silent⟩
    exact ⟨before, after, split, silent⟩
  · intro found
    rcases found with ⟨before, after, split, silent⟩
    exact ⟨before, some e, after, split, rfl, silent⟩

theorem mem_of_firstFault {checks : List (Option ε)} {e : ε} (found : firstFault checks = some e) :
    some e ∈ checks := by
  obtain ⟨before, after, rfl, -⟩ := firstFault_eq_some_iff.mp found
  exact List.mem_append_right _ List.mem_cons_self

theorem fault?_eq_some_iff {x : Except ε α} {e : ε} : fault? x = some e ↔ x = .error e := by
  cases x <;> simp [fault?]

theorem fault?_eq_none_iff {x : Except ε α} : fault? x = none ↔ ∃ a, x = .ok a := by
  cases x <;> simp [fault?]

/-- Of two computations one after the other the second one is checked only behind the first one. -/
theorem fault?_bind {x : Except ε α} {f : α → Except ε β} {checks later : List (Option ε)}
    (first : fault? x = firstFault checks)
    (second : ∀ a, x = .ok a → fault? (f a) = firstFault later) :
    fault? (x >>= f) = firstFault (checks ++ later) := by
  rw [firstFault_append, ← first]
  cases x with
  | error e => rfl
  | ok a => exact second a rfl

/-- The checks of every element, given the elements in front of it. -/
def checksAfter (checks : List α → α → List β) (before : List α) : List α → List β
  | [] => []
  | x :: rest => checks before x ++ checksAfter checks (before ++ [x]) rest

end
end SchemaHistory
