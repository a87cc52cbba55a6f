import Mathlib.Data.List.Basic

/-! # Results

How steps that may fail come to a result: one behind the other, on every element of a list, and with
a function applied to what they return. -/
set_option autoImplicit false
namespace SchemaHistory
variable {ε δ α β γ : Type}

theorem bind_eq_ok_iff {x : Except ε α} {f : α → Except ε β} {b : β} :
    (x >>= f) = .ok b ↔ ∃ a, x = .ok a ∧ f a = .ok b := by
  cases x with
  | error e => simp [bind, Except.bind]
  | ok a => simp [bind, Except.bind]

theorem bind_eq_error_iff {x : Except ε α} {f : α → Except ε β} {e : ε} :
    (x >>= f) = .error e ↔ x = .error e ∨ ∃ a, x = .ok a ∧ f a = .error e := by
  cases x with
  | error d => simp [bind, Except.bind]
  | ok a => simp [bind, Except.bind]

theorem map_eq_ok_iff {f : α → β} {x : Except ε α} {b : β} :
    x.map f = .ok b ↔ ∃ a, x = .ok a ∧ f a = b := by
  cases x with
  | error e => simp [Except.map]
  | ok a => simp [Except.map]

theorem map_eq_error_iff {f : α → β} {x : Except ε α} {e : ε} :
    x.map f = .error e ↔ x = .error e := by
  cases x <;> simp [Except.map]

theorem mapError_eq_ok_iff {f : ε → δ} {x : Except ε α} {a : α} :
    x.mapError f = .ok a ↔ x = .ok a := by
  cases x <;> simp [Except.mapError]

theorem mapM_eq_ok_of_forall {f : α → Except ε β} {key : γ → α} {g : γ → β} {xs : List γ}
    (each : ∀ x ∈ xs, f (key x) = .ok (g x)) : (xs.map key).mapM f = .ok (xs.map g) := by
  induction xs with
  | nil => rfl
  | cons x xs ih =>
      obtain ⟨first, others⟩ := List.forall_mem_cons.mp each
      rw [List.map_cons, List.mapM_cons, first, ih others]
      rfl

theorem forall_of_mapM {f : α → Except ε β} {good : β → Prop} {xs : List α} {ys : List β}
    (each : ∀ x ∈ xs, ∀ y, f x = .ok y → good y) (read : xs.mapM f = .ok ys) :
    ∀ y ∈ ys, good y := by
  induction xs generalizing ys with
  | nil =>
      cases read
      exact List.forall_mem_nil _
  | cons x xs ih =>
      obtain ⟨own, later⟩ := List.forall_mem_cons.mp each
      rw [List.mapM_cons] at read
      obtain ⟨first, head, rest⟩ := bind_eq_ok_iff.mp read
      obtain ⟨others, tail, equal⟩ := bind_eq_ok_iff.mp rest
      cases equal
      exact List.forall_mem_cons.mpr ⟨own first head, ih later tail⟩

end SchemaHistory
