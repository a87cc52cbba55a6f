import Mathlib.Data.List.Forall2

/-! # Arrangements of lists

An arrangement is a way to put the items of a list into another order: neighbours change places, one
pair after the other.  It acts on lists of any items, and every permutation of a list comes from an
arrangement (`exists_of_perm`).  `among` is what an arrangement does to those items that are kept,
when only some of them are (`filter_act`). -/
set_option autoImplicit false
namespace SchemaHistory

inductive Arrangement
  | keep
  | swap
  | behind (rest : Arrangement)
  | andThen (first later : Arrangement)
  deriving DecidableEq, Repr

namespace Arrangement
variable {α β : Type}

/-- The list in the new order; where an exchange finds no two items, they stay. -/
def act : Arrangement → List α → List α
  | .keep, xs => xs
  | .swap, x :: y :: rest => y :: x :: rest
  | .swap, xs => xs
  | .behind a, x :: rest => x :: act a rest
  | .behind _, [] => []
  | .andThen a b, xs => act b (act a xs)

def among : Arrangement → List Bool → Arrangement
  | .keep, _ => .keep
  | .swap, true :: true :: _ => .swap
  | .swap, _ => .keep
  | .behind a, true :: kept => .behind (among a kept)
  | .behind a, false :: kept => among a kept
  | .behind _, [] => .keep
  | .andThen a b, kept => .andThen (among a kept) (among b (act a kept))

theorem act_perm (a : Arrangement) (xs : List α) : (a.act xs).Perm xs := by
  induction a generalizing xs with
  | keep => exact .refl xs
  | swap =>
      rcases xs with - | ⟨x, - | ⟨y, rest⟩⟩
      · exact .refl _
      · exact .refl _
      · exact .swap x y rest
  | behind a ih =>
      cases xs with
      | nil => exact .refl _
      | cons x rest => exact (ih rest).cons x
  | andThen a b first later => exact (later (a.act xs)).trans (first xs)

theorem act_map (a : Arrangement) (f : α → β) (xs : List α) :
    a.act (xs.map f) = (a.act xs).map f := by
  induction a generalizing xs with
  | keep => rfl
  | swap => rcases xs with - | ⟨x, - | ⟨y, rest⟩⟩ <;> rfl
  | behind a ih =>
      cases xs with
      | nil => rfl
      | cons x rest => exact congrArg (f x :: ·) (ih rest)
  | andThen a b first later =>
      simp only [act]
      rw [first, later]

/-- Every permutation of a list is the action of an arrangement. -/
theorem exists_of_perm {xs ys : List α} (perm : xs.Perm ys) : ∃ a : Arrangement, a.act xs = ys := by
  induction perm with
  | nil => exact ⟨.keep, rfl⟩
  | cons x _ ih =>
      obtain ⟨a, acts⟩ := ih
      exact ⟨.behind a, congrArg (x :: ·) acts⟩
  | swap x y rest => exact ⟨.swap, rfl⟩
  | trans _ _ first later =>
      obtain ⟨a, left⟩ := first
      obtain ⟨b, right⟩ := later
      exact ⟨.andThen a b, by rw [act, left, right]⟩

/-- Arranging and then keeping some items is keeping them and then arranging what is left. -/
theorem filter_act (a : Arrangement) (p : α → Bool) (xs : List α) :
    (a.act xs).filter p = (a.among (xs.map p)).act (xs.filter p) := by
  induction a generalizing xs with
  | keep => rfl
  | swap =>
      rcases xs with - | ⟨x, - | ⟨y, rest⟩⟩
      · rfl
      · cases own : p x <;> simp [act, among, own]
      · cases left : p x <;> cases right : p y <;> simp [act, among, left, right]
  | behind a ih =>
      cases xs with
      | nil => rfl
      | cons x rest => cases own : p x <;> simp [act, among, own, ih]
  | andThen a b first later =>
      simp only [act, among]
      rw [later, first, act_map]

/-! ## Items with arrangements of their own -/

section
variable {γ : Type} (f : γ → α → α)

/-- Every item is changed by what stands beside it; items with nothing beside them stay. -/
def each : List γ → List α → List α
  | [], xs => xs
  | _ :: _, [] => []
  | c :: cs, x :: xs => f c x :: each cs xs

/-- What stands beside the items that are kept, changed along with its item. -/
def beside (p : α → Bool) (g : γ → α → γ) : List γ → List α → List γ
  | c :: cs, x :: xs => if p x then g c x :: beside p g cs xs else beside p g cs xs
  | _, _ => []

theorem map_each {h : α → β} (same : ∀ c x, h (f c x) = h x) (cs : List γ) (xs : List α) :
    (each f cs xs).map h = xs.map h := by
  induction cs generalizing xs with
  | nil => rfl
  | cons c cs ih =>
      cases xs with
      | nil => rfl
      | cons x xs => rw [each, List.map_cons, List.map_cons, same, ih]

/-- Changing the items and then keeping and reading some of them is the same as reading those that
are kept and then changing them. -/
theorem filter_each {p : α → Bool} {g : γ → α → γ} {h : α → α} (same : ∀ c x, p (f c x) = p x)
    (reads : ∀ c x, h (f c x) = f (g c x) (h x)) (cs : List γ) (xs : List α) :
    ((each f cs xs).filter p).map h = each f (beside p g cs xs) ((xs.filter p).map h) := by
  induction cs generalizing xs with
  | nil => rfl
  | cons c cs ih =>
      cases xs with
      | nil => rfl
      | cons x xs => cases own : p x <;> simp [each, beside, same, own, reads, ih]

theorem exists_each {R : α → α → Prop} (covers : ∀ x y, R x y → ∃ c, f c x = y) {xs ys : List α}
    (related : List.Forall₂ R xs ys) : ∃ cs, each f cs xs = ys := by
  induction related with
  | nil => exact ⟨[], rfl⟩
  | cons first _ ih =>
      obtain ⟨c, own⟩ := covers _ _ first
      obtain ⟨cs, others⟩ := ih
      exact ⟨c :: cs, by rw [each, own, others]⟩

theorem forall₂_each {R : α → α → Prop} (related : ∀ c x, R x (f c x)) (refl : ∀ x, R x x)
    (cs : List γ) (xs : List α) : List.Forall₂ R xs (each f cs xs) := by
  induction cs generalizing xs with
  | nil => exact List.forall₂_same.mpr fun x _ => refl x
  | cons c cs ih =>
      cases xs with
      | nil => exact .nil
      | cons x xs => exact .cons (related c x) (ih xs)

end
end Arrangement
end SchemaHistory
