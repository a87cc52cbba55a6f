import Mathlib.Data.List.Basic
import SchemaHistory.Enumeration.Style
import SchemaHistory.Proofs.Results

/-! # Enums of one style

The running check of the styles remembers the first style that it met.  It accepts all variants
exactly when no two of them have different styles (`stepAll_isOk_iff`), that is when no variant has
a discriminant where another one has a tuple or fields (`uniform_iff`). -/
set_option autoImplicit false
namespace SchemaHistory.Style

def among (vs : List Variant) : List Style := vs.filterMap fun v => of? v.payload

def Uniform (styles : List Style) : Prop := ∀ s ∈ styles, ∀ t ∈ styles, s = t

theorem step_eq_ok_iff {enumName : Json} {seen next : Option Style} {v : Variant} :
    step enumName seen v = .ok next ↔
      (∀ before ∈ seen, ∀ style ∈ of? v.payload, before = style) ∧
        seen.or (of? v.payload) = next := by
  unfold step
  cases of? v.payload with
  | none => simp
  | some style =>
      cases seen with
      | none => simp
      | some before =>
          by_cases same : before = style
          · simp [same]
          · simp [same]

theorem among_cons (v : Variant) (vs : List Variant) :
    among (v :: vs) = (of? v.payload).toList ++ among vs := by
  unfold among
  cases style : of? v.payload <;> simp [style]

theorem Uniform.mono {ss ts : List Style} (sub : ss ⊆ ts) (uniform : Uniform ts) : Uniform ss :=
  fun s left t right => uniform s (sub left) t (sub right)

/-- Meeting a style again adds nothing to the question whether all are the same. -/
theorem uniform_step (seen own : Option Style) (rest : List Style) :
    Uniform (seen.toList ++ (own.toList ++ rest)) ↔
      (∀ before ∈ seen, ∀ style ∈ own, before = style) ∧
        Uniform ((seen.or own).toList ++ rest) := by
  cases own with
  | none => simp
  | some style =>
      cases seen with
      | none => simp
      | some before =>
          constructor
          · intro uniform
            refine ⟨?_, ?_⟩
            · rintro _ ⟨⟩ _ ⟨⟩
              exact uniform before (by simp) style (by simp)
            · refine uniform.mono fun s member => ?_
              rcases List.mem_cons.mp member with rfl | member
              · simp
              · exact List.mem_append_right _ (List.mem_append_right _ member)
          · intro agree
            rcases agree with ⟨same, uniform⟩
            obtain rfl := same before rfl style rfl
            refine uniform.mono fun s member => ?_
            simpa using member

/-- The check accepts all variants when all styles, the remembered one included, are the same. -/
theorem stepAll_isOk_iff {enumName : Json} (seen : Option Style) (vs : List Variant) :
    (∃ style, vs.foldlM (step enumName) seen = .ok style) ↔ Uniform (seen.toList ++ among vs) := by
  induction vs generalizing seen with
  | nil =>
      refine iff_of_true ⟨seen, rfl⟩ ?_
      intro s left t right
      cases seen <;> simp_all [among]
  | cons v rest ih =>
      rw [among_cons, uniform_step, ← ih]
      simp only [List.foldlM_cons, bind_eq_ok_iff, step_eq_ok_iff]
      constructor
      · intro passed
        rcases passed with ⟨style, next, ⟨same, rfl⟩, run⟩
        exact ⟨same, style, run⟩
      · intro passed
        rcases passed with ⟨same, style, run⟩
        exact ⟨style, _, ⟨same, rfl⟩, run⟩

/-- No variant has a discriminant where another one has a tuple or fields. -/
def Unmixed (vs : List Variant) : Prop :=
  ∀ v ∈ vs, ∀ w ∈ vs, ∀ n, v.payload = .int n →
    (∀ types, w.payload ≠ .tuple types) ∧ ∀ fields, w.payload ≠ .struct fields

theorem of?_eq_numbered {p : Payload} : of? p = some .numbered ↔ ∃ n, p = .int n := by
  cases p <;> simp [of?]

theorem of?_eq_carrying {p : Payload} :
    of? p = some .carrying ↔ (∃ types, p = .tuple types) ∨ ∃ fields, p = .struct fields := by
  cases p <;> simp [of?]

theorem uniform_iff {vs : List Variant} : Uniform (among vs) ↔ Unmixed vs := by
  simp only [Uniform, among, List.mem_filterMap]
  constructor
  · intro uniform v left w right n numbered
    have apart : of? w.payload ≠ some .carrying := fun carrying => by
      cases uniform .numbered ⟨v, left, of?_eq_numbered.mpr ⟨n, numbered⟩⟩ .carrying
        ⟨w, right, carrying⟩
    exact ⟨fun types tuple => apart (of?_eq_carrying.mpr (.inl ⟨types, tuple⟩)),
      fun fields struct => apart (of?_eq_carrying.mpr (.inr ⟨fields, struct⟩))⟩
  · intro unmixed
    have apart {v w : Variant} (left : v ∈ vs) (right : w ∈ vs)
        (numbered : of? v.payload = some .numbered) : of? w.payload ≠ some .carrying := by
      obtain ⟨n, discriminant⟩ := of?_eq_numbered.mp numbered
      obtain ⟨noTuple, noFields⟩ := unmixed v left w right n discriminant
      rw [Ne, of?_eq_carrying]
      rintro (⟨types, tuple⟩ | ⟨fields, struct⟩)
      · exact noTuple types tuple
      · exact noFields fields struct
    rintro s ⟨v, left, first⟩ t ⟨w, right, second⟩
    cases s with
    | numbered =>
        cases t with
        | numbered => rfl
        | carrying => exact absurd second (apart left right first)
    | carrying =>
        cases t with
        | numbered => exact absurd first (apart right left second)
        | carrying => rfl

end SchemaHistory.Style
