import Mathlib.Data.List.Basic
import SchemaHistory.Enumeration.Numbering
import SchemaHistory.Proofs.Results

/-! # Discriminants in order

The running number remembers the last discriminant and counts the unit variants behind it.  It gets
through all variants exactly when every discriminant exceeds each one in front of it by more than
the number of unit variants between the two (`stepAll_isOk_iff`).  Whether it does depends neither
on the version nor on the name of the enum, which only show in the diagnostic. -/
set_option autoImplicit false
namespace SchemaHistory

def Payload.isUnit : Payload → Bool
  | .unit => true
  | _ => false

namespace Numbering

def units (vs : List Variant) : Nat := vs.countP fun v => v.payload.isUnit

/-- Every discriminant among the variants exceeds `taken` by more than the number of unit variants
in front of it. -/
def Above (taken : Nat) (vs : List Variant) : Prop :=
  ∀ before v after n, vs = before ++ v :: after → v.payload = .int n →
    taken + units before < n.value

/-- Behind a discriminant come only discriminants that leave room for the unit variants between. -/
def Ordered (vs : List Variant) : Prop :=
  ∀ before v after n, vs = before ++ v :: after → v.payload = .int n → Above n.value after

theorem units_cons (v : Variant) (vs : List Variant) : units (v :: vs) = units [v] + units vs := by
  simp only [units, List.countP_cons, List.countP_nil]
  omega

theorem Above.mono {low high : Nat} {vs : List Variant} (le : low ≤ high) (above : Above high vs) :
    Above low vs := by
  intro before v after n split value
  have room := above before v after n split value
  omega

theorem above_nil (taken : Nat) : Above taken [] := by
  intro before v after n split
  cases before <;> cases split

theorem above_cons {taken : Nat} {v : Variant} {rest : List Variant} :
    Above taken (v :: rest) ↔
      (∀ n, v.payload = .int n → taken < n.value) ∧ Above (taken + units [v]) rest := by
  constructor
  · intro above
    refine ⟨fun n value => above [] v rest n rfl value, ?_⟩
    intro before w after n split value
    have room := above (v :: before) w after n (by rw [split]; rfl) value
    rw [units_cons] at room
    omega
  · intro above before w after n split value
    rcases above with ⟨first, later⟩
    cases before with
    | nil =>
        cases split
        exact first n value
    | cons u before =>
        cases split
        have room := later before w after n rfl value
        rw [units_cons]
        omega

theorem ordered_nil : Ordered [] := by
  intro before v after n split
  cases before <;> cases split

theorem ordered_cons {v : Variant} {rest : List Variant} :
    Ordered (v :: rest) ↔ (∀ n, v.payload = .int n → Above n.value rest) ∧ Ordered rest := by
  constructor
  · intro ordered
    refine ⟨fun n value => ordered [] v rest n rfl value, ?_⟩
    intro before w after n split value
    exact ordered (v :: before) w after n (by rw [split]; rfl) value
  · intro ordered before w after n split value
    rcases ordered with ⟨first, later⟩
    cases before with
    | nil =>
        cases split
        exact first n value
    | cons u before =>
        cases split
        exact later before w after n rfl value

def behind (n : Numbering) (v : Variant) : Numbering :=
  match v.payload with
  | .unit => if n.last.isSome then { n with following := n.following + 1 } else n
  | .int discriminant => ⟨some discriminant.value, 0⟩
  | _ => n

theorem step_eq_ok_iff {enumName : Json} {version : Int} {n m : Numbering} {v : Variant} :
    step enumName version n v = .ok m ↔
      (∀ d, v.payload = .int d → ∀ taken ∈ n.taken?, taken < d.value) ∧ n.behind v = m := by
  obtain ⟨name, payload, header, position⟩ := v
  unfold step behind
  cases payload with
  | unit => simp
  | tuple ts => simp
  | struct fs => simp
  | int discriminant =>
      simp only [Payload.int.injEq, forall_eq']
      cases n.taken? with
      | none => simp [exceeds]
      | some taken =>
          simp only [exceeds, decide_eq_true_eq, Option.mem_def, Option.some.injEq, forall_eq']
          split_ifs with room
          · simp [room]
          · simp [room]

theorem taken?_behind_int {n : Numbering} {v : Variant} {d : Located Nat}
    (value : v.payload = .int d) : (n.behind v).taken? = some d.value := by
  simp [behind, value, taken?]

theorem taken?_behind {n : Numbering} {v : Variant} (other : ∀ d, v.payload ≠ .int d) :
    (n.behind v).taken? = n.taken?.map (· + units [v]) := by
  obtain ⟨name, payload, header, position⟩ := v
  obtain ⟨last, following⟩ := n
  cases payload with
  | int d => exact absurd rfl (other d)
  | unit => cases last <;> simp [behind, taken?, units, Payload.isUnit, Nat.add_assoc]
  | tuple ts => simp [behind, units, Payload.isUnit]
  | struct fs => simp [behind, units, Payload.isUnit]

theorem stepAll_cons_isOk_iff {enumName : Json} {version : Int} {n : Numbering} {v : Variant}
    {rest : List Variant} :
    (∃ m, (v :: rest).foldlM (step enumName version) n = .ok m) ↔
      (∀ d, v.payload = .int d → ∀ taken ∈ n.taken?, taken < d.value) ∧
        ∃ m, rest.foldlM (step enumName version) (n.behind v) = .ok m := by
  simp only [List.foldlM_cons, bind_eq_ok_iff, step_eq_ok_iff]
  constructor
  · intro counted
    rcases counted with ⟨m, _, ⟨room, rfl⟩, run⟩
    exact ⟨room, m, run⟩
  · intro counted
    rcases counted with ⟨room, m, run⟩
    exact ⟨m, _, ⟨room, rfl⟩, run⟩

/-- A discriminant takes over what the variants behind it have to exceed. -/
theorem above_and_ordered_int {n : Numbering} {v : Variant} {rest : List Variant} {d : Located Nat}
    (value : v.payload = .int d) :
    ((∀ taken ∈ n.taken?, Above taken (v :: rest)) ∧ Ordered (v :: rest)) ↔
      (∀ taken ∈ n.taken?, taken < d.value) ∧ Above d.value rest ∧ Ordered rest := by
  have noUnit : units [v] = 0 := by simp [units, value, Payload.isUnit]
  simp only [ordered_cons, above_cons, value, Payload.int.injEq, forall_eq', noUnit, Nat.add_zero]
  constructor
  · intro follow
    rcases follow with ⟨before, above, ordered⟩
    exact ⟨fun taken mem => (before taken mem).1, above, ordered⟩
  · intro follow
    rcases follow with ⟨room, above, ordered⟩
    refine ⟨fun taken mem => ⟨room taken mem, ?_⟩, above, ordered⟩
    exact above.mono (Nat.le_of_lt (room taken mem))

theorem above_and_ordered_other {n : Numbering} {v : Variant} {rest : List Variant}
    (other : ∀ d, v.payload ≠ .int d) :
    ((∀ taken ∈ n.taken?, Above taken (v :: rest)) ∧ Ordered (v :: rest)) ↔
      (∀ taken ∈ (n.behind v).taken?, Above taken rest) ∧ Ordered rest := by
  have vacuous : ∀ {P : Located Nat → Prop}, ∀ d, v.payload = .int d → P d :=
    fun d same => absurd same (other d)
  rw [taken?_behind other]
  simp only [ordered_cons, above_cons]
  constructor
  · intro follow
    rcases follow with ⟨before, -, ordered⟩
    refine ⟨fun taken mem => ?_, ordered⟩
    obtain ⟨t, earlier, rfl⟩ := Option.map_eq_some_iff.mp mem
    exact (before t earlier).2
  · intro follow
    rcases follow with ⟨above, ordered⟩
    refine ⟨fun taken mem => ⟨vacuous, above _ ?_⟩, vacuous, ordered⟩
    exact Option.mem_map_of_mem _ mem

/-- The running number gets through when the discriminants are in order and above what is taken. -/
theorem stepAll_isOk_iff (enumName : Json) (version : Int) (n : Numbering) (vs : List Variant) :
    (∃ m, vs.foldlM (step enumName version) n = .ok m) ↔
      (∀ taken ∈ n.taken?, Above taken vs) ∧ Ordered vs := by
  induction vs generalizing n with
  | nil => exact iff_of_true ⟨n, rfl⟩ ⟨fun taken _ => above_nil taken, ordered_nil⟩
  | cons v rest ih =>
      rw [stepAll_cons_isOk_iff, ih]
      by_cases value : ∃ d, v.payload = .int d
      · obtain ⟨d, value⟩ := value
        rw [above_and_ordered_int value, taken?_behind_int value]
        simp [value]
      · have other : ∀ d, v.payload ≠ .int d := fun d same => value ⟨d, same⟩
        rw [above_and_ordered_other other]
        exact and_iff_right fun d same => absurd same (other d)

end Numbering
end SchemaHistory
