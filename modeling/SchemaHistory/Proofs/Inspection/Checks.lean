import SchemaHistory.Proofs.Enumeration.Increasing
import SchemaHistory.Proofs.Inspection.Rejections
import SchemaHistory.Proofs.Lifetime.Admission

/-! # Siblings and variants behind rejected ones

The inspectors of siblings, of styles and of discriminants perform `Siblings.add`, `Style.step` and
`Numbering.step`: each looks before it changes what it holds.  So a rejected item has no bearing on
the items behind it, and what has been accepted is free of what the inspector looks for, however
many items were rejected in between (`inspectors_forget_rejected`). -/
set_option autoImplicit false
namespace SchemaHistory

namespace Siblings

theorem performs_add : inspector.Performs Siblings.add := by
  intro siblings item
  unfold Inspector.judge inspector add
  rw [Inspecting.outcome_get_bind, Inspecting.outcome_bind, Inspecting.outcome_search]
  cases siblings.any fun earlier => earlier.clashes item <;> rfl

def NamesakesDisjoint (items : List Sibling) : Prop :=
  items.Pairwise fun a b => Json.equals a.name b.name = true → a.disjoint b = true

theorem apart_iff_namesakesDisjoint {items : List Sibling} :
    Apart items ↔ NamesakesDisjoint items := by
  refine List.Pairwise.iff fun {a b} => ?_
  rw [Sibling.clashes, Bool.and_eq_false_iff, Bool.not_eq_false', Bool.eq_false_iff]
  exact imp_iff_not_or.symm

theorem NamesakesDisjoint.versions {items : List Sibling} (disjoint : NamesakesDisjoint items) :
    items.Pairwise fun a b => Json.equals a.name b.name = true →
      ∀ version ∈ a.lifetime, version ∉ b.lifetime :=
  disjoint.imp fun apart namesakes _ inside => Sibling.not_mem_of_disjoint (apart namesakes) inside

theorem steps_iff (items : List Sibling) :
    (∃ last, items.foldlM Siblings.add [] = .ok last) ↔ NamesakesDisjoint items := by
  rw [← apart_iff_namesakesDisjoint, ← nil_admits]
  constructor
  · rintro ⟨last, added⟩
    exact (addAll_eq_ok_iff.mp added).1
  · intro admits
    exact ⟨[] ++ items, addAll_eq_ok_iff.mpr ⟨admits, rfl⟩⟩

/-- What is held in the end are the accepted items, in their order. -/
theorem held_eq_accepted (items : List Sibling) :
    (inspector.inspect [] items).held = (inspector.inspect [] items).accepted :=
  (addAll_eq_ok_iff.mp (performs_add.steps_accepted [] items)).2.symm

end Siblings

namespace Style

theorem performs_step (enumName : Json) : (inspector enumName).Performs (step enumName) := by
  intro seen v
  unfold Inspector.judge inspector step
  cases of? v.payload with
  | none => rfl
  | some style =>
      cases seen with
      | none => rfl
      | some before =>
          by_cases same : before = style
          · simp [same, Inspector.settled]
          · simp [same, Inspector.settled]

theorem steps_iff (enumName : Json) (vs : List Variant) :
    (∃ last, vs.foldlM (step enumName) none = .ok last) ↔ Unmixed vs := by
  rw [stepAll_isOk_iff]
  exact uniform_iff

/-- A tuple behind a discriminant is rejected, also behind a unit variant. -/
example :
    ([⟨.str "Low", .int ⟨5, none⟩, none, none⟩, ⟨.str "None", .unit, none, none⟩,
      ⟨.str "Pair", .tuple [], none, some ⟨.int 3, .int 2, none⟩⟩].foldlM
        (step (.str "Level")) none) =
      .error ⟨.mixedShapes (.str "Level") (.str "Pair"), some ⟨.int 3, .int 2, none⟩⟩ := by rfl

end Style

namespace Numbering

theorem performs_step (enumName : Json) (version : Int) :
    (inspector enumName version).Performs (step enumName version) := by
  intro n v
  unfold Inspector.judge inspector step
  cases v.payload with
  | unit =>
      cases behind : n.last.isSome with
      | true => simp [behind, Inspector.settled]
      | false => simp [behind, Inspector.settled]
  | int discriminant =>
      cases room : exceeds discriminant.value n.taken? with
      | true => simp [room, Inspector.settled]
      | false => simp [room, Inspector.settled]
  | tuple types => rfl
  | struct fields => rfl

theorem steps_iff (enumName : Json) (version : Int) (vs : List Variant) :
    (∃ last, vs.foldlM (step enumName version) start = .ok last) ↔
      (numbers vs).Pairwise (· < ·) :=
  accepts_iff_increasing

def discriminants (vs : List Variant) : List Nat :=
  vs.filterMap fun v =>
    match v.payload with
    | .int discriminant => some discriminant.value
    | _ => none

theorem discriminants_sublist (taken : Option Nat) (vs : List Variant) :
    (discriminants vs).Sublist (numbersBehind taken vs) := by
  induction vs generalizing taken with
  | nil => exact .slnil
  | cons v rest ih =>
      obtain ⟨name, payload, header, position⟩ := v
      cases payload with
      | int discriminant => exact (ih (some discriminant.value)).cons_cons _
      | unit =>
          cases taken with
          | none => exact ih none
          | some n => exact (ih (some (n + 1))).cons _
      | tuple types => exact ih taken
      | struct fields => exact ih taken

end Numbering

/-- A rejected item changes nothing that an inspector of siblings, styles or discriminants holds.
In any run, whatever was rejected in it, the verdict on an item is that in the run through the
accepted items in front of it and the item; the accepted items alone are all accepted; and an item
is accepted just if it fits together with them.  So the siblings held are the accepted ones, and no
two of one name live in the same version; accepted variants have not both discriminants and
payloads; and accepted discriminants, and the numbers of all accepted variants, increase. -/
theorem inspectors_forget_rejected :
    (Siblings.inspector.ForgetsRejected [] Siblings.NamesakesDisjoint ∧
      ∀ items, (Siblings.inspector.inspect [] items).held =
          (Siblings.inspector.inspect [] items).accepted ∧
        (Siblings.inspector.inspect [] items).held.Pairwise fun a b =>
          Json.equals a.name b.name = true →
            a.disjoint b = true ∧ ∀ version ∈ a.lifetime, version ∉ b.lifetime) ∧
    (∀ enumName, (Style.inspector enumName).ForgetsRejected none Style.Unmixed) ∧
    ∀ enumName version,
      ((Numbering.inspector enumName version).ForgetsRejected Numbering.start
        fun vs => (Numbering.numbers vs).Pairwise (· < ·)) ∧
      ∀ vs, (Numbering.discriminants
        ((Numbering.inspector enumName version).inspect Numbering.start vs).accepted).Pairwise
          (· < ·) := by
  have siblings := Siblings.performs_add.forgetsRejected Siblings.steps_iff
  refine ⟨⟨siblings, fun items => ⟨Siblings.held_eq_accepted items, ?_⟩⟩, ?_, ?_⟩
  · rw [Siblings.held_eq_accepted]
    have disjoint := siblings.fits items
    exact disjoint.imp₂ (fun _ _ apart free namesakes => ⟨apart namesakes, free namesakes⟩)
      disjoint.versions
  · intro enumName
    exact (Style.performs_step enumName).forgetsRejected (Style.steps_iff enumName)
  · intro enumName version
    have variants := (Numbering.performs_step enumName version).forgetsRejected
      (Numbering.steps_iff enumName version)
    refine ⟨variants, fun vs => ?_⟩
    exact (variants.fits vs).sublist (Numbering.discriminants_sublist none _)

/-- Behind 5 both 3 and 4 are rejected, as 3 makes no room for 4; 7 exceeds the 6 of the unit. -/
example :
    ((Numbering.inspector (.str "Level") 1).inspect Numbering.start
      [⟨.str "Low", .int ⟨5, none⟩, none, none⟩, ⟨.str "Odd", .int ⟨3, none⟩, none, none⟩,
       ⟨.str "Even", .int ⟨4, none⟩, none, none⟩, ⟨.str "High", .unit, none, none⟩,
       ⟨.str "Top", .int ⟨7, none⟩, none, none⟩]).accepted.map Variant.name =
      [.str "Low", .str "High", .str "Top"] := by rfl

end SchemaHistory
