import SchemaHistory.Proofs.Compiled.Acceptance
import SchemaHistory.Proofs.Enumeration.Order
import SchemaHistory.Proofs.Faults.FactOrigins

/-! # Numbers that increase

`Numbering.numbers` numbers the variants of an enum: a discriminant is its own number, a unit
variant takes the number after the one before it, and what carries a payload or comes before the
first discriminant has none.  The running number gets through exactly when these numbers increase
(`accepts_iff_increasing`).  The variants that are left when some are taken out are then accepted
too (`Accepts.sublist`), although the numbers of the units may change; so an enum whose variants are
accepted as a whole is out of order in no version. -/
set_option autoImplicit false
namespace SchemaHistory

namespace Numbering

/-- The numbers of the variants, where `taken` is the number in front of them. -/
def numbersBehind (taken : Option Nat) : List Variant → List Nat
  | [] => []
  | v :: rest =>
    match v.payload, taken with
    | .int n, _ => n.value :: numbersBehind (some n.value) rest
    | .unit, some n => (n + 1) :: numbersBehind (some (n + 1)) rest
    | _, taken => numbersBehind taken rest

def numbers (vs : List Variant) : List Nat := numbersBehind none vs

def Accepts (enumName : Json) (version : Int) (vs : List Variant) : Prop :=
  ∃ n, vs.foldlM (step enumName version) start = .ok n

section
variable {enumName : Json} {version : Int} {v : Variant} {ws vs rest : List Variant}

/-! ## Increasing numbers -/

theorem numbersBehind_int {taken : Option Nat} {d : Located Nat} (value : v.payload = .int d) :
    numbersBehind taken (v :: rest) = d.value :: numbersBehind (some d.value) rest := by
  simp only [numbersBehind, value]

theorem numbersBehind_other {taken : Option Nat} (other : ∀ d, v.payload ≠ .int d) :
    numbersBehind taken (v :: rest) =
      (if v.payload.isUnit then (taken.map (· + 1)).toList else []) ++
        numbersBehind (taken.map (· + units [v])) rest := by
  obtain ⟨name, payload, header, position⟩ := v
  cases payload with
  | int d => exact absurd rfl (other d)
  | unit => cases taken <;> rfl
  | tuple ts => cases taken <;> rfl
  | struct fs => cases taken <;> rfl

theorem units_of_isUnit (unit : v.payload.isUnit = true) : units [v] = 1 := by
  simp [units, unit]

theorem units_of_not_isUnit (other : v.payload.isUnit = false) : units [v] = 0 := by
  simp [units, other]

/-- The running number gets through when the numbers behind it increase from it on. -/
theorem run_iff_chain (n : Numbering) (vs : List Variant) :
    (∃ m, vs.foldlM (step enumName version) n = .ok m) ↔
      (n.taken?.toList ++ numbersBehind n.taken? vs).IsChain (· < ·) := by
  induction vs generalizing n with
  | nil =>
      refine iff_of_true ⟨n, rfl⟩ ?_
      cases n.taken? with
      | none => exact .nil
      | some t => exact .singleton t
  | cons v rest ih =>
      rw [stepAll_cons_isOk_iff, ih]
      by_cases value : ∃ d, v.payload = .int d
      · obtain ⟨d, value⟩ := value
        rw [taken?_behind_int value, numbersBehind_int value]
        cases n.taken? with
        | none => simp [value]
        | some t => simp [value, List.isChain_cons_cons]
      · have other : ∀ d, v.payload ≠ .int d := fun d same => value ⟨d, same⟩
        rw [taken?_behind other, numbersBehind_other other]
        rw [and_iff_right fun d same => absurd same (other d)]
        cases n.taken? with
        | none => cases unit : v.payload.isUnit <;> simp
        | some t =>
            cases unit : v.payload.isUnit with
            | false => simp [units_of_not_isUnit unit]
            | true => simp [units_of_isUnit unit, List.isChain_cons_cons]

theorem accepts_iff_increasing :
    Accepts enumName version vs ↔ (numbers vs).Pairwise (· < ·) := by
  rw [← List.isChain_iff_pairwise]
  exact run_iff_chain start vs

/-! ## Leaving variants out -/

theorem accepts_iff_ordered : Accepts enumName version vs ↔ Ordered vs := by
  rw [Accepts, stepAll_isOk_iff]
  exact and_iff_right fun taken none => nomatch none

/-- Leaving variants out leaves at least as much room in front of every discriminant. -/
theorem Above.sublist {taken : Nat} (sub : ws.Sublist vs) (above : Above taken vs) :
    Above taken ws := by
  induction sub generalizing taken with
  | slnil => exact above
  | cons v sub ih => exact ih ((above_cons.mp above).2.mono (Nat.le_add_right _ _))
  | cons_cons v sub ih =>
      obtain ⟨first, later⟩ := above_cons.mp above
      exact above_cons.mpr ⟨first, ih later⟩

theorem Ordered.sublist (sub : ws.Sublist vs) (ordered : Ordered vs) : Ordered ws := by
  induction sub with
  | slnil => exact ordered
  | cons v sub ih => exact ih (ordered_cons.mp ordered).2
  | cons_cons v sub ih =>
      obtain ⟨first, later⟩ := ordered_cons.mp ordered
      exact ordered_cons.mpr ⟨fun n value => (first n value).sublist sub, ih later⟩

theorem Accepts.sublist (sub : ws.Sublist vs) (accepted : Accepts enumName version vs) :
    Accepts enumName version ws :=
  accepts_iff_ordered.mpr ((accepts_iff_ordered.mp accepted).sublist sub)

theorem Accepts.excerpts (accepted : Accepts enumName version vs) (own : Int)
    (container : Lifetime) : Accepts enumName own (Variant.excerpts own container vs) := by
  have ordered := accepts_iff_ordered.mp accepted
  have living : Accepts enumName own (vs.filter fun v => decide (own ∈ v.lifetime container)) :=
    accepts_iff_ordered.mpr (ordered.sublist List.filter_sublist)
  unfold Accepts Variant.excerpts
  simp only [List.foldlM_map, Fact.step_excerpt]
  exact living

end
end Numbering

/-! ## The check of a version -/

theorem TypeExpr.Refused.category {d : Diagnostic} {o : Bool × TypeExpr}
    (refused : TypeExpr.Refused (.diagnostic d) o) : d.cause.category = .referenceKind := by
  cases refused <;> rfl

theorem Fact.ComesFrom.category {occurrences : List (Bool × TypeExpr)} {d : Diagnostic}
    (comes : (Fact.fault (.diagnostic d)).ComesFrom occurrences) :
    d.cause.category = .referenceKind := by
  obtain ⟨o, -, refused⟩ := comes
  exact refused.category

theorem Decl.category_of_ordered {version : Int} {e : Decl} {d : Diagnostic}
    (ordered : Numbering.Ordered e.variants)
    (fault : Fact.fault (.diagnostic d) ∈ e.facts version) :
    d.cause.category = .referenceKind := by
  rw [facts_of_ordered ordered, plainFacts] at fault
  rcases List.mem_cons.mp fault with own | members
  · unfold Fact.definition at own
    split_ifs at own
    cases own
  · rcases List.mem_append.mp members with field | variant
    · exact (Fact.ofFields_comeFrom _ _ field).category
    · obtain ⟨v, -, inner⟩ := List.mem_flatMap.mp variant
      exact (v.innerFacts_comeFrom _ inner).category

namespace Numbering

open History (addedIn removedIn)

/-- The variants of an enum are accepted exactly when their numbers increase, so that no number is
given twice.  With them are accepted those that are left when some are taken out; and in no version
of a schema is there anything wrong with the discriminants of an enum whose variants are accepted
all together. -/
theorem accepted_iff_numbers_increase (enumName : Json) (version : Int) (vs : List Variant) :
    (Accepts enumName version vs ↔ (numbers vs).Pairwise (· < ·)) ∧
    (Accepts enumName version vs → (numbers vs).Nodup) ∧
    (Accepts enumName version vs → ∀ ws, ws.Sublist vs → Accepts enumName version ws) ∧
    ∀ limit decls snapshots, History.ofDeclarations limit decls = .ok snapshots →
      ∀ s ∈ snapshots, ∀ slot ∈ s.declared decls, slot.2.body = .enum vs →
        Accepts enumName version vs →
        ∀ d, .fault (.diagnostic d) ∈ Fact.ofType s.version slot.1 slot.2 →
          d.cause.category ≠ .enumDiscriminant := by
  refine ⟨accepts_iff_increasing, fun accepted => ?_, fun accepted ws sub => accepted.sublist sub,
    ?_⟩
  · exact (accepts_iff_increasing.mp accepted).imp Nat.ne_of_lt
  · intro limit decls snapshots built s member slot declared enum accepted d fault
    obtain ⟨-, rfl⟩ := History.ofDeclarations_eq_ok_iff.mp built
    obtain ⟨own, -, -, rfl⟩ := History.mem_layouts_iff.mp member
    rw [History.declared_layout] at declared
    obtain ⟨⟨e, i⟩, -, rfl⟩ := List.mem_map.mp declared
    have living : (e.excerpt own).variants = Variant.excerpts own e.lifetime vs := by
      rw [Decl.excerpt_variants, Decl.variants, enum]
    have ordered : Ordered (e.excerpt own).variants := by
      rw [living]
      exact accepts_iff_ordered.mp (accepted.excerpts own e.lifetime)
    have facts : Fact.fault (.diagnostic d) ∈ (e.excerpt own).facts own := by
      rw [← Fact.ofType_layout own e i]
      exact fault
    rw [Decl.category_of_ordered ordered facts]
    decide

/-- Behind the discriminant 4 two units take 5 and 6, as the variant between them has no number. -/
def levels : List Variant :=
  [⟨.str "Off", .unit, none, none⟩, ⟨.str "Low", .int ⟨4, none⟩, removedIn 3, none⟩,
   ⟨.str "Mid", .unit, none, none⟩, ⟨.str "Odd", .tuple [], none, none⟩,
   ⟨.str "High", .unit, addedIn 2, none⟩, ⟨.str "Top", .int ⟨7, none⟩, none, none⟩]

theorem accepted_iff_numbers_increase_levels :
    numbers levels = [4, 5, 6, 7] ∧ Accepts (.str "Level") 1 levels ∧
    Accepts (.str "Level") 1 (levels.eraseIdx 1) ∧ numbers (levels.eraseIdx 1) = [7] := by
  obtain ⟨increase, -, sublists, -⟩ := accepted_iff_numbers_increase (.str "Level") 1 levels
  have own : numbers levels = [4, 5, 6, 7] := by decide
  have accepted : Accepts (.str "Level") 1 levels := by
    refine increase.mpr ?_
    rw [own]
    decide
  exact ⟨own, accepted, sublists accepted _ (List.eraseIdx_sublist levels 1), by decide⟩

end Numbering
end SchemaHistory
