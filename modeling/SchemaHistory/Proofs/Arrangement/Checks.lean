import SchemaHistory.Proofs.Arrangement.Schema
import SchemaHistory.Proofs.Compiled.Coherence

/-! # Checks that do not depend on the order

Rearranged declarations mention the same versions, have the same siblings in another order and come
to the same facts in another order.  The order of siblings does not matter (`Siblings.Apart.perm`),
and as long as no key is defined twice the order of the facts does not matter either
(`resolve_of_perm`).  The one value that counts as unlike itself is no number; types
with that name would be the exception, as their definitions replace each other. -/
set_option autoImplicit false
namespace SchemaHistory

section
variable {α β : Type} {R : α → α → Prop} {xs ys : List α}

theorem exists_of_forall₂ (related : List.Forall₂ R xs ys) {y : α} (member : y ∈ ys) :
    ∃ x ∈ xs, R x y := by
  induction related with
  | nil => cases member
  | cons first _ ih =>
      rcases List.mem_cons.mp member with rfl | later
      · exact ⟨_, List.mem_cons_self, first⟩
      · obtain ⟨x, inside, own⟩ := ih later
        exact ⟨x, List.mem_cons_of_mem _ inside, own⟩

theorem map_eq_of_forall₂ {f : α → β} (related : List.Forall₂ R xs ys)
    (same : ∀ x y, R x y → f x = f y) : xs.map f = ys.map f := by
  induction related with
  | nil => rfl
  | cons first _ ih => rw [List.map_cons, List.map_cons, same _ _ first, ih]

theorem flatMap_perm_of_forall₂ {f : α → List β} (related : List.Forall₂ R xs ys)
    (perm : ∀ x y, R x y → (f x).Perm (f y)) : (xs.flatMap f).Perm (ys.flatMap f) := by
  induction related with
  | nil => exact .nil
  | cons first _ ih =>
      rw [List.flatMap_cons, List.flatMap_cons]
      exact (perm _ _ first).append ih

end

/-! ## Rearranged payloads and variants -/

namespace Payload.Rearranged
variable {p q : Payload} (rearranged : p.Rearranged q)
include rearranged

theorem fields : p.fields.Perm q.fields := by
  cases rearranged with
  | same => exact .refl _
  | struct perm => exact perm

theorem style : Style.of? p = Style.of? q := by
  cases rearranged with
  | same => rfl
  | struct perm => rfl

theorem isUnit : p.isUnit = q.isUnit := by
  cases rearranged with
  | same => rfl
  | struct perm => rfl

theorem int_of_int {n : Located Nat} (number : q = .int n) : p = .int n := by
  cases rearranged with
  | same => exact number
  | struct perm => cases number

end Payload.Rearranged

namespace Variant.Rearranged
variable {v w : Variant} (rearranged : v.Rearranged w)
include rearranged

theorem lifetime (container : Lifetime) : v.lifetime container = w.lifetime container :=
  congrArg (Lifetime.ofHeader · (some container)) rearranged.header

theorem mentioned : v.mentioned.Perm w.mentioned := by
  rw [Variant.mentioned, Variant.mentioned, rearranged.header]
  exact (rearranged.payload.fields.flatMap_right _).append_left _

theorem innerFacts : v.innerFacts.Perm w.innerFacts := by
  obtain ⟨name, payload, header, position⟩ := v
  obtain ⟨other, payload', header', position'⟩ := w
  have inside : payload.Rearranged payload' := rearranged.payload
  cases inside with
  | same => exact .refl _
  | struct perm => exact perm.flatMap_right _

theorem isExportable (exportable : v.isExportable = true) : w.isExportable = true := by
  obtain ⟨name, payload, header, position⟩ := v
  obtain ⟨other, payload', header', position'⟩ := w
  have inside : payload.Rearranged payload' := rearranged.payload
  cases inside with
  | same => exact exportable
  | struct perm =>
      have each := List.all_eq_true.mp exportable
      exact List.all_eq_true.mpr fun f member => each f (perm.mem_iff.mpr member)

end Variant.Rearranged

namespace Numbering
variable {vs ws : List Variant} (related : List.Forall₂ Variant.Rearranged vs ws)
include related

theorem above_of_forall₂ {taken : Nat} (above : Above taken vs) : Above taken ws := by
  induction related generalizing taken with
  | nil => exact above
  | @cons v w _ _ first _ ih =>
      obtain ⟨own, later⟩ := above_cons.mp above
      have room : units [v] = units [w] := by
        simp only [units, List.countP_singleton, first.payload.isUnit]
      rw [room] at later
      exact above_cons.mpr ⟨fun n number => own n (first.payload.int_of_int number), ih later⟩

theorem ordered_of_forall₂ (ordered : Ordered vs) : Ordered ws := by
  induction related with
  | nil => exact ordered
  | cons first rest ih =>
      obtain ⟨own, later⟩ := ordered_cons.mp ordered
      refine ordered_cons.mpr ⟨fun n number => ?_, ih later⟩
      exact above_of_forall₂ rest (own n (first.payload.int_of_int number))

end Numbering

/-! ## Rearranged declarations -/

namespace Decl.Rearranged
variable {d e : Decl} (rearranged : d.Rearranged e)
include rearranged

theorem lifetime : d.lifetime = e.lifetime :=
  congrArg (Lifetime.ofHeader · none) rearranged.header

theorem isNode : d.isNode = e.isNode := by
  obtain ⟨name, body, header, position⟩ := d
  obtain ⟨other, body', header', position'⟩ := e
  have inside : body.Rearranged body' := rearranged.body
  cases inside with
  | @record node fs gs perm => cases node <;> rfl
  | enum each => rfl

theorem fields : d.fields.Perm e.fields := by
  obtain ⟨name, body, header, position⟩ := d
  obtain ⟨other, body', header', position'⟩ := e
  have inside : body.Rearranged body' := rearranged.body
  cases inside with
  | record perm => exact perm
  | enum each => exact .nil

theorem variants : List.Forall₂ Variant.Rearranged d.variants e.variants := by
  obtain ⟨name, body, header, position⟩ := d
  obtain ⟨other, body', header', position'⟩ := e
  have inside : body.Rearranged body' := rearranged.body
  cases inside with
  | record perm => exact .nil
  | enum each => exact each

theorem mentioned : d.mentioned.Perm e.mentioned := by
  have variants :=
    flatMap_perm_of_forall₂ rearranged.variants fun _ _ => Variant.Rearranged.mentioned
  rw [Decl.mentioned, Decl.mentioned, rearranged.header]
  exact ((rearranged.fields.flatMap_right _).append_left _).append variants

theorem plainFacts : d.plainFacts.Perm e.plainFacts := by
  have variants :=
    flatMap_perm_of_forall₂ rearranged.variants fun _ _ => Variant.Rearranged.innerFacts
  rw [Decl.plainFacts, Decl.plainFacts, rearranged.name, rearranged.isNode]
  exact ((rearranged.fields.flatMap_right _).append variants).cons _

theorem isExportable (exportable : d.isExportable = true) : e.isExportable = true := by
  obtain ⟨name, body, header, position⟩ := d
  obtain ⟨other, body', header', position'⟩ := e
  have inside : body.Rearranged body' := rearranged.body
  cases inside with
  | record perm =>
      have each := List.all_eq_true.mp exportable
      exact List.all_eq_true.mpr fun f member => each f (perm.mem_iff.mpr member)
  | enum related =>
      have each := List.all_eq_true.mp exportable
      refine List.all_eq_true.mpr fun w member => ?_
      obtain ⟨v, inside, own⟩ := exists_of_forall₂ related member
      exact own.isExportable (each v inside)

end Decl.Rearranged

/-! ## Facts -/

namespace References
variable {facts others : List Fact}

theorem Distinct.perm (distinct : Distinct facts) (perm : facts.Perm others) : Distinct others :=
  (perm.pairwise_iff fun {_ _} separate name isNode other otherIsNode left right =>
    (separate other otherIsNode name isNode right left).symm).mp distinct

/-- As long as no key is defined twice, the order of the facts does not matter. -/
theorem resolve_of_perm (distinct : Distinct facts) (perm : facts.Perm others)
    (resolve : Resolve facts) : Resolve others := by
  obtain ⟨faultless, defined⟩ := (resolve_iff distinct).mp resolve
  refine (resolve_iff (distinct.perm perm)).mpr ⟨fun r member => ?_, fun use used => ?_⟩
  · exact faultless r (perm.mem_iff.mpr member)
  · obtain ⟨name, member, same⟩ := defined use (perm.mem_iff.mpr used)
    exact ⟨name, perm.mem_iff.mp member, same⟩

end References

theorem name_of_defines {d : Decl} {name : Json} {isNode : Bool}
    (member : .defines name isNode ∈ d.plainFacts) : d.name = name := by
  rcases List.mem_cons.mp member with own | inside
  · unfold Fact.definition at own
    split at own
    · cases own
      rfl
    · cases own
  · exact absurd inside (defines_not_mem_members name isNode d)

/-- Types whose names are unlike each other and count as equal to themselves define distinct
keys. -/
theorem distinct_of_unlike {schema : List Decl} (numbers : ∀ d ∈ schema, d.name ≠ .real .nan)
    (unlike : Siblings.Unlike (schema.map Decl.name)) :
    References.Distinct (schema.flatMap Decl.plainFacts) := by
  rw [References.Distinct, List.pairwise_flatMap]
  refine ⟨fun d _ => distinct_plainFacts d, ?_⟩
  refine (List.pairwise_map.mp unlike).imp_of_mem ?_
  intro a b inA _ differ x left y right name isNode other otherIsNode isX isY
  subst isX isY
  obtain rfl := name_of_defines left
  obtain rfl := name_of_defines right
  simpa [Json.equals, numbers a inA] using differ

end SchemaHistory
