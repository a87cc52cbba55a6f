import SchemaHistory.Proofs.Compiled.Acceptance

/-! # Every version compiles alone

The excerpt of a compiled schema for one of its versions is a schema of one version.  The walk
accepts it, since living siblings were never allowed to share a name and leaving out variants does
not mix styles (`Accepted.excerpt`); its only version passes, since what is checked of a version
does not depend on its number (`Passes.alone`); and it shows the same types
(`Compiled.excerpt_compiles`). -/
set_option autoImplicit false
namespace SchemaHistory

/-! ## The walk through an excerpt -/

namespace Walk

theorem names_fieldSiblings (container : Lifetime) (fs : List Field) :
    (fieldSiblings container fs).map Sibling.name = fs.map Field.name := by
  rw [fieldSiblings, List.map_map]
  rfl

theorem names_variantSiblings (container : Lifetime) (vs : List Variant) :
    (variantSiblings container vs).map Sibling.name = vs.map Variant.name := by
  rw [variantSiblings, List.map_map]
  rfl

theorem names_typeSiblings (decls : List Decl) :
    (typeSiblings decls).map Sibling.name = decls.map Decl.name := by
  rw [typeSiblings, List.map_map]
  rfl

section
variable {version : Int} {container : Lifetime}

theorem apart_excerpts {fs : List Field} (apart : Siblings.Apart (fieldSiblings container fs))
    (own : Lifetime) :
    Siblings.Apart (fieldSiblings own (Field.excerpts version container fs)) := by
  apply Siblings.apart_of_names
  rw [names_fieldSiblings, ← livingNames_fields]
  exact apart.unlike version

theorem apart_excerptVariants {vs : List Variant}
    (apart : Siblings.Apart (variantSiblings container vs)) (own : Lifetime) :
    Siblings.Apart (variantSiblings own (Variant.excerpts version container vs)) := by
  apply Siblings.apart_of_names
  rw [names_variantSiblings, ← livingNames_variants]
  exact apart.unlike version

theorem apart_excerpt {decls : List Decl} (apart : Siblings.Apart (typeSiblings decls)) :
    Siblings.Apart (typeSiblings (excerpt version decls)) := by
  apply Siblings.apart_of_names
  rw [names_typeSiblings, ← livingNames_types]
  exact apart.unlike version

end

theorem among_excerpts (version : Int) (l : Lifetime) (vs : List Variant) :
    Style.among (Variant.excerpts version l vs) ⊆ Style.among vs := by
  intro style member
  obtain ⟨w, listed, own⟩ := List.mem_filterMap.mp member
  obtain ⟨v, inside, -, rfl⟩ := Variant.mem_excerpts.mp listed
  rw [Variant.excerpt_style] at own
  exact List.mem_filterMap.mpr ⟨v, inside, own⟩

theorem MembersAccepted.excerpt {d : Decl} (accepted : MembersAccepted d) (version : Int) :
    MembersAccepted (d.excerpt version) := by
  refine ⟨?_, ?_, ?_, ?_⟩
  · have uniform := (Style.stepAll_isOk_iff none d.variants).mp accepted.style
    rw [Style.stepAll_isOk_iff, Decl.excerpt_variants]
    exact uniform.mono (among_excerpts version d.lifetime d.variants)
  · rw [Decl.excerpt_fields]
    exact apart_excerpts accepted.fields _
  · rw [Decl.excerpt_variants]
    exact apart_excerptVariants accepted.variants _
  · rw [Decl.excerpt_variants]
    intro w member
    obtain ⟨v, listed, -, rfl⟩ := Variant.mem_excerpts.mp member
    rw [InnerApart, Variant.excerpt_fields]
    exact apart_excerpts (accepted.inner v listed) _

end Walk

theorem Lifetime.resolveWithin_none (limit : Int) (container : Option Lifetime) :
    ∃ l, resolveWithin limit none container = .ok l := by
  cases container with
  | none => exact ⟨_, rfl⟩
  | some c => exact ⟨_, rfl⟩

theorem resolves_excerpt (limit version : Int) (decls : List Decl) :
    ∀ item ∈ items (excerpt version decls), item.ResolvesWithin limit := by
  apply (forall_items_iff (P := fun header container =>
    ∃ l, Lifetime.resolveWithin limit header container = .ok l)).mpr
  intro e member
  obtain ⟨d, -, -, rfl⟩ := mem_excerpt.mp member
  refine ⟨Lifetime.resolveWithin_none limit none, ?_, ?_⟩
  · rw [Decl.excerpt_fields]
    intro f inside
    obtain ⟨g, -, -, rfl⟩ := Field.mem_excerpts.mp inside
    exact Lifetime.resolveWithin_none limit _
  · rw [Decl.excerpt_variants]
    intro w inside
    obtain ⟨v, -, -, rfl⟩ := Variant.mem_excerpts.mp inside
    refine ⟨Lifetime.resolveWithin_none limit _, ?_⟩
    rw [Variant.excerpt_fields]
    intro f inner
    obtain ⟨g, -, -, rfl⟩ := Field.mem_excerpts.mp inner
    exact Lifetime.resolveWithin_none limit _

/-- The walk through an excerpt succeeds, under any limit. -/
theorem Accepted.excerpt {limit : Int} {decls : List Decl} (accepted : Accepted limit decls)
    (version other : Int) : Accepted other (excerpt version decls) := by
  refine ⟨resolves_excerpt other version decls, Walk.apart_excerpt accepted.apart, ?_⟩
  intro e member
  obtain ⟨d, listed, -, rfl⟩ := mem_excerpt.mp member
  exact (accepted.members d listed).excerpt version

/-! ## The only version of an excerpt -/

theorem Passes.alone {version other : Int} {schema : List Decl} (passes : Passes version schema) :
    Passes other schema := by
  refine ⟨passes.inhabited, ?_, passes.exportable⟩
  exact (resolve_facts_iff other).mpr ((resolve_facts_iff version).mp passes.resolve)

theorem lastVersion_excerpt {version : Int} {decls : List Decl}
    (inhabited : excerpt version decls ≠ []) : lastVersion (excerpt version decls) = 1 := by
  rw [lastVersion, mentioned_excerpt, List.isEmpty_eq_false_iff.mpr inhabited]
  rfl

theorem layouts_excerpt {version : Int} {decls : List Decl}
    (inhabited : excerpt version decls ≠ []) :
    History.layouts (excerpt version decls) = [History.layout 1 (excerpt version decls)] := by
  rw [History.layouts, lastVersion_excerpt inhabited]
  rfl

namespace Compiled

theorem snapshot?_eq_ok_iff {decls : List Decl} {version : Int} {s : Snapshot} :
    snapshot? ⟨decls, History.layouts decls⟩ version = .ok s ↔
      1 ≤ version ∧ version ≤ lastVersion decls ∧ History.layout version decls = s := by
  unfold snapshot?
  by_cases first : version < 1
  · simp [first]
  · have number : (((version - 1).toNat : Nat) : Int) + 1 = version := by omega
    simp only [if_neg first, History.layouts, List.getElem?_map]
    by_cases last : version ≤ lastVersion decls
    · rw [List.getElem?_range (by omega)]
      simp only [Option.map_some, number, Except.ok.injEq, last, not_lt.mp first, true_and]
      rfl
    · rw [List.getElem?_eq_none (by simp; omega)]
      simp [last]

/-- The excerpt for a version of a compiled schema compiles to that one version and shows the same
types. -/
theorem excerpt_compiles {limit : Int} {decls : List Decl} {c : Compiled} {version : Int}
    {s : Snapshot} (compiled : ofDeclarations limit decls = .ok c)
    (found : c.snapshot? version = .ok s) (other : Int) :
    ∃ types only, ofDeclarations other (excerpt version decls) =
        .ok ⟨excerpt version decls, [only]⟩ ∧
      s.exported c.decls = .ok (.obj [("version", .int version), ("types", .arr types)]) ∧
      only.exported (excerpt version decls) =
        .ok (.obj [("version", .int 1), ("types", .arr types)]) := by
  obtain ⟨accepted, passes, rfl⟩ := ofDeclarations_eq_ok_iff.mp compiled
  obtain ⟨first, last, rfl⟩ := snapshot?_eq_ok_iff.mp found
  have own := passes version first last
  have again : excerpt 1 (excerpt version decls) = excerpt version decls :=
    excerpt_excerpt (le_refl 1) decls
  refine ⟨(excerpt version decls).map Decl.shown, History.layout 1 (excerpt version decls),
    ?_, ?_, ?_⟩
  · refine ofDeclarations_eq_ok_iff.mpr ⟨accepted.excerpt version other, ?_, ?_⟩
    · rw [lastVersion_excerpt own.inhabited]
      intro only lower upper
      obtain rfl : only = 1 := le_antisymm upper lower
      rw [again]
      exact own.alone
    · rw [layouts_excerpt own.inhabited]
  · rw [Snapshot.exported_layout, if_pos own.exportable]
  · rw [Snapshot.exported_layout, again, if_pos own.exportable]

theorem excerpt_compiles_orders :
    ∃ types only, ofDeclarations 1 (excerpt 3 History.orders) =
        .ok ⟨excerpt 3 History.orders, [only]⟩ ∧
      Snapshot.exported History.orders ⟨3, [⟨0, [.plain 0, .plain 2]⟩, ⟨1, [.struct 0 [0, 1]]⟩]⟩ =
        .ok (.obj [("version", .int 3), ("types", .arr types)]) ∧
      only.exported (excerpt 3 History.orders) =
        .ok (.obj [("version", .int 1), ("types", .arr types)]) := by
  have compiled : ofDeclarations 1024 History.orders =
      .ok ⟨History.orders, History.ordersSnapshots⟩ := rfl
  exact excerpt_compiles compiled rfl 1

end Compiled
end SchemaHistory
