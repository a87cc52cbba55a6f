import SchemaHistory.Proofs.Excerpt.Snapshot
import SchemaHistory.Proofs.History.Exactness
import SchemaHistory.Proofs.References.Verdict

/-! # When a schema compiles

A schema compiles when the walk accepts it and the excerpt for every version up to the last one
passes: it is not empty, its references hold, and it can be written.  The compiled schema then has
the layouts of these versions as its snapshots (`ofDeclarations_eq_ok_iff`). -/
set_option autoImplicit false
namespace SchemaHistory

structure Passes (version : Int) (schema : List Decl) : Prop where
  inhabited : schema ≠ []
  resolve : References.Resolve (schema.flatMap (Decl.facts version))
  exportable : schema.all Decl.isExportable = true

/-- With discriminants in order the facts of a schema do not depend on the version. -/
theorem plainFacts_of_ordered {version : Int} {schema : List Decl}
    (ordered : ∀ d ∈ schema, Numbering.Ordered d.variants) :
    schema.flatMap (Decl.facts version) = schema.flatMap Decl.plainFacts := by
  rw [List.flatMap_def, List.flatMap_def]
  exact congrArg List.flatten
    (List.map_congr_left fun d member => Decl.facts_of_ordered (ordered d member))

theorem ordered_of_run {version : Int} {schema : List Decl} {names : References.Names}
    (run : References.stepAll [] (schema.flatMap (Decl.facts version)) = .ok names) :
    ∀ d ∈ schema, Numbering.Ordered d.variants := by
  intro d member
  apply Decl.ordered_of_faultless version
  intro r inside
  exact References.faultless_of_run run r (List.mem_flatMap.mpr ⟨d, member, inside⟩)

/-- The facts of a schema resolve in all versions alike, namely if all discriminants are in order
and the facts that are left do. -/
theorem resolve_facts_iff (version : Int) {schema : List Decl} :
    References.Resolve (schema.flatMap (Decl.facts version)) ↔
      (∀ d ∈ schema, Numbering.Ordered d.variants) ∧
        References.Resolve (schema.flatMap Decl.plainFacts) := by
  constructor
  · intro resolve
    have ordered : ∀ d ∈ schema, Numbering.Ordered d.variants := by
      obtain ⟨names, run, -⟩ := resolve
      exact ordered_of_run run
    exact ⟨ordered, plainFacts_of_ordered ordered ▸ resolve⟩
  · intro coherent
    rcases coherent with ⟨ordered, resolve⟩
    exact plainFacts_of_ordered ordered ▸ resolve

namespace Walk
variable {version : Int}

/-! ## The living siblings are those of the excerpt -/

theorem livingNames_fields (container : Lifetime) (fs : List Field) :
    Siblings.livingNames version (fieldSiblings container fs) =
      (Field.excerpts version container fs).map Field.name := by
  rw [Siblings.livingNames, fieldSiblings, List.filter_map, List.map_map, Field.excerpts,
    List.map_map]
  rfl

theorem livingNames_variants (container : Lifetime) (vs : List Variant) :
    Siblings.livingNames version (variantSiblings container vs) =
      (Variant.excerpts version container vs).map Variant.name := by
  rw [Siblings.livingNames, variantSiblings, List.filter_map, List.map_map, Variant.excerpts,
    List.map_map]
  rfl

theorem livingNames_types (decls : List Decl) :
    Siblings.livingNames version (typeSiblings decls) = (excerpt version decls).map Decl.name := by
  rw [Siblings.livingNames, typeSiblings, List.filter_map, List.map_map, excerpt, List.map_map]
  rfl

end Walk

/-! ## Compilation -/

def versionsOf (decls : List Decl) : List Int :=
  (List.range (lastVersion decls).toNat).map fun i : Nat => (i : Int) + 1

theorem mem_versionsOf {decls : List Decl} {version : Int} :
    version ∈ versionsOf decls ↔ 1 ≤ version ∧ version ≤ lastVersion decls := by
  simp only [versionsOf, List.mem_map, List.mem_range]
  constructor
  · intro listed
    obtain ⟨i, before, rfl⟩ := listed
    omega
  · intro bounds
    exact ⟨(version - 1).toNat, by omega, by omega⟩

namespace History

theorem layouts_eq_map (decls : List Decl) :
    layouts decls = (versionsOf decls).map fun version => layout version decls := by
  rw [versionsOf, List.map_map]
  rfl

theorem mem_layouts_iff {decls : List Decl} {s : Snapshot} :
    s ∈ layouts decls ↔
      ∃ version : Int, 1 ≤ version ∧ version ≤ lastVersion decls ∧ layout version decls = s := by
  simp only [layouts_eq_map, List.mem_map, mem_versionsOf, and_assoc]

end History

namespace Compiled

theorem checkSnapshot_layout_iff {version : Int} {decls : List Decl} {u : Unit} :
    checkSnapshot decls (History.layout version decls) = .ok u ↔
      excerpt version decls ≠ [] ∧
        References.Resolve ((excerpt version decls).flatMap (Decl.facts version)) := by
  unfold checkSnapshot
  rw [History.isEmpty_layout]
  cases empty : (excerpt version decls).isEmpty with
  | true => simp [List.isEmpty_iff.mp empty]
  | false =>
      have inhabited : excerpt version decls ≠ [] := List.isEmpty_eq_false_iff.mp empty
      simp only [Bool.false_eq_true, if_false, References.check_eq_ok_iff, Fact.facts_layout]
      exact (and_iff_right inhabited).symm

theorem checkSnapshots_eq_ok_iff {decls : List Decl} {snapshots : List Snapshot} {u : Unit} :
    checkSnapshots decls snapshots = .ok u ↔
      ∀ s ∈ snapshots, checkSnapshot decls s = .ok () := by
  induction snapshots with
  | nil => simp [checkSnapshots]
  | cons s rest ih =>
      simp only [checkSnapshots, bind_eq_ok_iff, ih, List.forall_mem_cons]
      constructor
      · intro passed
        obtain ⟨_, own, later⟩ := passed
        exact ⟨own, later⟩
      · intro passed
        exact ⟨(), passed.1, passed.2⟩

theorem isExportable_iff {decls : List Decl} :
    isExportable ⟨decls, History.layouts decls⟩ = true ↔
      ∀ version : Int, 1 ≤ version → version ≤ lastVersion decls →
        (excerpt version decls).all Decl.isExportable = true := by
  simp only [isExportable, List.all_eq_true, Bool.and_eq_true]
  constructor
  · intro all version first last
    have writable := (all _ (History.mem_layouts_iff.mpr ⟨version, first, last, rfl⟩)).2
    rw [Snapshot.isWritable_layout] at writable
    exact List.all_eq_true.mp writable
  · intro all s member
    obtain ⟨version, first, last, rfl⟩ := History.mem_layouts_iff.mp member
    refine ⟨Snapshot.fits_layout version decls, ?_⟩
    rw [Snapshot.isWritable_layout]
    exact List.all_eq_true.mpr (all version first last)

/-- A schema compiles when the walk accepts it and every version of it passes. -/
theorem ofDeclarations_eq_ok_iff {limit : Int} {decls : List Decl} {c : Compiled} :
    ofDeclarations limit decls = .ok c ↔
      Accepted limit decls ∧
      (∀ version : Int, 1 ≤ version → version ≤ lastVersion decls →
        Passes version (excerpt version decls)) ∧
      ⟨decls, History.layouts decls⟩ = c := by
  have built : ∀ snapshots, (History.ofDeclarations limit decls).mapError Rejection.diagnostic =
      .ok snapshots ↔ History.ofDeclarations limit decls = .ok snapshots := by
    intro snapshots
    cases History.ofDeclarations limit decls <;> simp [Except.mapError]
  simp only [ofDeclarations, bind_eq_ok_iff, built, History.ofDeclarations_eq_ok_iff,
    checkSnapshots_eq_ok_iff]
  constructor
  · intro compiled
    rcases compiled with ⟨snapshots, ⟨accepted, rfl⟩, -, checked, result⟩
    split_ifs at result with exportable
    cases result
    refine ⟨accepted, ?_, rfl⟩
    intro version first last
    have own := checked _ (History.mem_layouts_iff.mpr ⟨version, first, last, rfl⟩)
    obtain ⟨inhabited, resolve⟩ := checkSnapshot_layout_iff.mp own
    exact ⟨inhabited, resolve, isExportable_iff.mp exportable version first last⟩
  · intro passed
    rcases passed with ⟨accepted, passes, rfl⟩
    have checked : ∀ s ∈ History.layouts decls, checkSnapshot decls s = .ok () := by
      intro s member
      obtain ⟨version, first, last, rfl⟩ := History.mem_layouts_iff.mp member
      have own := passes version first last
      exact checkSnapshot_layout_iff.mpr ⟨own.inhabited, own.resolve⟩
    have exportable := isExportable_iff.mpr fun version first last =>
      (passes version first last).exportable
    exact ⟨_, ⟨accepted, rfl⟩, (), checked, if_pos exportable⟩

end Compiled
end SchemaHistory
