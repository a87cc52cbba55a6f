import SchemaHistory.Proofs.Compiled.Coherence

/-! # Well-formed schemas

A schema with versions is well-formed when its headers are accepted, no enum mixes styles, and the
excerpt for every version up to the last one is coherent.  The walk knows nothing of versions when
it compares names, but for siblings in one container its rule comes to the same (`apart_iff_names`),
and compilation accepts the well-formed schemas and no others (`Compiled.accepts_iff_wellFormed`).
-/
set_option autoImplicit false
namespace SchemaHistory

/-- A schema with versions up to `limit` that makes sense in each of them. -/
structure WellFormed (limit : Int) (decls : List Decl) : Prop where
  resolves : ∀ item ∈ items decls, item.Resolves
  within : ∀ m ∈ mentioned decls, m ≤ limit
  unmixed : ∀ d ∈ decls, Style.Unmixed d.variants
  coherent : ∀ version : Int, 1 ≤ version → version ≤ lastVersion decls →
    Coherent (excerpt version decls)

/-! ## Text names in excerpts -/

section
variable {version : Int}

theorem Field.text_excerpts {l : Lifetime} {fs : List Field}
    (texts : ∀ f ∈ fs, f.name.isText = true) :
    ∀ f ∈ Field.excerpts version l fs, f.name.isText = true := by
  intro f member
  obtain ⟨g, inside, -, rfl⟩ := Field.mem_excerpts.mp member
  exact texts g inside

theorem Field.types_excerpts {l : Lifetime} {fs : List Field} {t : TypeExpr}
    (member : t ∈ (Field.excerpts version l fs).map Field.type) : t ∈ fs.map Field.type := by
  obtain ⟨f, inside, rfl⟩ := List.mem_map.mp member
  obtain ⟨g, own, -, rfl⟩ := Field.mem_excerpts.mp inside
  exact List.mem_map.mpr ⟨g, own, rfl⟩

theorem Variant.expressions_excerpt {l : Lifetime} {v : Variant} {t : TypeExpr}
    (member : t ∈ (v.excerpt version l).expressions) : t ∈ v.expressions := by
  obtain ⟨name, payload, header, position⟩ := v
  cases payload with
  | struct fs => exact Field.types_excerpts member
  | unit => exact member
  | int discriminant => exact member
  | tuple ts => exact member

theorem Decl.expressions_excerpt {d : Decl} {t : TypeExpr}
    (member : t ∈ (d.excerpt version).expressions) : t ∈ d.expressions := by
  rw [Decl.expressions, Decl.excerpt_fields, Decl.excerpt_variants] at member
  rcases List.mem_append.mp member with field | variant
  · exact List.mem_append_left _ (Field.types_excerpts field)
  · obtain ⟨w, listed, inside⟩ := List.mem_flatMap.mp variant
    obtain ⟨v, own, -, rfl⟩ := Variant.mem_excerpts.mp listed
    have carried := Variant.expressions_excerpt inside
    exact List.mem_append_right _ (List.mem_flatMap.mpr ⟨v, own, carried⟩)

theorem HasTextNames.excerpt {decls : List Decl} (texts : HasTextNames decls) :
    HasTextNames (excerpt version decls) := by
  intro e member
  obtain ⟨d, listed, -, rfl⟩ := mem_excerpt.mp member
  have own := texts d listed
  refine ⟨own.own, ?_, ?_, ?_, fun t member => own.used t (Decl.expressions_excerpt member)⟩
  · rw [Decl.excerpt_fields]
    exact Field.text_excerpts own.fields
  · rw [Decl.excerpt_variants]
    intro w member
    obtain ⟨v, inside, -, rfl⟩ := Variant.mem_excerpts.mp member
    exact own.variants v inside
  · rw [Decl.excerpt_variants]
    intro w member
    obtain ⟨v, inside, -, rfl⟩ := Variant.mem_excerpts.mp member
    rw [Variant.excerpt_fields]
    exact Field.text_excerpts (own.inner v inside)

end

/-! ## Names among siblings -/

theorem unlike_iff_nodup {names : List Json} (texts : ∀ name ∈ names, name.isText = true) :
    Siblings.Unlike names ↔ names.Nodup := by
  apply List.Pairwise.iff_of_mem
  intro a b inA inB
  exact Json.equals_eq_false_iff (texts a inA) (texts b inB)

/-- The rule on names among siblings of one container, version by version. -/
theorem apart_iff_names (container : Lifetime) {last : Int} {siblings : List Sibling}
    (texts : ∀ s ∈ siblings, s.name.isText = true) (home : ∀ s ∈ siblings, s.AtHome container)
    (added : ∀ s ∈ siblings, s.lifetime.added ≤ last) :
    Siblings.Apart siblings ↔ ∀ version : Int, 1 ≤ version → version ≤ last →
      (Siblings.livingNames version siblings).Nodup := by
  have living : ∀ version, ∀ name ∈ Siblings.livingNames version siblings, name.isText = true := by
    intro version name member
    obtain ⟨s, inside, rfl⟩ := List.mem_map.mp member
    exact texts s (List.mem_of_mem_filter inside)
  constructor
  · intro apart version _ _
    exact (unlike_iff_nodup (living version)).mp (apart.unlike version)
  · intro names
    apply Siblings.apart_of_unlike home added
    intro version first final
    exact (unlike_iff_nodup (living version)).mpr (names version first final)

/-! ## The walk, version by version -/

def Lifetime.StartsBy (last : Int) (l : Lifetime) : Prop := l.Proper ∧ l.added ≤ last

theorem startsBy_of_resolves {decls : List Decl} (resolves : ∀ item ∈ items decls, item.Resolves) :
    ∀ d ∈ decls, d.lifetime.StartsBy (lastVersion decls) ∧
      (∀ f ∈ d.fields, (f.lifetime d.lifetime).StartsBy (lastVersion decls)) ∧
      ∀ v ∈ d.variants, (v.lifetime d.lifetime).StartsBy (lastVersion decls) ∧
        ∀ f ∈ v.payload.fields,
          (f.lifetime (v.lifetime d.lifetime)).StartsBy (lastVersion decls) := by
  apply (forall_items_iff (P := fun header container =>
    (Lifetime.ofHeader header container).StartsBy (lastVersion decls))).mp
  intro item member
  have inhabited : decls ≠ [] := by
    rintro rfl
    cases member
  have first := one_le_lastVersion resolves inhabited
  have proper := (proper_of_resolves resolves item member).2
  have reach := (reach_le_of_mentioned resolves _ first
    (fun _ => mentioned_le_lastVersion) item member).2
  exact ⟨proper, le_trans (Lifetime.added_le_reach proper) reach⟩

theorem Sibling.atHome_ofHeader {container : Lifetime} {header : Option Header} {name : Json}
    {position : Option Position} (proper : (Lifetime.ofHeader header (some container)).Proper) :
    AtHome container ⟨name, header.isSome, .ofHeader header (some container), position⟩ := by
  refine ⟨proper, Lifetime.ofHeader_subset header container, ?_⟩
  intro bare
  cases header with
  | none => rfl
  | some h => cases bare

section
variable {last : Int} {container : Lifetime}

theorem apart_fields_iff {fs : List Field} (texts : ∀ f ∈ fs, f.name.isText = true)
    (starts : ∀ f ∈ fs, (f.lifetime container).StartsBy last) :
    Siblings.Apart (Walk.fieldSiblings container fs) ↔
      ∀ version : Int, 1 ≤ version → version ≤ last →
        ((Field.excerpts version container fs).map Field.name).Nodup := by
  simp only [← Walk.livingNames_fields]
  apply apart_iff_names container
  · exact List.forall_mem_map.mpr texts
  · exact List.forall_mem_map.mpr fun f member => Sibling.atHome_ofHeader (starts f member).1
  · exact List.forall_mem_map.mpr fun f member => (starts f member).2

theorem apart_variants_iff {vs : List Variant} (texts : ∀ v ∈ vs, v.name.isText = true)
    (starts : ∀ v ∈ vs, (v.lifetime container).StartsBy last) :
    Siblings.Apart (Walk.variantSiblings container vs) ↔
      ∀ version : Int, 1 ≤ version → version ≤ last →
        ((Variant.excerpts version container vs).map Variant.name).Nodup := by
  simp only [← Walk.livingNames_variants]
  apply apart_iff_names container
  · exact List.forall_mem_map.mpr texts
  · exact List.forall_mem_map.mpr fun v member => Sibling.atHome_ofHeader (starts v member).1
  · exact List.forall_mem_map.mpr fun v member => (starts v member).2

theorem apart_types_iff {decls : List Decl} (texts : ∀ d ∈ decls, d.name.isText = true)
    (starts : ∀ d ∈ decls, d.lifetime.StartsBy last) :
    Siblings.Apart (Walk.typeSiblings decls) ↔
      ∀ version : Int, 1 ≤ version → version ≤ last →
        ((excerpt version decls).map Decl.name).Nodup := by
  simp only [← Walk.livingNames_types]
  apply apart_iff_names .unbounded
  · exact List.forall_mem_map.mpr texts
  · intro s member
    obtain ⟨d, listed, rfl⟩ := List.mem_map.mp member
    have proper := (starts d listed).1
    rw [Decl.lifetime, Lifetime.ofHeader_top] at proper
    rw [Walk.ofDecl, Decl.lifetime, Lifetime.ofHeader_top]
    exact Sibling.atHome_ofHeader proper
  · exact List.forall_mem_map.mpr fun d member => (starts d member).2

end

theorem style_isOk_iff {d : Decl} :
    (∃ s, d.variants.foldlM (Style.step d.name) none = .ok s) ↔ Style.Unmixed d.variants := by
  rw [Style.stepAll_isOk_iff, ← Style.uniform_iff]
  rfl

structure Decl.DistinctIn (version : Int) (d : Decl) : Prop where
  fields : ((Field.excerpts version d.lifetime d.fields).map Field.name).Nodup
  variants : ((Variant.excerpts version d.lifetime d.variants).map Variant.name).Nodup
  inner : ∀ v ∈ d.variants,
    ((Field.excerpts version (v.lifetime d.lifetime) v.payload.fields).map Field.name).Nodup

/-- What the walk asks of a declaration, version by version. -/
theorem membersAccepted_iff {last : Int} {d : Decl} (texts : d.HasTextNames)
    (fields : ∀ f ∈ d.fields, (f.lifetime d.lifetime).StartsBy last)
    (variants : ∀ v ∈ d.variants, (v.lifetime d.lifetime).StartsBy last)
    (inner : ∀ v ∈ d.variants, ∀ f ∈ v.payload.fields,
      (f.lifetime (v.lifetime d.lifetime)).StartsBy last) :
    Walk.MembersAccepted d ↔ Style.Unmixed d.variants ∧
      ∀ version : Int, 1 ≤ version → version ≤ last → d.DistinctIn version := by
  have fieldsIff := apart_fields_iff texts.fields fields
  have variantsIff := apart_variants_iff texts.variants variants
  have innerIff := fun v member => apart_fields_iff (texts.inner v member) (inner v member)
  constructor
  · intro accepted
    refine ⟨style_isOk_iff.mp accepted.style, fun version first final => ⟨?_, ?_, ?_⟩⟩
    · exact fieldsIff.mp accepted.fields version first final
    · exact variantsIff.mp accepted.variants version first final
    · exact fun v member => (innerIff v member).mp (accepted.inner v member) version first final
  · intro accepted
    rcases accepted with ⟨unmixed, names⟩
    refine ⟨style_isOk_iff.mpr unmixed, ?_, ?_, ?_⟩
    · exact fieldsIff.mpr fun version first final => (names version first final).fields
    · exact variantsIff.mpr fun version first final => (names version first final).variants
    · intro v member
      exact (innerIff v member).mpr fun version first final =>
        (names version first final).inner v member

theorem Decl.distinctIn_of_coherent {version : Int} {d : Decl}
    (coherent : version ∈ d.lifetime → (d.excerpt version).Coherent) : d.DistinctIn version := by
  by_cases inside : version ∈ d.lifetime
  · have own := coherent inside
    refine ⟨?_, ?_, ?_⟩
    · rw [← Decl.excerpt_fields]
      exact own.fields
    · rw [← Decl.excerpt_variants]
      exact own.variants
    · intro v member
      by_cases living : version ∈ v.lifetime d.lifetime
      · have listed : v.excerpt version d.lifetime ∈ (d.excerpt version).variants := by
          rw [Decl.excerpt_variants]
          exact Variant.mem_excerpts.mpr ⟨v, member, living, rfl⟩
        rw [← Variant.excerpt_fields]
        exact own.inner _ listed
      · rw [Field.excerpts_eq_nil living]
        exact List.nodup_nil
  · refine ⟨?_, ?_, ?_⟩
    · rw [Field.excerpts_eq_nil inside]
      exact List.nodup_nil
    · rw [Variant.excerpts_eq_nil inside]
      exact List.nodup_nil
    · intro v _
      have gone : version ∉ v.lifetime d.lifetime :=
        fun living => inside (Lifetime.ofHeader_subset _ _ version living)
      rw [Field.excerpts_eq_nil gone]
      exact List.nodup_nil

/-! ## Compilation -/

theorem Decl.DistinctIn.coherent {version : Int} {d : Decl} (distinct : d.DistinctIn version)
    (ordered : Numbering.Ordered (d.excerpt version).variants) : (d.excerpt version).Coherent := by
  refine ⟨?_, ?_, ?_, ordered⟩
  · rw [Decl.excerpt_fields]
    exact distinct.fields
  · rw [Decl.excerpt_variants]
    exact distinct.variants
  · rw [Decl.excerpt_variants]
    intro w member
    obtain ⟨v, listed, -, rfl⟩ := Variant.mem_excerpts.mp member
    rw [Variant.excerpt_fields]
    exact distinct.inner v listed

namespace Decl.HasTextNames
variable {d : Decl} (texts : d.HasTextNames)
include texts

theorem field_isWritable {f : Field} (member : f ∈ d.fields) : f.type.isWritable = true := by
  apply TypeExpr.isWritable_of_texts
  exact texts.used _ (List.mem_append_left _ (List.mem_map_of_mem member))

theorem carried {v : Variant} (member : v ∈ d.variants) : ∀ t ∈ v.expressions, t.HasTextNames :=
  fun t inside => texts.used t (List.mem_append_right _ (List.mem_flatMap.mpr ⟨v, member, inside⟩))

theorem inner_isWritable {v : Variant} {f : Field} (member : v ∈ d.variants)
    (inside : f ∈ v.payload.fields) : f.type.isWritable = true := by
  apply TypeExpr.isWritable_of_texts
  apply texts.carried member
  unfold Variant.expressions
  cases payload : v.payload with
  | struct fs =>
      rw [payload] at inside
      exact List.mem_map_of_mem inside
  | unit => simp [payload, Payload.fields] at inside
  | int discriminant => simp [payload, Payload.fields] at inside
  | tuple ts => simp [payload, Payload.fields] at inside

theorem variant_isWritable {v : Variant} (member : v ∈ d.variants) : v.isWritable = true := by
  have carried := texts.carried member
  have inner := fun f => texts.inner_isWritable (f := f) member
  unfold Variant.expressions at carried
  unfold Variant.isWritable
  cases payload : v.payload with
  | unit => rfl
  | int discriminant => rfl
  | tuple ts =>
      rw [payload] at carried
      apply TypeExpr.areJoinable_of_texts
      rw [TypeExpr.namesOfAll_eq_flatMap, List.forall_mem_flatMap]
      exact carried
  | struct fs =>
      rw [payload] at inner
      exact List.all_eq_true.mpr inner

theorem variant_isExportable {v : Variant} (member : v ∈ d.variants) : v.isExportable = true := by
  have carried := texts.carried member
  have inner := fun f => texts.inner_isWritable (f := f) member
  unfold Variant.expressions at carried
  unfold Variant.isExportable
  cases payload : v.payload with
  | unit => rfl
  | int discriminant => rfl
  | tuple ts =>
      rw [payload] at carried
      exact List.all_eq_true.mpr fun t inside => TypeExpr.isWritable_of_texts t (carried t inside)
  | struct fs =>
      rw [payload] at inner
      exact List.all_eq_true.mpr inner

theorem isExportable : d.isExportable = true := by
  obtain ⟨name, body, header, position⟩ := d
  cases body with
  | record node fs => exact List.all_eq_true.mpr fun f member => texts.field_isWritable member
  | enum vs => exact List.all_eq_true.mpr fun v member => texts.variant_isExportable member

end Decl.HasTextNames

/-- With text names and distinct types, a version passes when it has a type, its discriminants are
in order and its references hold. -/
theorem passes_iff {version : Int} {schema : List Decl} (texts : HasTextNames schema)
    (types : (schema.map Decl.name).Nodup) :
    Passes version schema ↔ schema ≠ [] ∧ (∀ d ∈ schema, Numbering.Ordered d.variants) ∧
      ∀ d ∈ schema, ∀ t ∈ d.expressions, ∀ o ∈ t.occurrences,
        TypeExpr.WellPlaced (Declares schema) o.1 o.2 := by
  rw [← resolve_plainFacts_iff texts types, ← resolve_facts_iff version]
  constructor
  · exact fun passes => ⟨passes.inhabited, passes.resolve⟩
  · intro coherent
    rcases coherent with ⟨inhabited, resolve⟩
    refine ⟨inhabited, resolve, ?_⟩
    exact List.all_eq_true.mpr fun d member => (texts d member).isExportable

section
variable {limit : Int} {decls : List Decl} (texts : HasTextNames decls)
  (resolves : ∀ item ∈ items decls, item.Resolves)
include texts resolves

theorem apart_iff_of_resolves :
    Siblings.Apart (Walk.typeSiblings decls) ↔
      ∀ version : Int, 1 ≤ version → version ≤ lastVersion decls →
        ((excerpt version decls).map Decl.name).Nodup := by
  have starts := startsBy_of_resolves resolves
  exact apart_types_iff (fun d member => (texts d member).own) fun d member => (starts d member).1

theorem membersAccepted_iff_of_resolves {d : Decl} (member : d ∈ decls) :
    Walk.MembersAccepted d ↔ Style.Unmixed d.variants ∧
      ∀ version : Int, 1 ≤ version → version ≤ lastVersion decls → d.DistinctIn version := by
  obtain ⟨-, fields, variants⟩ := startsBy_of_resolves resolves d member
  exact membersAccepted_iff (texts d member) fields (fun v listed => (variants v listed).1)
    fun v listed => (variants v listed).2

end

namespace Compiled
variable {limit : Int} {decls : List Decl}

theorem wellFormed_of_compiled (texts : HasTextNames decls) {c : Compiled}
    (compiled : ofDeclarations limit decls = .ok c) : WellFormed limit decls := by
  obtain ⟨accepted, passes, -⟩ := ofDeclarations_eq_ok_iff.mp compiled
  obtain ⟨resolves, within⟩ := resolvesWithin_all_iff.mp accepted.resolves
  have members := fun d member =>
    (membersAccepted_iff_of_resolves texts resolves member).mp (accepted.members d member)
  refine ⟨resolves, within, fun d member => (members d member).1, ?_⟩
  intro version first last
  have types := (apart_iff_of_resolves texts resolves).mp accepted.apart version first last
  obtain ⟨inhabited, ordered, references⟩ :=
    (passes_iff texts.excerpt types).mp (passes version first last)
  refine ⟨inhabited, types, ?_, references⟩
  intro e member
  have own := ordered e member
  obtain ⟨d, listed, -, rfl⟩ := mem_excerpt.mp member
  exact ((members d listed).2 version first last).coherent own

theorem compiled_of_wellFormed (texts : HasTextNames decls) (wellFormed : WellFormed limit decls) :
    ∃ c, ofDeclarations limit decls = .ok c := by
  have resolves := wellFormed.resolves
  refine ⟨_, ofDeclarations_eq_ok_iff.mpr ⟨⟨?_, ?_, ?_⟩, ?_, rfl⟩⟩
  · exact resolvesWithin_all_iff.mpr ⟨resolves, wellFormed.within⟩
  · apply (apart_iff_of_resolves texts resolves).mpr
    exact fun version first last => (wellFormed.coherent version first last).types
  · intro d member
    apply (membersAccepted_iff_of_resolves texts resolves member).mpr
    refine ⟨wellFormed.unmixed d member, fun version first last => ?_⟩
    apply Decl.distinctIn_of_coherent
    intro inside
    have coherent := wellFormed.coherent version first last
    exact coherent.members _ (mem_excerpt.mpr ⟨d, member, inside, rfl⟩)
  · intro version first last
    have coherent := wellFormed.coherent version first last
    refine (passes_iff texts.excerpt coherent.types).mpr
      ⟨coherent.inhabited, ?_, coherent.references⟩
    exact fun d member => (coherent.members d member).ordered

/-- Compilation accepts exactly the well-formed schemas. -/
theorem accepts_iff_wellFormed (limit : Int) (texts : HasTextNames decls) :
    (∃ c, ofDeclarations limit decls = .ok c) ↔ WellFormed limit decls := by
  constructor
  · intro accepted
    rcases accepted with ⟨c, compiled⟩
    exact wellFormed_of_compiled texts compiled
  · exact compiled_of_wellFormed texts

theorem wellFormed_orders :
    HasTextNames History.orders ∧ WellFormed 3 History.orders ∧ ¬WellFormed 2 History.orders := by
  have texts : HasTextNames History.orders := by decide
  have compiled : ∃ c, ofDeclarations 3 History.orders = .ok c := ⟨_, rfl⟩
  have beyond : ¬∃ c, ofDeclarations 2 History.orders = .ok c := by
    intro accepted
    rcases accepted with ⟨c, compiled⟩
    cases compiled
  exact ⟨texts, (accepts_iff_wellFormed 3 texts).mp compiled,
    fun wellFormed => beyond ((accepts_iff_wellFormed 2 texts).mpr wellFormed)⟩

end Compiled
end SchemaHistory
