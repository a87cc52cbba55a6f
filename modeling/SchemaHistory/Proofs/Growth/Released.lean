import SchemaHistory.Proofs.Growth.Edits
import SchemaHistory.Proofs.Upgrade.Verdict

/-! # Growth leaves the released versions alone

An edited schema has the same excerpts as before for all versions up to the last released one
(`excerpt_growth`), so these versions show the same types.  An upgrade between two of them is safe
after the edits exactly when it was before, since every old item stays where it was and no new one
lives in them (`covers_growth`).  For compiled schemas the two give
`Compiled.growth_keeps_released`. -/
set_option autoImplicit false
namespace SchemaHistory

/-! ## Accepted headers give what they ask for -/

namespace Field

def Asked (container : Lifetime) (f : Field) : Prop :=
  f.lifetime container = Lifetime.requested f.header container

end Field

namespace Variant

structure Asked (container : Lifetime) (v : Variant) : Prop where
  own : v.lifetime container = Lifetime.requested v.header container
  fields : ∀ f ∈ v.payload.fields, f.Asked (v.lifetime container)

end Variant

namespace Decl

structure Asked (d : Decl) : Prop where
  own : d.lifetime = Lifetime.requested d.header .unbounded
  fields : ∀ f ∈ d.fields, f.Asked d.lifetime
  variants : ∀ v ∈ d.variants, v.Asked d.lifetime

end Decl

theorem asked_of_resolves {decls : List Decl} (resolves : ∀ item ∈ items decls, item.Resolves) :
    ∀ d ∈ decls, d.Asked := by
  have each := (forall_items_iff (P := fun header container =>
    Lifetime.ofHeader header container =
      Lifetime.requested header (container.getD .unbounded))).mp (by
    intro item member
    have home := (proper_of_resolves resolves item member).1
    exact ((Lifetime.resolve_eq_ok_iff home).mp (Item.resolve_home (resolves item member))).1)
  intro d member
  obtain ⟨own, fields, variants⟩ := each d member
  exact ⟨own, fields, fun v listed => ⟨(variants v listed).1, (variants v listed).2⟩⟩

section
variable {last version : Int} {container other : Lifetime}

/-! ## Fields -/

theorem FieldEdit.agrees {f g : Field} (edit : FieldEdit last container f g)
    (outer : container.AgreesUntil last other) (asked : f.Asked container) (again : g.Asked other) :
    (f.lifetime container).AgreesUntil last (g.lifetime other) := by
  have header := edit.1
  rw [asked] at header ⊢
  rw [again]
  exact header.agrees outer

theorem FieldsGrowth.refl (last : Int) (container : Lifetime) (fs : List Field) :
    FieldsGrowth last container fs fs :=
  Grown.refl (fun _ => ⟨.same, rfl⟩) fs

section
variable {fs gs : List Field} (growth : FieldsGrowth last container fs gs)
  (outer : container.AgreesUntil last other) (asked : ∀ f ∈ fs, f.Asked container)
  (again : ∀ g ∈ gs, g.Asked other)
include growth outer asked again

theorem FieldsGrowth.excerpts_eq (released : version ≤ last) :
    Field.excerpts version other gs = Field.excerpts version container fs := by
  apply Grown.map_filter
  apply growth.imp
  · intro f inF g inG edit
    have lives := (edit.agrees outer (asked f inF) (again g inG)).mem_iff released
    have shown : g.bare = f.bare := by
      rw [← edit.2]
      rfl
    exact ⟨by simp only [lives], fun _ => shown⟩
  · intro g _ adds
    exact decide_eq_false (Lifetime.not_mem_of_addsAfter adds released)

theorem FieldsGrowth.stay_iff {a b : Int} (old : a ≤ last) (new : b ≤ last) :
    Upgrade.FieldsStay a b other gs ↔ Upgrade.FieldsStay a b container fs := by
  apply Grown.forall_iff
  apply growth.imp
  · intro f inF g inG edit
    have agrees := edit.agrees outer (asked f inF) (again g inG)
    rw [agrees.mem_iff old, agrees.mem_iff new]
  · intro g _ adds lives
    exact absurd lives (Lifetime.not_mem_of_addsAfter adds old)

end

theorem FieldsGrowth.mentioned_subset {fs gs : List Field}
    (growth : FieldsGrowth last container fs gs) (asked : ∀ f ∈ fs, f.Asked container) :
    (fs.flatMap fun f => mentionedBy f.header) ⊆ gs.flatMap fun f => mentionedBy f.header := by
  apply Grown.flatMap_subset
  refine growth.imp ?_ fun _ _ adds => adds
  intro f inF g _ edit
  have header := edit.1
  rw [asked f inF] at header
  exact header.mentionedBy_subset

/-! ## Variants -/

theorem PayloadEdit.fields {l : Lifetime} {p q : Payload} (edit : PayloadEdit last l p q) :
    FieldsGrowth last l p.fields q.fields := by
  cases edit with
  | same => exact FieldsGrowth.refl last l p.fields
  | struct fields => exact fields

theorem PayloadEdit.excerpt_eq {l m : Lifetime} {p q : Payload} (edit : PayloadEdit last l p q)
    (same : Field.excerpts version m q.fields = Field.excerpts version l p.fields) :
    q.excerpt version m = p.excerpt version l := by
  cases edit with
  | same =>
      cases p with
      | struct fs => exact congrArg Payload.struct same
      | unit => rfl
      | int discriminant => rfl
      | tuple ts => rfl
  | struct fields => exact congrArg Payload.struct same

section
variable {v w : Variant} (edit : VariantEdit last container v w)
  (outer : container.AgreesUntil last other) (asked : v.Asked container) (again : w.Asked other)
include edit outer asked again

theorem VariantEdit.agrees : (v.lifetime container).AgreesUntil last (w.lifetime other) := by
  have header := edit.1
  rw [asked.own] at header ⊢
  rw [again.own]
  exact header.agrees outer

theorem VariantEdit.excerpt_eq (released : version ≤ last) :
    w.excerpt version other = v.excerpt version container := by
  have own := edit.agrees outer asked again
  have inner := edit.2.1.fields.excerpts_eq own asked.fields again.fields released
  have payload := edit.2.1.excerpt_eq inner
  have kept := edit.2.2
  rw [Variant.excerpt, Variant.excerpt, payload, ← kept]

theorem VariantEdit.stays_iff {a b : Int} (old : a ≤ last) (new : b ≤ last) :
    (a ∈ w.lifetime other → b ∈ w.lifetime other ∧
        Upgrade.FieldsStay a b (w.lifetime other) w.payload.fields) ↔
      (a ∈ v.lifetime container → b ∈ v.lifetime container ∧
        Upgrade.FieldsStay a b (v.lifetime container) v.payload.fields) := by
  have own := edit.agrees outer asked again
  have inner := edit.2.1.fields.stay_iff own asked.fields again.fields old new
  rw [own.mem_iff old, own.mem_iff new, inner]

end

section
variable {vs ws : List Variant} (growth : VariantsGrowth last container vs ws)
  (outer : container.AgreesUntil last other) (asked : ∀ v ∈ vs, v.Asked container)
  (again : ∀ w ∈ ws, w.Asked other)
include growth outer asked again

theorem VariantsGrowth.excerpts_eq (released : version ≤ last) :
    Variant.excerpts version other ws = Variant.excerpts version container vs := by
  apply Grown.map_filter
  apply growth.imp
  · intro v inV w inW edit
    have lives := (edit.agrees outer (asked v inV) (again w inW)).mem_iff released
    have shown := edit.excerpt_eq outer (asked v inV) (again w inW) released
    exact ⟨by simp only [lives], fun _ => shown⟩
  · intro w _ adds
    exact decide_eq_false (Lifetime.not_mem_of_addsAfter adds released)

theorem VariantsGrowth.stay_iff {a b : Int} (old : a ≤ last) (new : b ≤ last) :
    Upgrade.VariantsStay a b other ws ↔ Upgrade.VariantsStay a b container vs := by
  apply Grown.forall_iff
  apply growth.imp
  · intro v inV w inW edit
    exact edit.stays_iff outer (asked v inV) (again w inW) old new
  · intro w _ adds lives
    exact absurd lives (Lifetime.not_mem_of_addsAfter adds old)

end

theorem VariantsGrowth.mentioned_subset {vs ws : List Variant}
    (growth : VariantsGrowth last container vs ws) (asked : ∀ v ∈ vs, v.Asked container) :
    (vs.flatMap Variant.mentioned) ⊆ ws.flatMap Variant.mentioned := by
  apply Grown.flatMap_subset
  refine growth.imp ?_ fun _ _ adds => adds
  intro v inV w _ edit
  have header := edit.1
  rw [(asked v inV).own] at header
  exact List.append_subset.mpr
    ⟨List.subset_append_of_subset_left _ header.mentionedBy_subset,
      List.subset_append_of_subset_right _ (edit.2.1.fields.mentioned_subset (asked v inV).fields)⟩

/-! ## Types -/

theorem DeclEdit.fields {d e : Decl} (edit : DeclEdit last d e) :
    FieldsGrowth last d.lifetime d.fields e.fields := by
  obtain ⟨name, body, header, position⟩ := d
  obtain ⟨again, other, changed, place⟩ := e
  obtain ⟨-, bodies, -⟩ := edit
  cases bodies with
  | record node fields => exact fields
  | enum variants => exact .nil

theorem DeclEdit.variants {d e : Decl} (edit : DeclEdit last d e) :
    VariantsGrowth last d.lifetime d.variants e.variants := by
  obtain ⟨name, body, header, position⟩ := d
  obtain ⟨again, other, changed, place⟩ := e
  obtain ⟨-, bodies, -⟩ := edit
  cases bodies with
  | record node fields => exact .nil
  | enum variants => exact variants

/-- The excerpts of a type are the same if those of its members are. -/
theorem DeclEdit.excerpt_eq_of_members {d e : Decl} (edit : DeclEdit last d e)
    (fields : Field.excerpts version e.lifetime e.fields =
      Field.excerpts version d.lifetime d.fields)
    (variants : Variant.excerpts version e.lifetime e.variants =
      Variant.excerpts version d.lifetime d.variants) :
    e.excerpt version = d.excerpt version := by
  obtain ⟨name, body, header, position⟩ := d
  obtain ⟨again, other, changed, place⟩ := e
  obtain ⟨-, bodies, kept⟩ := edit
  cases kept
  cases bodies with
  | record node growth =>
      exact congrArg (fun fs => Decl.mk name (.record node fs) none position) fields
  | enum growth => exact congrArg (fun vs => Decl.mk name (.enum vs) none position) variants

section
variable {d e : Decl} (edit : DeclEdit last d e) (asked : d.Asked) (again : e.Asked)
include edit asked again

theorem DeclEdit.agrees : d.lifetime.AgreesUntil last e.lifetime := by
  have header := edit.1
  rw [asked.own] at header ⊢
  rw [again.own]
  exact header.agrees (Lifetime.AgreesUntil.refl last .unbounded)

theorem DeclEdit.excerpt_eq (released : version ≤ last) :
    e.excerpt version = d.excerpt version := by
  have own := edit.agrees asked again
  apply edit.excerpt_eq_of_members
  · exact edit.fields.excerpts_eq own asked.fields again.fields released
  · exact edit.variants.excerpts_eq own asked.variants again.variants released

theorem DeclEdit.stays_iff {a b : Int} (old : a ≤ last) (new : b ≤ last) :
    Upgrade.Stays a b e ↔ Upgrade.Stays a b d := by
  have own := edit.agrees asked again
  have fields := edit.fields.stay_iff own asked.fields again.fields old new
  have variants := edit.variants.stay_iff own asked.variants again.variants old new
  rw [Upgrade.Stays, Upgrade.Stays, own.mem_iff old, own.mem_iff new, fields, variants]

end

theorem DeclEdit.mentioned_subset {d e : Decl} (edit : DeclEdit last d e) (asked : d.Asked) :
    d.mentioned ⊆ e.mentioned := by
  have header := edit.1
  rw [asked.own] at header
  have own := header.mentionedBy_subset
  have fields := edit.fields.mentioned_subset asked.fields
  have variants := edit.variants.mentioned_subset asked.variants
  intro m member
  simp only [Decl.mentioned, List.mem_append] at member ⊢
  rcases member with (inHeader | inFields) | inVariants
  · exact .inl (.inl (own inHeader))
  · exact .inl (.inr (fields inFields))
  · exact .inr (variants inVariants)

end

/-! ## Schemas -/

section
variable {last version : Int} {decls grown : List Decl} (growth : SchemaGrowth last decls grown)
  (resolves : ∀ item ∈ items decls, item.Resolves) (again : ∀ item ∈ items grown, item.Resolves)
include growth resolves

theorem mentioned_subset_of_growth : mentioned decls ⊆ mentioned grown := by
  apply Grown.flatMap_subset
  refine growth.imp ?_ fun _ _ adds => adds
  intro d inD e _ edit
  exact edit.mentioned_subset (asked_of_resolves resolves d inD)

include again

theorem lastVersion_le_of_growth (inhabited : decls ≠ []) :
    lastVersion decls ≤ lastVersion grown := by
  have stillInhabited : grown ≠ [] := by
    intro empty
    rw [empty] at growth
    cases growth
    exact inhabited rfl
  apply lastVersion_le (one_le_lastVersion again stillInhabited)
  intro m member
  exact mentioned_le_lastVersion (mentioned_subset_of_growth growth resolves member)

/-- A grown schema has the same excerpts for the released versions. -/
theorem excerpt_growth (released : version ≤ last) :
    excerpt version grown = excerpt version decls := by
  apply Grown.map_filter
  apply growth.imp
  · intro d inD e inE edit
    have asked := asked_of_resolves resolves d inD
    have askedAgain := asked_of_resolves again e inE
    have lives := (edit.agrees asked askedAgain).mem_iff released
    have shown := edit.excerpt_eq asked askedAgain released
    exact ⟨by simp only [lives], fun _ => shown⟩
  · intro e _ adds
    exact decide_eq_false (Lifetime.not_mem_of_addsAfter adds released)

theorem covers_growth {a b : Int} (old : a ≤ last) (new : b ≤ last) :
    Upgrade.Covers a b grown ↔ Upgrade.Covers a b decls := by
  rw [Upgrade.covers_iff, Upgrade.covers_iff]
  apply Grown.forall_iff
  apply growth.imp
  · intro d inD e inE edit
    have asked := asked_of_resolves resolves d inD
    have askedAgain := asked_of_resolves again e inE
    exact edit.stays_iff asked askedAgain old new
  · intro e _ adds lives
    exact absurd lives (Lifetime.not_mem_of_addsAfter adds old)

end

/-! ## Compiled schemas -/

namespace Compiled

theorem versions_layouts {decls : List Decl} {version : Int} (first : 1 ≤ version) :
    version ≤ (⟨decls, History.layouts decls⟩ : Compiled).versions ↔
      version ≤ lastVersion decls := by
  simp only [versions, History.layouts, List.length_map, List.length_range]
  omega

theorem le_lastVersion_of_released {decls grown : List Decl} {last version : Int}
    (growth : SchemaGrowth last decls grown) (resolves : ∀ item ∈ items decls, item.Resolves)
    (again : ∀ item ∈ items grown, item.Resolves) (first : 1 ≤ version)
    (released : version ≤ (⟨decls, History.layouts decls⟩ : Compiled).versions) :
    version ≤ lastVersion decls ∧ version ≤ lastVersion grown := by
  have own := (versions_layouts first).mp released
  have inhabited : decls ≠ [] := by
    intro empty
    rw [empty] at own
    exact absurd (le_trans first own) (by decide)
  exact ⟨own, le_trans own (lastVersion_le_of_growth growth resolves again inhabited)⟩

/-- Growing a schema after its last version leaves all of its versions alone: they export the same
data, and the verdicts on the upgrades between them are the same. -/
theorem growth_keeps_released {limit other : Int} {decls grown : List Decl} {c g : Compiled}
    (compiled : ofDeclarations limit decls = .ok c) (growth : SchemaGrowth c.versions decls grown)
    (again : ofDeclarations other grown = .ok g) :
    (∀ version : Int, 1 ≤ version → version ≤ c.versions →
      ∃ s t json, c.snapshot? version = .ok s ∧ g.snapshot? version = .ok t ∧
        s.exported c.decls = .ok json ∧ t.exported g.decls = .ok json) ∧
    (HasTextNames decls → HasTextNames grown →
      ∀ old new : Int, 1 ≤ old → old ≤ c.versions → 1 ≤ new → new ≤ c.versions →
        ((∃ changes, Upgrade.check g old new = .ok changes) ↔
          ∃ changes, Upgrade.check c old new = .ok changes)) := by
  obtain ⟨accepted, passes, rfl⟩ := ofDeclarations_eq_ok_iff.mp compiled
  obtain ⟨acceptedAgain, -, rfl⟩ := ofDeclarations_eq_ok_iff.mp again
  have resolves := accepted.itemsResolve
  have resolvesAgain := acceptedAgain.itemsResolve
  have last := fun {version : Int} (first : 1 ≤ version) =>
    le_lastVersion_of_released growth resolves resolvesAgain first
  constructor
  · intro version first released
    obtain ⟨own, later⟩ := last first released
    have same := excerpt_growth growth resolves resolvesAgain released
    have exportable := (passes version first own).exportable
    have shown := Snapshot.exported_layout version decls
    have shownAgain := Snapshot.exported_layout version grown
    rw [if_pos exportable] at shown
    rw [same, if_pos exportable] at shownAgain
    exact ⟨_, _, _, snapshot?_eq_ok_iff.mpr ⟨first, own, rfl⟩,
      snapshot?_eq_ok_iff.mpr ⟨first, later, rfl⟩, shown, shownAgain⟩
  · intro texts textsAgain old new oldFirst oldReleased newFirst newReleased
    obtain ⟨oldOwn, oldLater⟩ := last oldFirst oldReleased
    obtain ⟨newOwn, newLater⟩ := last newFirst newReleased
    rw [Upgrade.check_isOk_iff texts compiled oldFirst oldOwn newFirst newOwn,
      Upgrade.check_isOk_iff textsAgain again oldFirst oldLater newFirst newLater]
    exact covers_growth growth resolves resolvesAgain oldReleased newReleased

def ordersGrown : List Decl :=
  [⟨.str "Customer", .record false [⟨.str "id", .primitive .u32 none, none, none⟩],
      History.addedIn 4, none⟩,
   ⟨.str "Order", .record false
      [⟨.str "total", .primitive .u64 none, History.addedIn 4, none⟩,
       ⟨.str "id", .primitive .u32 none, none, none⟩,
       ⟨.str "note", .primitive .str none, some (.adding ⟨2, none⟩ (some ⟨3, none⟩) none), none⟩,
       ⟨.str "status", .named (.str "Status") none,
          some (.adding ⟨2, none⟩ (some ⟨5, none⟩) none), none⟩], none, none⟩,
   ⟨.str "Status", .enum
      [⟨.str "Open", .struct
          [⟨.str "since", .primitive .u64 none, History.removedIn 4, none⟩,
           ⟨.str "reason", .primitive .str none, History.addedIn 4, none⟩,
           ⟨.str "clerk", .primitive .str none, History.addedIn 3, none⟩], none, none⟩,
       ⟨.str "Closed", .unit, History.addedIn 4, none⟩,
       ⟨.str "Draft", .unit, History.removedIn 3, none⟩],
      some (.adding ⟨2, none⟩ (some ⟨5, none⟩) none), none⟩]

theorem growth_keeps_released_orders :
    SchemaGrowth 3 History.orders ordersGrown ∧
    ∃ g, ofDeclarations 1024 ordersGrown = .ok g ∧
      (∃ s t json, snapshot? ⟨History.orders, History.ordersSnapshots⟩ 3 = .ok s ∧
        g.snapshot? 3 = .ok t ∧ s.exported History.orders = .ok json ∧
        t.exported g.decls = .ok json) ∧
      ((∃ changes, Upgrade.check g 1 2 = .ok changes) ↔
        ∃ changes, Upgrade.check ⟨History.orders, History.ordersSnapshots⟩ 1 2 = .ok changes) := by
  have compiled : ofDeclarations 1024 History.orders =
      .ok ⟨History.orders, History.ordersSnapshots⟩ := rfl
  obtain ⟨g, again⟩ : ∃ g, ofDeclarations 1024 ordersGrown = .ok g := ⟨_, rfl⟩
  have growth : SchemaGrowth 3 History.orders ordersGrown := by
    refine .insert ⟨_, _, rfl, rfl, by decide⟩ (.keep ⟨.same, ?_, rfl⟩ (.keep ⟨?_, ?_, rfl⟩ .nil))
    · apply BodyEdit.record
      apply Grown.insert ⟨_, _, rfl, rfl, by decide⟩
      apply Grown.keep ⟨.same, rfl⟩
      apply Grown.keep ⟨.same, rfl⟩
      exact .keep ⟨.close ⟨5, none⟩ none rfl (by decide), rfl⟩ .nil
    · exact .close ⟨5, none⟩ none rfl (by decide)
    · apply BodyEdit.enum
      refine .keep ⟨.same, .struct ?_, rfl⟩ (.insert ⟨_, _, rfl, rfl, by decide⟩ ?_)
      · apply Grown.keep ⟨.close ⟨4, none⟩ none rfl (by decide), rfl⟩
        apply Grown.insert ⟨_, _, rfl, rfl, by decide⟩
        exact .keep ⟨.same, rfl⟩ .nil
      · exact .keep ⟨.same, .same _, rfl⟩ .nil
  obtain ⟨released, upgrades⟩ := growth_keeps_released compiled growth again
  refine ⟨growth, g, again, released 3 (by decide) (by decide), ?_⟩
  exact upgrades (by decide) (by decide) 1 2 (by decide) (by decide) (by decide) (by decide)

end Compiled
end SchemaHistory
