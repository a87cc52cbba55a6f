import SchemaHistory.Proofs.Compiled.Alone
import SchemaHistory.Proofs.Compiled.WellFormed
import SchemaHistory.Proofs.Upgrade.Tables

/-! # The verdict on an upgrade

The upgrade check compares two snapshots by names and never looks at lifetimes.  For two versions of
a compiled schema it comes to a question about lifetimes alone: the upgrade is safe exactly when
everything that lives in the old version lives in the new one (`check_isOk_iff`).  This is shown
scope by scope, from the fields up to the types. -/
set_option autoImplicit false
namespace SchemaHistory.Upgrade

/-- Everything that lives in the old version lives in the new one. -/
def Covers (old new : Int) (decls : List Decl) : Prop :=
  ∀ item ∈ items decls, old ∈ item.lifetime → new ∈ item.lifetime

def FieldsStay (old new : Int) (l : Lifetime) (fs : List Field) : Prop :=
  ∀ f ∈ fs, old ∈ f.lifetime l → new ∈ f.lifetime l

def VariantsStay (old new : Int) (l : Lifetime) (vs : List Variant) : Prop :=
  ∀ v ∈ vs, old ∈ v.lifetime l → new ∈ v.lifetime l ∧
    FieldsStay old new (v.lifetime l) v.payload.fields

def Stays (old new : Int) (d : Decl) : Prop :=
  old ∈ d.lifetime → new ∈ d.lifetime ∧
    FieldsStay old new d.lifetime d.fields ∧ VariantsStay old new d.lifetime d.variants

theorem covers_iff {old new : Int} {decls : List Decl} :
    Covers old new decls ↔ ∀ d ∈ decls, Stays old new d := by
  refine (forall_items_iff (P := fun header container =>
    old ∈ Lifetime.ofHeader header container → new ∈ Lifetime.ofHeader header container)).trans ?_
  have outer : ∀ {l : Lifetime} {header : Option Header},
      old ∈ Lifetime.ofHeader header (some l) → old ∈ l :=
    fun inside => Lifetime.ofHeader_subset _ _ old inside
  refine forall₂_congr fun d member => ?_
  constructor
  · intro stay lives
    rcases stay with ⟨own, fields, variants⟩
    exact ⟨own lives, fields, fun v listed inside =>
      ⟨(variants v listed).1 inside, (variants v listed).2⟩⟩
  · intro stays
    refine ⟨fun lives => (stays lives).1, ?_, ?_⟩
    · exact fun f listed lives => (stays (outer lives)).2.1 f listed lives
    · intro v listed
      refine ⟨fun lives => ((stays (outer lives)).2.2 v listed lives).1, ?_⟩
      intro f inner lives
      have variant := outer lives
      exact ((stays (outer variant)).2.2 v listed variant).2 f inner lives

/-! ## Fields -/

section
variable {old new : Int} {l : Lifetime} {fs : List Field}

theorem fieldTable_layout (version : Int) (l : Lifetime) (fs : List Field) :
    fieldTable fs (Layout.fields version l fs) = entriesOf fieldView
      (living (fun f => decide (version ∈ f.lifetime l)) (fun e => (e.2, e.1)) fs) := by
  refine congrArg (entriesOf fieldView) ?_
  apply filterMap_places fs fun f : Field => decide (version ∈ f.lifetime l)
  intro f i found
  rw [found]
  rfl

theorem named_fields {version : Int} (texts : ∀ f ∈ fs, f.name.isText = true)
    (distinct : ((Field.excerpts version l fs).map Field.name).Nodup) :
    Named fieldView
      (living (fun f => decide (version ∈ f.lifetime l)) (fun e => (e.2, e.1)) fs) := by
  rw [Field.excerpts, List.map_map] at distinct
  exact named_living Field.name (fun _ => rfl) texts distinct

theorem safe_fieldChanges_iff (owner : Text) (texts : ∀ f ∈ fs, f.name.isText = true)
    (oldDistinct : ((Field.excerpts old l fs).map Field.name).Nodup)
    (newDistinct : ((Field.excerpts new l fs).map Field.name).Nodup) :
    Safe (fieldChanges owner fs (Layout.fields old l fs) (Layout.fields new l fs)) ↔
      FieldsStay old new l fs := by
  rw [fieldChanges, fieldTable_layout, fieldTable_layout,
    safe_living_iff Field.name (fun _ => rfl) (fun _ => rfl) (fun _ _ => rfl)
      (named_fields texts oldDistinct) (named_fields texts newDistinct)]
  simp only [decide_eq_true_eq, and_iff_left safe_nil]
  exact forall_zipIdx_iff (P := fun f : Field => old ∈ f.lifetime l → new ∈ f.lifetime l)

theorem fieldsComparable_layout (texts : ∀ f ∈ fs, f.name.isText = true)
    (writable : ∀ f ∈ fs, f.type.isWritable = true)
    (oldDistinct : ((Field.excerpts old l fs).map Field.name).Nodup)
    (newDistinct : ((Field.excerpts new l fs).map Field.name).Nodup) :
    fieldsComparable fs (Layout.fields old l fs) (Layout.fields new l fs) = true := by
  have all : ∀ e ∈ fs.zipIdx, e.1.type.isWritable = true :=
    fun e member => writable e.1 (List.fst_mem_of_mem_zipIdx member)
  rw [fieldsComparable, fieldTable_layout, fieldTable_layout]
  exact comparable_living (fun _ _ => rfl) (named_fields texts oldDistinct)
    (named_fields texts newDistinct) all all fun _ _ _ _ => rfl

end

/-! ## Variants -/

section
variable {old new : Int} {l : Lifetime} {vs : List Variant}

theorem index_variant (version : Int) (l : Lifetime) (v : Variant) (i : Nat) :
    (Layout.variant version l v i).index = i := by
  unfold Layout.variant
  cases v.payload <;> rfl

theorem variantTable_layout (version : Int) (l : Lifetime) (vs : List Variant) :
    variantTable vs (Layout.variants version l vs) = entriesOf variantView
      (living (fun v => decide (version ∈ v.lifetime l))
        (fun e => (Layout.variant version l e.1 e.2, e.1)) vs) := by
  have places : ((Layout.variants version l vs).map fun s => (s.index, s)).map Prod.fst =
      (vs.zipIdx.filter fun e => decide (version ∈ e.1.lifetime l)).map Prod.snd := by
    rw [Layout.variants, List.map_map, List.map_map]
    exact List.map_congr_left fun e _ => index_variant version l e.1 e.2
  have keyed : Table.Keyed ((Layout.variants version l vs).map fun s => (s.index, s)) := by
    have all : (vs.zipIdx.map Prod.snd).Nodup := by
      rw [List.zipIdx_map_snd]
      exact List.nodup_range'
    rw [Table.Keyed, places]
    exact all.sublist (List.filter_sublist.map Prod.snd)
  rw [variantTable, Table.ofList_of_keyed keyed, Layout.variants, List.map_map]
  refine congrArg (entriesOf variantView) ?_
  apply filterMap_places vs fun v : Variant => decide (version ∈ v.lifetime l)
  intro v i found
  simp only [Function.comp, index_variant, found]
  rfl

theorem named_variants {version : Int} (texts : ∀ v ∈ vs, v.name.isText = true)
    (distinct : ((Variant.excerpts version l vs).map Variant.name).Nodup) :
    Named variantView (living (fun v => decide (version ∈ v.lifetime l))
      (fun e => (Layout.variant version l e.1 e.2, e.1)) vs) := by
  rw [Variant.excerpts, List.map_map] at distinct
  exact named_living Variant.name (fun _ => rfl) texts distinct

theorem safe_insideVariant_iff {v : Variant} (enumName : Text) (name : Json) (i j : Nat)
    (texts : ∀ f ∈ v.payload.fields, f.name.isText = true)
    (oldDistinct : ((Field.excerpts old (v.lifetime l) v.payload.fields).map Field.name).Nodup)
    (newDistinct : ((Field.excerpts new (v.lifetime l) v.payload.fields).map Field.name).Nodup) :
    Safe (insideVariant enumName name (Layout.variant old l v i, v) (Layout.variant new l v j, v)) ↔
      FieldsStay old new (v.lifetime l) v.payload.fields := by
  unfold insideVariant Layout.variant
  cases payload : v.payload with
  | struct fs =>
      rw [payload] at texts oldDistinct newDistinct
      exact safe_fieldChanges_iff _ texts oldDistinct newDistinct
  | unit => exact iff_of_true safe_nil fun f member => absurd member List.not_mem_nil
  | int discriminant => exact iff_of_true safe_nil fun f member => absurd member List.not_mem_nil
  | tuple ts => exact iff_of_true safe_nil fun f member => absurd member List.not_mem_nil

theorem insideVariantComparable_layout {v : Variant} (i j : Nat)
    (texts : ∀ f ∈ v.payload.fields, f.name.isText = true)
    (writable : ∀ f ∈ v.payload.fields, f.type.isWritable = true)
    (oldDistinct : ((Field.excerpts old (v.lifetime l) v.payload.fields).map Field.name).Nodup)
    (newDistinct : ((Field.excerpts new (v.lifetime l) v.payload.fields).map Field.name).Nodup) :
    insideVariantComparable (Layout.variant old l v i, v) (Layout.variant new l v j, v) = true := by
  unfold insideVariantComparable Layout.variant
  cases payload : v.payload with
  | struct fs =>
      rw [payload] at texts writable oldDistinct newDistinct
      exact fieldsComparable_layout texts writable oldDistinct newDistinct
  | unit => rfl
  | int discriminant => rfl
  | tuple ts => rfl

end

section
variable {old new : Int} {d : Decl}

theorem same_variant (old new : Int) (l : Lifetime) (e f : Variant × Nat) :
    variantView.same (Layout.variant old l e.1 e.2, e.1) (Layout.variant new l f.1 f.2, f.1) =
      (e.2 == f.2) := by
  simp only [variantView, index_variant]

variable (texts : d.HasTextNames) (oldDistinct : d.DistinctIn old) (newDistinct : d.DistinctIn new)
include texts oldDistinct newDistinct

/-- Between two versions of one enum nothing is lost when all variants stay, and all their fields.
-/
theorem safe_variantChanges_iff (enumName : Text) :
    Safe (variantChanges enumName d.variants (Layout.variants old d.lifetime d.variants)
        (Layout.variants new d.lifetime d.variants)) ↔
      VariantsStay old new d.lifetime d.variants := by
  rw [variantChanges, variantTable_layout, variantTable_layout,
    safe_living_iff Variant.name (fun _ => rfl) (fun _ => rfl) (same_variant old new d.lifetime)
      (named_variants texts.variants oldDistinct.variants)
      (named_variants texts.variants newDistinct.variants),
    VariantsStay, ← forall_zipIdx_iff (P := fun v : Variant => old ∈ v.lifetime d.lifetime →
      new ∈ v.lifetime d.lifetime ∧ FieldsStay old new (v.lifetime d.lifetime) v.payload.fields)]
  refine forall₂_congr fun e member => ?_
  have inside := List.fst_mem_of_mem_zipIdx member
  rw [safe_insideVariant_iff enumName e.1.name e.2 e.2 (texts.inner e.1 inside)
    (oldDistinct.inner e.1 inside) (newDistinct.inner e.1 inside)]
  simp only [decide_eq_true_eq]

theorem variantsComparable_layout :
    variantsComparable d.variants (Layout.variants old d.lifetime d.variants)
      (Layout.variants new d.lifetime d.variants) = true := by
  have all : ∀ e ∈ d.variants.zipIdx, e.1.isWritable = true :=
    fun e member => texts.variant_isWritable (List.fst_mem_of_mem_zipIdx member)
  rw [variantsComparable, variantTable_layout, variantTable_layout]
  apply comparable_living (same_variant old new d.lifetime)
    (named_variants texts.variants oldDistinct.variants)
    (named_variants texts.variants newDistinct.variants) all all
  intro e member _ _
  have inside := List.fst_mem_of_mem_zipIdx member
  exact insideVariantComparable_layout e.2 e.2 (texts.inner e.1 inside)
    (fun f listed => texts.inner_isWritable inside listed)
    (oldDistinct.inner e.1 inside) (newDistinct.inner e.1 inside)

/-! ## Types -/

theorem safe_insideType_iff (name : Json) (i j : Nat) :
    Safe (insideType name (⟨i, Layout.members old d⟩, d) (⟨j, Layout.members new d⟩, d)) ↔
      FieldsStay old new d.lifetime d.fields ∧ VariantsStay old new d.lifetime d.variants := by
  obtain ⟨ownName, body, header, position⟩ := d
  cases body with
  | record node fs =>
      have fields := safe_fieldChanges_iff ownName.shown texts.fields oldDistinct.fields
        newDistinct.fields
      have plain : ∀ is : List Nat, (is.map MemberSlot.plain).map MemberSlot.index = is := by
        intro is
        rw [List.map_map]
        exact List.map_id is
      simp only [insideType, Layout.members, plain]
      exact fields.trans (and_iff_left fun v member => absurd member List.not_mem_nil).symm
  | enum vs =>
      have variants := safe_variantChanges_iff texts oldDistinct newDistinct ownName.shown
      exact variants.trans (and_iff_right fun f member => absurd member List.not_mem_nil).symm

theorem insideTypeComparable_layout (i j : Nat) :
    insideTypeComparable (⟨i, Layout.members old d⟩, d) (⟨j, Layout.members new d⟩, d) = true := by
  obtain ⟨ownName, body, header, position⟩ := d
  cases body with
  | record node fs =>
      have fields := fieldsComparable_layout texts.fields
        (fun f member => texts.field_isWritable member) oldDistinct.fields newDistinct.fields
      have plain : ∀ is : List Nat, (is.map MemberSlot.plain).map MemberSlot.index = is := by
        intro is
        rw [List.map_map]
        exact List.map_id is
      have bare : ∀ is : List Nat, (is.map MemberSlot.plain).all MemberSlot.isPlain = true := by
        intro is
        rw [List.all_map]
        exact List.all_eq_true.mpr fun _ _ => rfl
      simp only [insideTypeComparable, Layout.members, plain, bare, Bool.true_and]
      exact fields
  | enum vs =>
      have variants := variantsComparable_layout texts oldDistinct newDistinct
      simp only [insideTypeComparable, Layout.members]
      exact variants

end

/-! ## Versions -/

section
variable {old new : Int} {decls : List Decl}

theorem typeTable_layout (version : Int) (decls : List Decl) :
    typeTable decls (History.layout version decls) = entriesOf typeView
      (living (fun d => decide (version ∈ d.lifetime))
        (fun e => (⟨e.2, Layout.members version e.1⟩, e.1)) decls) := by
  rw [typeTable, History.declared_layout]
  rfl

theorem named_types {version : Int} (texts : HasTextNames decls)
    (distinct : ((excerpt version decls).map Decl.name).Nodup) :
    Named typeView (living (fun d => decide (version ∈ d.lifetime))
      (fun e => (⟨e.2, Layout.members version e.1⟩, e.1)) decls) := by
  rw [excerpt, List.map_map] at distinct
  exact named_living Decl.name (fun _ => rfl) (fun d member => (texts d member).own) distinct

structure DistinctIn (version : Int) (decls : List Decl) : Prop where
  types : ((excerpt version decls).map Decl.name).Nodup
  members : ∀ d ∈ decls, d.DistinctIn version

variable (texts : HasTextNames decls) (oldDistinct : DistinctIn old decls)
  (newDistinct : DistinctIn new decls)
include texts oldDistinct newDistinct

/-- Between two versions nothing is lost when everything stays. -/
theorem safe_snapshotChanges_iff :
    Safe (snapshotChanges decls (History.layout old decls) (History.layout new decls)) ↔
      Covers old new decls := by
  rw [snapshotChanges, typeTable_layout, typeTable_layout,
    safe_living_iff Decl.name (fun _ => rfl) (fun _ => rfl) (fun _ _ => rfl)
      (named_types texts oldDistinct.types) (named_types texts newDistinct.types),
    covers_iff, ← forall_zipIdx_iff (P := Stays old new)]
  refine forall₂_congr fun e member => ?_
  have inside := List.fst_mem_of_mem_zipIdx member
  rw [safe_insideType_iff (texts e.1 inside) (oldDistinct.members e.1 inside)
    (newDistinct.members e.1 inside)]
  simp only [decide_eq_true_eq, Stays]

theorem snapshotsComparable_layout :
    snapshotsComparable decls (History.layout old decls) (History.layout new decls) = true := by
  rw [snapshotsComparable, typeTable_layout, typeTable_layout]
  apply comparable_living (fun _ _ => rfl) (named_types texts oldDistinct.types)
    (named_types texts newDistinct.types) (fun _ _ => rfl) (fun _ _ => rfl)
  intro e member _ _
  have inside := List.fst_mem_of_mem_zipIdx member
  exact insideTypeComparable_layout (texts e.1 inside) (oldDistinct.members e.1 inside)
    (newDistinct.members e.1 inside) e.2 e.2

end

/-! ## The check -/

section
variable {limit : Int} {decls : List Decl} (texts : HasTextNames decls)
include texts

theorem distinctIn_of_accepted (accepted : Accepted limit decls) {version : Int}
    (first : 1 ≤ version) (last : version ≤ lastVersion decls) : DistinctIn version decls := by
  refine ⟨?_, ?_⟩
  · exact (apart_iff_of_resolves texts accepted.itemsResolve).mp accepted.apart version first last
  · intro d member
    exact ((membersAccepted_iff_of_resolves texts accepted.itemsResolve member).mp
      (accepted.members d member)).2 version first last

theorem namesUsable_layout (version : Int) :
    namesUsable decls (History.layout version decls) = true := by
  refine List.all_eq_true.mpr fun name member => ?_
  obtain ⟨t, listed, rfl⟩ := List.mem_map.mp member
  rw [History.declared_layout] at listed
  obtain ⟨e, inside, rfl⟩ := List.mem_map.mp listed
  have own := texts e.1 (List.fst_mem_of_mem_zipIdx (List.mem_of_mem_filter inside))
  exact Json.canBeLookedUp_of_isText own.own

theorem side_eq {version : Int} (first : 1 ≤ version) (last : version ≤ lastVersion decls) :
    side ⟨decls, History.layouts decls⟩ version = .ok (History.layout version decls) := by
  have found := Compiled.snapshot?_eq_ok_iff.mpr ⟨first, last, rfl⟩
  rw [side, found]
  exact if_pos (namesUsable_layout texts version)

/-- Two versions of a compiled schema can always be compared. -/
theorem diff_eq_ok {c : Compiled} (compiled : Compiled.ofDeclarations limit decls = .ok c)
    {old new : Int} (oldFirst : 1 ≤ old) (oldLast : old ≤ lastVersion decls) (newFirst : 1 ≤ new)
    (newLast : new ≤ lastVersion decls) :
    diff c old new =
      .ok (snapshotChanges decls (History.layout old decls) (History.layout new decls)) := by
  obtain ⟨accepted, -, rfl⟩ := Compiled.ofDeclarations_eq_ok_iff.mp compiled
  have oldDistinct := distinctIn_of_accepted texts accepted oldFirst oldLast
  have newDistinct := distinctIn_of_accepted texts accepted newFirst newLast
  rw [diff, side_eq texts oldFirst oldLast, side_eq texts newFirst newLast]
  exact if_pos (snapshotsComparable_layout texts oldDistinct newDistinct)

/-- The verdict on an upgrade between two versions of a compiled schema. -/
theorem check_isOk_iff {c : Compiled} (compiled : Compiled.ofDeclarations limit decls = .ok c)
    {old new : Int} (oldFirst : 1 ≤ old) (oldLast : old ≤ lastVersion decls) (newFirst : 1 ≤ new)
    (newLast : new ≤ lastVersion decls) :
    (∃ changes, check c old new = .ok changes) ↔ Covers old new decls := by
  have changes := diff_eq_ok texts compiled oldFirst oldLast newFirst newLast
  obtain ⟨accepted, -, -⟩ := Compiled.ofDeclarations_eq_ok_iff.mp compiled
  have oldDistinct := distinctIn_of_accepted texts accepted oldFirst oldLast
  have newDistinct := distinctIn_of_accepted texts accepted newFirst newLast
  rw [← safe_snapshotChanges_iff texts oldDistinct newDistinct, check, changes]
  simp only [Safe, List.isEmpty_iff, List.filter_eq_nil_iff, Bool.not_eq_true]
  constructor
  · intro checked
    rcases checked with ⟨all, passed⟩
    split_ifs at passed with safe
    exact safe
  · intro safe
    exact ⟨_, if_pos safe⟩

end
end SchemaHistory.Upgrade
