import SchemaHistory.Proofs.Upgrade.Lifetimes
import SchemaHistory.Proofs.Upgrade.Paths

/-! # Comparisons are complete

Between two versions of a compiled schema the changes are the report of the schema, so nothing is
missed and nothing is counted twice (`diff_complete`): in every scope that is compared each name has
its one change or none, there is no other change, and the paths are distinct.  There is no change at
all exactly when both versions have the same layout: in a layout items stand by their places, so two
layouts are the same when they have the same items with the same layouts inside. -/
set_option autoImplicit false
namespace SchemaHistory.Upgrade

/-! ## Layouts that are the same -/

section
variable {α β : Type} {p q : β → Bool} {f g : β × Nat → α} {place : α → Nat} {xs : List β}
  (left : ∀ e, place (f e) = e.2) (right : ∀ e, place (g e) = e.2)
include left right

theorem mem_of_placed
    (same : (xs.zipIdx.filter fun e => p e.1).map f = (xs.zipIdx.filter fun e => q e.1).map g)
    {e : β × Nat} (member : e ∈ xs.zipIdx) (own : p e.1 = true) : q e.1 = true ∧ f e = g e := by
  have listed : f e ∈ (xs.zipIdx.filter fun e => q e.1).map g := by
    rw [← same]
    exact List.mem_map_of_mem (List.mem_filter.mpr ⟨member, own⟩)
  obtain ⟨e', inside, equal⟩ := List.mem_map.mp listed
  obtain ⟨there, other⟩ := List.mem_filter.mp inside
  have one : e' = e := by
    refine eq_of_place there member ?_
    rw [← right, equal, left]
  rw [one] at other equal
  exact ⟨other, equal.symm⟩

/-- Items that stand by their places are the same when they are the same one by one. -/
theorem placed_eq_iff :
    (xs.zipIdx.filter fun e => p e.1).map f = (xs.zipIdx.filter fun e => q e.1).map g ↔
      ∀ e ∈ xs.zipIdx, p e.1 = q e.1 ∧ (p e.1 = true → f e = g e) := by
  constructor
  · intro same e member
    refine ⟨?_, fun own => (mem_of_placed left right same member own).2⟩
    rw [Bool.eq_iff_iff]
    exact ⟨fun own => (mem_of_placed left right same member own).1,
      fun other => (mem_of_placed right left same.symm member other).1⟩
  · intro same
    have kept : (xs.zipIdx.filter fun e => p e.1) = xs.zipIdx.filter fun e => q e.1 :=
      List.filter_congr fun e member => (same e member).1
    rw [← kept]
    refine List.map_congr_left fun e member => ?_
    obtain ⟨inside, own⟩ := List.mem_filter.mp member
    exact (same e inside).2 own

/-- Nothing is reported of a scope when the layouts have the same items, given that nothing changes
inside of an item exactly when the layouts have it alike. -/
theorem report_eq_nil_iff_placed {m : β → Member} {scope : Scope} (apart : Apart (xs.map m))
    (inner : ∀ e ∈ xs.zipIdx, (m e.1).inner = [] ↔ f e = g e) :
    report scope (xs.map m) = [] ↔
      (xs.zipIdx.filter fun e => (m e.1).inOld).map f =
        (xs.zipIdx.filter fun e => (m e.1).inNew).map g := by
  have places : (xs.zipIdx.filter fun e => (m e.1).inOld).map f =
      (xs.zipIdx.filter fun e => (m e.1).inNew).map g ↔ ∀ e ∈ xs.zipIdx,
        (m e.1).inOld = (m e.1).inNew ∧ ((m e.1).inOld = true → f e = g e) :=
    placed_eq_iff (p := fun x => (m x).inOld) (q := fun x => (m x).inNew) left right
  rw [report_eq_nil_iff apart, List.forall_mem_map, places, ← forall_zipIdx_iff (i := 0)]
  refine forall₂_congr fun e member => ?_
  rw [inner e member]

end

section
variable {old new : Int}

theorem fieldReport_eq_nil_iff {owner : Text} {l : Lifetime} {fs : List Field}
    (oldDistinct : ((Field.excerpts old l fs).map Field.name).Nodup)
    (newDistinct : ((Field.excerpts new l fs).map Field.name).Nodup) :
    fieldReport old new owner l fs = [] ↔ Layout.fields old l fs = Layout.fields new l fs := by
  have same (i : Nat) : id i = i := rfl
  exact report_eq_nil_iff_placed (fun e => same e.2) (fun e => same e.2)
    (apart_fieldMembers oldDistinct newDistinct) fun _ _ => iff_of_true rfl rfl

/-- A variant has the same slot in both layouts when nothing changes among its fields. -/
theorem variantSlot_eq_iff {enumName : Text} {l : Lifetime} {v : Variant} (i : Nat)
    (oldDistinct : ((Field.excerpts old (v.lifetime l) v.payload.fields).map Field.name).Nodup)
    (newDistinct : ((Field.excerpts new (v.lifetime l) v.payload.fields).map Field.name).Nodup) :
    (variantMember old new enumName l v).inner = [] ↔
      Layout.variant old l v i = Layout.variant new l v i := by
  unfold variantMember Layout.variant
  cases payload : v.payload with
  | struct fs =>
      rw [payload] at oldDistinct newDistinct
      refine (fieldReport_eq_nil_iff oldDistinct newDistinct).trans ?_
      rw [MemberSlot.struct.injEq, Payload.fields]
      exact (and_iff_right rfl).symm
  | unit => exact iff_of_true rfl rfl
  | int discriminant => exact iff_of_true rfl rfl
  | tuple ts => exact iff_of_true rfl rfl

section
variable {d : Decl} (oldDistinct : d.DistinctIn old) (newDistinct : d.DistinctIn new)
include oldDistinct newDistinct

theorem variantReport_eq_nil_iff (enumName : Text) :
    variantReport old new enumName d.lifetime d.variants = [] ↔
      Layout.variants old d.lifetime d.variants = Layout.variants new d.lifetime d.variants := by
  refine report_eq_nil_iff_placed (fun e => index_variant old d.lifetime e.1 e.2)
    (fun e => index_variant new d.lifetime e.1 e.2)
    (apart_variantMembers enumName oldDistinct newDistinct) fun e member => ?_
  have inside := List.fst_mem_of_mem_zipIdx member
  exact variantSlot_eq_iff e.2 (oldDistinct.inner e.1 inside) (newDistinct.inner e.1 inside)

theorem innerReport_eq_nil_iff :
    innerReport old new d = [] ↔ Layout.members old d = Layout.members new d := by
  obtain ⟨name, body, header, position⟩ := d
  cases body with
  | record node fs =>
      refine (fieldReport_eq_nil_iff oldDistinct.fields newDistinct.fields).trans ?_
      exact (List.map_injective_iff.mpr fun i j same => MemberSlot.plain.inj same).eq_iff.symm
  | enum vs => exact variantReport_eq_nil_iff oldDistinct newDistinct name.shown

end

theorem schemaReport_eq_nil_iff {decls : List Decl} (oldDistinct : DistinctIn old decls)
    (newDistinct : DistinctIn new decls) :
    schemaReport old new decls = [] ↔ Layout.types old decls = Layout.types new decls := by
  have index (version : Int) (e : Decl × Nat) :
      TypeSlot.index ⟨e.2, Layout.members version e.1⟩ = e.2 := rfl
  refine report_eq_nil_iff_placed (index old) (index new)
    (apart_typeMembers oldDistinct newDistinct) fun e member => ?_
  have inside := List.fst_mem_of_mem_zipIdx member
  exact (innerReport_eq_nil_iff (oldDistinct.members e.1 inside)
    (newDistinct.members e.1 inside)).trans (by simp)

end

/-! ## The differences between two versions -/

section
variable {limit old new : Int} {decls : List Decl} {c : Compiled} {before after : Snapshot}

/-- The changes between two versions of a compiled schema whose names are texts: the report of the
schema and nothing else.  In every compared scope each name has its one change or none, and the
report on the scope stands together; every change is about an item of a compared scope; there is no
change exactly when both versions have the same layout; and without dots in the names of types and
variants no two changes have the same path. -/
theorem diff_complete (texts : HasTextNames decls)
    (compiled : Compiled.ofDeclarations limit decls = .ok c)
    (oldExists : c.snapshot? old = .ok before) (newExists : c.snapshot? new = .ok after) :
    diff c old new = .ok (schemaReport old new decls) ∧
    (∀ scope ms, Compared old new decls scope ms →
      Exact scope ms (report scope ms) ∧ report scope ms <:+: schemaReport old new decls) ∧
    (∀ change ∈ schemaReport old new decls, ChangeOf old new decls change) ∧
    (schemaReport old new decls = [] ↔ before.types = after.types) ∧
    (DotlessNames decls → ((schemaReport old new decls).map Change.path).Nodup) := by
  obtain ⟨accepted, -, shape⟩ := Compiled.ofDeclarations_eq_ok_iff.mp compiled
  rw [← shape] at oldExists newExists
  obtain ⟨oldFirst, oldLast, rfl⟩ := Compiled.snapshot?_eq_ok_iff.mp oldExists
  obtain ⟨newFirst, newLast, rfl⟩ := Compiled.snapshot?_eq_ok_iff.mp newExists
  have oldDistinct := distinctIn_of_accepted texts accepted oldFirst oldLast
  have newDistinct := distinctIn_of_accepted texts accepted newFirst newLast
  refine ⟨?_, ?_, fun change member => changeOf_schemaReport member, ?_, ?_⟩
  · rw [diff_eq_ok texts compiled oldFirst oldLast newFirst newLast,
      snapshotChanges_eq texts oldDistinct newDistinct]
  · exact fun scope ms compared => ⟨compared.exact oldDistinct newDistinct, compared.isInfix⟩
  · exact schemaReport_eq_nil_iff oldDistinct newDistinct
  · exact nodup_schemaReport texts oldDistinct newDistinct

/-- From version 2 to version 3 of the orders the note goes, the status loses a variant, and the
other one of its variants gets a field. -/
theorem diff_complete_orders :
    diff ⟨History.orders, History.ordersSnapshots⟩ 2 3 =
      .ok [⟨.field "Order", .str "note", .removed (.str "str")⟩,
        ⟨.variant "Status", .str "Draft", .removed (.str "Draft")⟩,
        ⟨.field "Status.Open", .str "clerk", .added (.str "str")⟩] ∧
    (schemaReport 2 3 History.orders ≠ []) ∧
    ((schemaReport 2 3 History.orders).map Change.path).Nodup := by
  have texts : HasTextNames History.orders := by decide
  have compiled : Compiled.ofDeclarations 1024 History.orders =
      .ok ⟨History.orders, History.ordersSnapshots⟩ := rfl
  have second : Compiled.snapshot? ⟨History.orders, History.ordersSnapshots⟩ 2 =
      .ok (History.layout 2 History.orders) := by rfl
  have third : Compiled.snapshot? ⟨History.orders, History.ordersSnapshots⟩ 3 =
      .ok (History.layout 3 History.orders) := by rfl
  have listed : schemaReport 2 3 History.orders =
      [⟨.field "Order", .str "note", .removed (.str "str")⟩,
        ⟨.variant "Status", .str "Draft", .removed (.str "Draft")⟩,
        ⟨.field "Status.Open", .str "clerk", .added (.str "str")⟩] := by decide
  obtain ⟨changes, -, -, nothing, paths⟩ := diff_complete texts compiled second third
  refine ⟨changes.trans (congrArg Except.ok listed), ?_, paths (by decide)⟩
  rw [Ne, nothing]
  decide

end
end SchemaHistory.Upgrade
