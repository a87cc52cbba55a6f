import SchemaHistory.Proofs.Faults.RelocatedFacts
import SchemaHistory.Proofs.Fingerprint.Identity

/-! # Compiling a schema that is moved to other places

Moving the parts of a schema moves the diagnostic that it is rejected with, and nothing else
(`Compiled.fault?_relocate`): a schema that compiles has the same snapshots and the same export
wherever it was written.  So schemas that are equal without their places compile alike
(`Compiled.alike_of_unplaced`). -/
set_option autoImplicit false
namespace SchemaHistory

section
variable (f : Option Position → Option Position)

/-! ## What can be written -/

mutual

@[simp] theorem TypeExpr.isWritable_relocate : (t : TypeExpr) →
    (t.relocate f).isWritable = t.isWritable
  | .primitive _ _ => rfl
  | .named _ _ => rfl
  | .optional inner _ => by simp only [relocate, isWritable, isWritable_relocate inner]
  | .reference inner _ => by simp only [relocate, isWritable, isWritable_relocate inner]
  | .array inner _ _ => by simp only [relocate, isWritable, isWritable_relocate inner]
  | .slice inner _ => by simp only [relocate, isWritable, isWritable_relocate inner]
  | .tuple items _ => by simp only [relocate, isWritable, areJoinable_relocate items]

theorem TypeExpr.areJoinable_relocate : (items : List TypeExpr) →
    areJoinable (relocateItems f items) = areJoinable items
  | [] => rfl
  | item :: items => by
      simp only [relocateItems, areJoinable, isWritable_relocate item, form_relocate,
        areJoinable_relocate items]

end

theorem Snapshot.fieldsAreWritable_relocate (fs : List Field) :
    fieldsAreWritable (fs.map (Field.relocate f)) = fieldsAreWritable fs := by
  rw [fieldsAreWritable, List.all_map]
  exact List.all_congr rfl fun x => TypeExpr.isWritable_relocate f x.type

theorem Variant.isExportable_relocate (v : Variant) :
    (v.relocate f).isExportable = v.isExportable := by
  obtain ⟨name, payload, header, position⟩ := v
  cases payload with
  | unit => rfl
  | int n => rfl
  | tuple types =>
      simp only [relocate, Payload.relocate, isExportable, List.all_map, Function.comp_def,
        TypeExpr.isWritable_relocate]
  | struct fs => exact Snapshot.fieldsAreWritable_relocate f fs

theorem Decl.isExportable_relocate (d : Decl) : (d.relocate f).isExportable = d.isExportable := by
  obtain ⟨name, body, header, position⟩ := d
  cases body with
  | record node fs => exact Snapshot.fieldsAreWritable_relocate f fs
  | enum vs =>
      simp only [relocate, Body.relocate, isExportable, List.all_map, Function.comp_def,
        Variant.isExportable_relocate]

/-! ## The checks of all versions -/

theorem versionsOf_relocate (decls : List Decl) :
    versionsOf (decls.map (Decl.relocate f)) = versionsOf decls := by
  rw [versionsOf, versionsOf, lastVersion_relocate]

theorem exportCheck_relocate (decls : List Decl) :
    Compiled.exportCheck (decls.map (Decl.relocate f)) = Compiled.exportCheck decls := by
  simp only [Compiled.exportCheck, versionsOf_relocate, excerpt_relocate, List.all_map,
    Function.comp_def, Decl.isExportable_relocate]

/-- The diagnostic of an empty version has no place, so that none may be made up. -/
theorem versionChecks_relocate (keeps : f none = none) (version : Int) (schema : List Decl) :
    versionChecks version (schema.map (Decl.relocate f)) =
      (versionChecks version schema).map (Option.map (Rejection.relocate f)) := by
  have empty : (⟨.emptyVersion version, none⟩ : Diagnostic).relocate f =
      ⟨.emptyVersion version, none⟩ := congrArg (Diagnostic.mk _) keeps
  have facts : (schema.map (Decl.relocate f)).flatMap (Decl.orderedFacts version) =
      (schema.flatMap (Decl.orderedFacts version)).map (Fact.relocate f) := by
    rw [List.flatMap_map, List.map_flatMap]
    exact List.flatMap_congr fun d _ => Decl.orderedFacts_relocate f version d
  rw [versionChecks, versionChecks, facts, References.checksOf_relocate, List.isEmpty_map,
    List.map_cons]
  cases schema with
  | nil => exact congrArg (fun d => some (Rejection.diagnostic d) :: _) empty.symm
  | cons d rest => rfl

namespace Compiled

theorem checks_relocate (keeps : f none = none) (limit : Int) (decls : List Decl) :
    checks limit (decls.map (Decl.relocate f)) =
      (checks limit decls).map (Option.map (Rejection.relocate f)) := by
  have exported : [exportCheck decls] =
      [exportCheck decls].map (Option.map (Rejection.relocate f)) := by
    unfold exportCheck
    split_ifs <;> rfl
  have versions : ((versionsOf decls).flatMap fun version =>
      versionChecks version (excerpt version (decls.map (Decl.relocate f)))) =
      ((versionsOf decls).flatMap fun version =>
        versionChecks version (excerpt version decls)).map (Option.map (Rejection.relocate f)) := by
    rw [List.map_flatMap]
    refine List.flatMap_congr fun version _ => ?_
    rw [excerpt_relocate, versionChecks_relocate f keeps]
  have items : ((itemChecks limit decls).map (Option.map (Diagnostic.relocate f))).map
      (Option.map Rejection.diagnostic) =
      ((itemChecks limit decls).map (Option.map Rejection.diagnostic)).map
        (Option.map (Rejection.relocate f)) := by
    simp only [List.map_map, Function.comp_def, Option.map_map]
    rfl
  rw [checks, checks, versionsOf_relocate, exportCheck_relocate, itemChecks_relocate, versions,
    items, List.map_append, List.map_append, ← exported]

/-- A schema that is moved to other places is rejected in the same way, at the other place. -/
theorem fault?_relocate (keeps : f none = none) (limit : Int) (decls : List Decl) :
    fault? (ofDeclarations limit (decls.map (Decl.relocate f))) =
      (fault? (ofDeclarations limit decls)).map (Rejection.relocate f) := by
  rw [fault?_ofDeclarations, fault?_ofDeclarations, checks_relocate f keeps, firstFault_map]

end Compiled

/-! ## Snapshots and exports -/

namespace Layout

theorem zipIdx_relocate {α β : Type} (g : α → α) (xs : List α) (p : α → Bool)
    (k : α × Nat → β) (same : ∀ x, p (g x) = p x) (kept : ∀ x i, k (g x, i) = k (x, i)) :
    ((xs.map g).zipIdx.filter fun e => p e.1).map k = (xs.zipIdx.filter fun e => p e.1).map k := by
  rw [List.zipIdx_map, List.filter_map, List.map_map]
  have filtered : ((fun e : α × Nat => p e.1) ∘ Prod.map g id) = fun e => p e.1 :=
    funext fun e => same e.1
  have shown : k ∘ Prod.map g id = k := funext fun e => kept e.1 e.2
  rw [filtered, shown]

theorem fields_relocate (version : Int) (l : Lifetime) (fs : List Field) :
    fields version l (fs.map (Field.relocate f)) = fields version l fs :=
  zipIdx_relocate (Field.relocate f) fs (fun x => decide (version ∈ x.lifetime l)) Prod.snd
    (fun x => by rw [Field.lifetime_relocate]) fun _ _ => rfl

theorem variant_relocate (version : Int) (l : Lifetime) (v : Variant) (i : Nat) :
    variant version l (v.relocate f) i = variant version l v i := by
  have lifetime := Variant.lifetime_relocate f l v
  obtain ⟨name, payload, header, position⟩ := v
  cases payload with
  | struct fs =>
      unfold variant
      rw [lifetime]
      exact congrArg (MemberSlot.struct i) (fields_relocate f version _ fs)
  | _ => rfl

theorem members_relocate (version : Int) (d : Decl) :
    members version (d.relocate f) = members version d := by
  have lifetime := Decl.lifetime_relocate f d
  obtain ⟨name, body, header, position⟩ := d
  cases body with
  | record node fs =>
      unfold members
      rw [lifetime]
      exact congrArg (List.map MemberSlot.plain) (fields_relocate f version _ fs)
  | enum vs =>
      unfold members
      rw [lifetime]
      exact zipIdx_relocate (Variant.relocate f) vs (fun v => decide (version ∈ v.lifetime _)) _
        (fun v => by rw [Variant.lifetime_relocate]) fun v i => variant_relocate f version _ v i

theorem types_relocate (version : Int) (decls : List Decl) :
    types version (decls.map (Decl.relocate f)) = types version decls :=
  zipIdx_relocate (Decl.relocate f) decls (fun d => decide (version ∈ d.lifetime)) _
    (fun d => by rw [Decl.lifetime_relocate]) fun d i =>
      congrArg (TypeSlot.mk i) (members_relocate f version d)

end Layout

theorem History.layouts_relocate (decls : List Decl) :
    layouts (decls.map (Decl.relocate f)) = layouts decls := by
  simp only [layouts, lastVersion_relocate, Layout.types_relocate]

theorem Field.shape_relocate (x : Field) : (x.relocate f).shape = x.shape := by
  simp only [shape, relocate, TypeExpr.unplaced_relocate]

theorem Variant.shape_relocate (v : Variant) : (v.relocate f).shape = v.shape := by
  obtain ⟨name, payload, header, position⟩ := v
  cases payload with
  | unit => rfl
  | int n => rfl
  | tuple types =>
      simp only [relocate, Payload.relocate, shape, Payload.shape, List.map_map,
        Function.comp_def, TypeExpr.unplaced_relocate]
  | struct fs =>
      simp only [relocate, Payload.relocate, shape, Payload.shape, List.map_map,
        Function.comp_def, Field.shape_relocate]

theorem Decl.shape_relocate (d : Decl) : (d.relocate f).shape = d.shape := by
  obtain ⟨name, body, header, position⟩ := d
  cases body with
  | record node fs =>
      simp only [relocate, Body.relocate, shape, Body.shape, List.map_map, Function.comp_def,
        Field.shape_relocate]
  | enum vs =>
      simp only [relocate, Body.relocate, shape, Body.shape, List.map_map, Function.comp_def,
        Variant.shape_relocate]

theorem Compiled.json_relocate (decls : List Decl) :
    json ⟨decls.map (Decl.relocate f), History.layouts (decls.map (Decl.relocate f))⟩ =
      json ⟨decls, History.layouts decls⟩ := by
  have shapes (version : Int) : (excerpt version (decls.map (Decl.relocate f))).map Decl.shape =
      (excerpt version decls).map Decl.shape := by
    simp only [excerpt_relocate, List.map_map, Function.comp_def, Decl.shape_relocate]
  rw [json_layouts, json_layouts, versionsOf_relocate]
  exact congrArg (fun versions => Json.obj [("versions", .arr versions)])
    (List.map_congr_left fun version _ => versionJson_eq (shapes version))

end

namespace Compiled
variable {decls others : List Decl}

theorem snapshots_of_unplaced (same : decls.map Decl.unplaced = others.map Decl.unplaced) :
    History.layouts decls = History.layouts others :=
  calc History.layouts decls
      = History.layouts (decls.map Decl.unplaced) := (History.layouts_relocate _ decls).symm
    _ = History.layouts (others.map Decl.unplaced) := by rw [same]
    _ = History.layouts others := History.layouts_relocate _ others

theorem json_of_unplaced (same : decls.map Decl.unplaced = others.map Decl.unplaced) :
    json ⟨decls, History.layouts decls⟩ = json ⟨others, History.layouts others⟩ :=
  calc json ⟨decls, History.layouts decls⟩
      = json ⟨decls.map Decl.unplaced, History.layouts (decls.map Decl.unplaced)⟩ :=
        (json_relocate _ decls).symm
    _ = json ⟨others.map Decl.unplaced, History.layouts (others.map Decl.unplaced)⟩ := by rw [same]
    _ = json ⟨others, History.layouts others⟩ := json_relocate _ others

/-- Schemas that are equal without their places both compile, to the same snapshots and the same
export, or are both rejected in the same way. -/
theorem alike_of_unplaced (same : decls.map Decl.unplaced = others.map Decl.unplaced)
    (limit : Int) :
    (∃ c e, ofDeclarations limit decls = .ok c ∧ ofDeclarations limit others = .ok e ∧
      c.snapshots = e.snapshots ∧ c.json = e.json) ∨
    ∃ r s, ofDeclarations limit decls = .error r ∧ ofDeclarations limit others = .error s ∧
      r.relocate (fun _ => none) = s.relocate fun _ => none := by
  have faults : (fault? (ofDeclarations limit decls)).map (Rejection.relocate fun _ => none) =
      (fault? (ofDeclarations limit others)).map (Rejection.relocate fun _ => none) :=
    calc (fault? (ofDeclarations limit decls)).map (Rejection.relocate fun _ => none)
        = fault? (ofDeclarations limit (decls.map Decl.unplaced)) :=
          (fault?_relocate _ rfl limit decls).symm
      _ = fault? (ofDeclarations limit (others.map Decl.unplaced)) := by rw [same]
      _ = _ := fault?_relocate _ rfl limit others
  -- either both have a fault or neither has, and without faults the layouts decide
  cases own : ofDeclarations limit decls with
  | error r =>
      cases other : ofDeclarations limit others with
      | error s =>
          rw [own, other] at faults
          exact .inr ⟨r, s, rfl, rfl, Option.some.inj faults⟩
      | ok e =>
          rw [own, other] at faults
          cases faults
  | ok c =>
      cases other : ofDeclarations limit others with
      | error s =>
          rw [own, other] at faults
          cases faults
      | ok e =>
          obtain ⟨-, -, rfl⟩ := ofDeclarations_eq_ok_iff.mp own
          obtain ⟨-, -, rfl⟩ := ofDeclarations_eq_ok_iff.mp other
          exact .inl ⟨_, _, rfl, rfl, snapshots_of_unplaced same, json_of_unplaced same⟩

end Compiled
end SchemaHistory
