import SchemaHistory.Proofs.Declaration.Relocated
import SchemaHistory.Proofs.Faults.First

/-! # The checks of a schema that is moved to other places

No check of the walk decides anything by a place: places are only handed on to the diagnostics.  So
the checks of a schema whose parts are moved are the checks of the schema with their diagnostics
moved in the same way (`itemChecks_relocate`). -/
set_option autoImplicit false
namespace SchemaHistory

section
variable (f : Option Position → Option Position)

def Rejection.relocate : Rejection → Rejection
  | .diagnostic d => .diagnostic (d.relocate f)
  | .unusableName => .unusableName
  | .misplacedFields => .misplacedFields

def Sibling.relocate (s : Sibling) : Sibling := { s with position := f s.position }

end

section
variable {ε δ α β γ : Type}

theorem mapError_bind (g : ε → δ) (x : Except ε α) (next : α → Except ε β) :
    (x >>= next).mapError g = x.mapError g >>= fun a => (next a).mapError g := by
  cases x <;> rfl

theorem fault?_mapError (g : ε → δ) (x : Except ε α) :
    fault? (x.mapError g) = (fault? x).map g := by
  cases x <;> rfl

theorem checksAfter_map {checks : List α → α → List β} {others : List γ → γ → List δ} {g : α → γ}
    {k : β → δ} (same : ∀ before x, others (before.map g) (g x) = (checks before x).map k)
    (before xs : List α) :
    checksAfter others (before.map g) (xs.map g) = (checksAfter checks before xs).map k := by
  induction xs generalizing before with
  | nil => rfl
  | cons x rest ih =>
      have later := ih (before ++ [x])
      rw [List.map_append] at later
      rw [List.map_cons, checksAfter, checksAfter, List.map_append, same, ← later]
      rfl

end

section
variable (f : Option Position → Option Position)

/-! ## Lifetimes -/

namespace Lifetime

theorem topAdded_relocate (n : Option Literal) :
    topAdded (n.map (Located.relocate f)) = (topAdded n).mapError (Diagnostic.relocate f) := by
  cases n with
  | none => rfl
  | some n =>
      simp only [Option.map_some, topAdded, Located.relocate]
      split_ifs <;> rfl

theorem topRemoved_relocate (added : Int) (n : Option Literal) :
    topRemoved added (n.map (Located.relocate f)) =
      (topRemoved added n).mapError (Diagnostic.relocate f) := by
  cases n with
  | none => rfl
  | some n =>
      simp only [Option.map_some, topRemoved, Located.relocate]
      split_ifs <;> rfl

theorem innerAdded_relocate (container : Lifetime) (n : Option Literal) :
    innerAdded container (n.map (Located.relocate f)) =
      (innerAdded container n).mapError (Diagnostic.relocate f) := by
  cases n with
  | none => rfl
  | some n =>
      simp only [Option.map_some, innerAdded, Located.relocate]
      split_ifs <;> rfl

theorem innerRemoved_relocate (container : Lifetime) (added : Int) (n : Option Literal) :
    innerRemoved container added (n.map (Located.relocate f)) =
      (innerRemoved container added n).mapError (Diagnostic.relocate f) := by
  cases n with
  | none => rfl
  | some n =>
      simp only [Option.map_some, innerRemoved, Located.relocate]
      split_ifs <;> rfl

theorem resolve_relocate (header : Option Header) (container : Option Lifetime) :
    resolve (header.map (Header.relocate f)) container =
      (resolve header container).mapError (Diagnostic.relocate f) := by
  cases header with
  | none => cases container <;> rfl
  | some h =>
      cases container with
      | none =>
          simp only [Option.map_some, resolve, Header.relocate, topAdded_relocate,
            topRemoved_relocate, mapError_bind]
          rfl
      | some c =>
          simp only [Option.map_some, resolve, Header.relocate, innerAdded_relocate,
            innerRemoved_relocate, mapError_bind]
          rfl

@[simp] theorem ofHeader_relocate (header : Option Header) (container : Option Lifetime) :
    ofHeader (header.map (Header.relocate f)) container = ofHeader header container := by
  unfold ofHeader
  rw [resolve_relocate]
  cases resolve header container <;> rfl

end Lifetime

@[simp] theorem Field.lifetime_relocate (container : Lifetime) (x : Field) :
    (x.relocate f).lifetime container = x.lifetime container :=
  Lifetime.ofHeader_relocate f x.header (some container)

@[simp] theorem Variant.lifetime_relocate (container : Lifetime) (v : Variant) :
    (v.relocate f).lifetime container = v.lifetime container :=
  Lifetime.ofHeader_relocate f v.header (some container)

@[simp] theorem Decl.lifetime_relocate (d : Decl) : (d.relocate f).lifetime = d.lifetime :=
  Lifetime.ofHeader_relocate f d.header none

/-! ## The checks of the walk -/

theorem limitCheck_relocate (limit : Int) (n : Option Literal) :
    limitCheck limit (n.map (Located.relocate f)) =
      (limitCheck limit n).map (Diagnostic.relocate f) := by
  cases n with
  | none => rfl
  | some n =>
      simp only [Option.map_some, limitCheck, Located.relocate]
      split_ifs <;> rfl

theorem headerChecks_relocate (limit : Int) (header : Option Header)
    (container : Option Lifetime) :
    headerChecks limit (header.map (Header.relocate f)) container =
      (headerChecks limit header container).map (Option.map (Diagnostic.relocate f)) := by
  have lifetime : fault? (Lifetime.resolve (header.map (Header.relocate f)) container) =
      (fault? (Lifetime.resolve header container)).map (Diagnostic.relocate f) := by
    rw [Lifetime.resolve_relocate, fault?_mapError]
  unfold headerChecks
  rw [lifetime]
  cases header with
  | none => rfl
  | some h =>
      simp only [Option.map_some, Option.bind_some, Header.relocate, limitCheck_relocate,
        List.map_cons, List.map_nil]

theorem nameCheck_relocate (earlier : List Sibling) (item : Sibling) :
    nameCheck (earlier.map (Sibling.relocate f)) (item.relocate f) =
      (nameCheck earlier item).map (Diagnostic.relocate f) := by
  have clash : (∃ other ∈ earlier.map (Sibling.relocate f),
      other.clashes (item.relocate f) = true) ↔ ∃ other ∈ earlier, other.clashes item = true := by
    simp only [List.mem_map, exists_exists_and_eq_and]
    rfl
  unfold nameCheck
  rw [if_congr clash rfl rfl]
  split_ifs <;> rfl

theorem Style.conflict_relocate (u v : Variant) :
    conflict (u.relocate f) (v.relocate f) = conflict u v := by
  obtain ⟨_, p, _, _⟩ := u
  obtain ⟨_, q, _, _⟩ := v
  cases p <;> cases q <;> rfl

theorem shapeCheck_relocate (enumName : Json) (earlier : List Variant) (v : Variant) :
    shapeCheck enumName (earlier.map (Variant.relocate f)) (v.relocate f) =
      (shapeCheck enumName earlier v).map (Diagnostic.relocate f) := by
  have clash : (∃ u ∈ earlier.map (Variant.relocate f), Style.conflict u (v.relocate f) = true) ↔
      ∃ u ∈ earlier, Style.conflict u v = true := by
    simp only [List.mem_map, exists_exists_and_eq_and]
    simp only [Style.conflict_relocate]
  unfold shapeCheck
  rw [if_congr clash rfl rfl]
  split_ifs <;> rfl

theorem Payload.fields_relocate (p : Payload) :
    (p.relocate f).fields = p.fields.map (Field.relocate f) := by
  cases p <;> rfl

namespace Walk

theorem ofField_relocate (x : Field) (l : Lifetime) :
    ofField (x.relocate f) l = (ofField x l).relocate f := by
  simp only [ofField, Sibling.relocate, Field.relocate, Option.isSome_map]

theorem ofVariant_relocate (v : Variant) (l : Lifetime) :
    ofVariant (v.relocate f) l = (ofVariant v l).relocate f := by
  simp only [ofVariant, Sibling.relocate, Variant.relocate, Option.isSome_map]

theorem ofDecl_relocate (d : Decl) (l : Lifetime) :
    ofDecl (d.relocate f) l = (ofDecl d l).relocate f := by
  simp only [ofDecl, Sibling.relocate, Decl.relocate, Option.isSome_map]

theorem fieldSiblings_relocate (container : Lifetime) (fs : List Field) :
    fieldSiblings container (fs.map (Field.relocate f)) =
      (fieldSiblings container fs).map (Sibling.relocate f) := by
  rw [fieldSiblings, fieldSiblings, List.map_map, List.map_map]
  refine List.map_congr_left fun x _ => ?_
  simp only [Function.comp_apply, Field.lifetime_relocate, ofField_relocate]

theorem variantSiblings_relocate (container : Lifetime) (vs : List Variant) :
    variantSiblings container (vs.map (Variant.relocate f)) =
      (variantSiblings container vs).map (Sibling.relocate f) := by
  rw [variantSiblings, variantSiblings, List.map_map, List.map_map]
  refine List.map_congr_left fun v _ => ?_
  simp only [Function.comp_apply, Variant.lifetime_relocate, ofVariant_relocate]

theorem typeSiblings_relocate (decls : List Decl) :
    typeSiblings (decls.map (Decl.relocate f)) =
      (typeSiblings decls).map (Sibling.relocate f) := by
  rw [typeSiblings, typeSiblings, List.map_map, List.map_map]
  refine List.map_congr_left fun d _ => ?_
  simp only [Function.comp_apply, Decl.lifetime_relocate, ofDecl_relocate]

variable (limit : Int)

theorem fieldChecks_relocate (container : Lifetime) (earlier : List Field) (x : Field) :
    fieldChecks limit container (earlier.map (Field.relocate f)) (x.relocate f) =
      (fieldChecks limit container earlier x).map (Option.map (Diagnostic.relocate f)) := by
  have header := headerChecks_relocate f limit x.header (some container)
  rw [fieldChecks, fieldChecks, Field.lifetime_relocate, ofField_relocate, fieldSiblings_relocate,
    nameCheck_relocate, List.map_append]
  exact congrArg (· ++ _) header

theorem variantChecks_relocate (enumName : Json) (container : Lifetime) (earlier : List Variant)
    (v : Variant) :
    variantChecks limit enumName container (earlier.map (Variant.relocate f)) (v.relocate f) =
      (variantChecks limit enumName container earlier v).map
        (Option.map (Diagnostic.relocate f)) := by
  have header : headerChecks limit (v.relocate f).header (some container) = _ :=
    headerChecks_relocate f limit v.header (some container)
  have fields : (v.relocate f).payload.fields = v.payload.fields.map (Field.relocate f) :=
    Payload.fields_relocate f v.payload
  have inner := checksAfter_map (fieldChecks_relocate f limit (v.lifetime container)) []
    v.payload.fields
  rw [List.map_nil] at inner
  simp only [variantChecks, Variant.lifetime_relocate, ofVariant_relocate,
    variantSiblings_relocate, nameCheck_relocate, shapeCheck_relocate, header, fields, inner,
    List.map_cons, List.map_append]

theorem memberChecks_relocate (d : Decl) :
    memberChecks limit (d.relocate f) =
      (memberChecks limit d).map (Option.map (Diagnostic.relocate f)) := by
  -- the members live inside of the type, whose lifetime is taken before its parts come apart
  have lifetime := Decl.lifetime_relocate f d
  obtain ⟨name, body, header, position⟩ := d
  cases body with
  | record node fs =>
      unfold memberChecks
      rw [lifetime]
      exact checksAfter_map (fieldChecks_relocate f limit _) [] fs
  | enum vs =>
      unfold memberChecks
      rw [lifetime]
      exact checksAfter_map (variantChecks_relocate f limit name _) [] vs

theorem declChecks_relocate (earlier : List Decl) (d : Decl) :
    declChecks limit (earlier.map (Decl.relocate f)) (d.relocate f) =
      (declChecks limit earlier d).map (Option.map (Diagnostic.relocate f)) := by
  have header : headerChecks limit (d.relocate f).header none = _ :=
    headerChecks_relocate f limit d.header none
  simp only [declChecks, Decl.lifetime_relocate, ofDecl_relocate, typeSiblings_relocate,
    nameCheck_relocate, memberChecks_relocate, header, List.map_cons, List.map_append,
    List.map_nil]

end Walk

theorem itemChecks_relocate (limit : Int) (decls : List Decl) :
    itemChecks limit (decls.map (Decl.relocate f)) =
      (itemChecks limit decls).map (Option.map (Diagnostic.relocate f)) :=
  checksAfter_map (Walk.declChecks_relocate f limit) [] decls

end
end SchemaHistory
