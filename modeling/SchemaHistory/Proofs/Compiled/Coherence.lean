import Mathlib.Data.List.Nodup
import SchemaHistory.Proofs.Compiled.Acceptance
import SchemaHistory.Proofs.Json.Keys
import SchemaHistory.Proofs.References.Occurrences

/-! # Coherent schemas

`Coherent` is what a schema without versions has to satisfy: it has a type, names are not shared,
discriminants are in order, and whatever is used by name is declared as it is used.  When all names
are texts and no two types share theirs, the facts of a schema resolve exactly if the last part
holds (`resolve_plainFacts_iff`). -/
set_option autoImplicit false
namespace SchemaHistory

namespace Variant

def expressions (v : Variant) : List TypeExpr :=
  match v.payload with
  | .tuple ts => ts
  | .struct fs => fs.map Field.type
  | _ => []

end Variant

namespace Decl

def expressions (d : Decl) : List TypeExpr :=
  d.fields.map Field.type ++ d.variants.flatMap Variant.expressions

/-- No two siblings inside of a type share a name, and its discriminants are in order. -/
structure Coherent (d : Decl) : Prop where
  fields : (d.fields.map Field.name).Nodup
  variants : (d.variants.map Variant.name).Nodup
  inner : ∀ v ∈ d.variants, (v.payload.fields.map Field.name).Nodup
  ordered : Numbering.Ordered d.variants

structure HasTextNames (d : Decl) : Prop where
  own : d.name.isText = true
  fields : ∀ f ∈ d.fields, f.name.isText = true
  variants : ∀ v ∈ d.variants, v.name.isText = true
  inner : ∀ v ∈ d.variants, ∀ f ∈ v.payload.fields, f.name.isText = true
  used : ∀ t ∈ d.expressions, t.HasTextNames

end Decl

instance (d : Decl) : Decidable d.HasTextNames :=
  decidable_of_iff (d.name.isText = true ∧ (∀ f ∈ d.fields, f.name.isText = true) ∧
      (∀ v ∈ d.variants, v.name.isText = true) ∧
      (∀ v ∈ d.variants, ∀ f ∈ v.payload.fields, f.name.isText = true) ∧
      ∀ t ∈ d.expressions, t.HasTextNames)
    ⟨fun ⟨own, fields, variants, inner, used⟩ => ⟨own, fields, variants, inner, used⟩,
      fun texts => ⟨texts.own, texts.fields, texts.variants, texts.inner, texts.used⟩⟩

def HasTextNames (decls : List Decl) : Prop := ∀ d ∈ decls, d.HasTextNames

instance (decls : List Decl) : Decidable (HasTextNames decls) :=
  inferInstanceAs (Decidable (∀ d ∈ decls, d.HasTextNames))

def Declares (schema : List Decl) (name : Json) (isNode : Bool) : Prop :=
  ∃ d ∈ schema, d.name = name ∧ d.isNode = isNode

structure Coherent (schema : List Decl) : Prop where
  inhabited : schema ≠ []
  types : (schema.map Decl.name).Nodup
  members : ∀ d ∈ schema, d.Coherent
  references : ∀ d ∈ schema, ∀ t ∈ d.expressions, ∀ o ∈ t.occurrences,
    TypeExpr.WellPlaced (Declares schema) o.1 o.2

/-! ## Facts of a schema with text names -/

section
variable {declared : Json → Bool → Prop} {d : Decl}

theorem ofFields_hold_iff {fs : List Field} (texts : ∀ f ∈ fs, f.type.HasTextNames) :
    (∀ fact ∈ Fact.ofFields fs, fact.Holds declared) ↔
      ∀ t ∈ fs.map Field.type, ∀ o ∈ t.occurrences, TypeExpr.WellPlaced declared o.1 o.2 := by
  rw [Fact.ofFields, List.forall_mem_flatMap, List.forall_mem_map]
  exact forall₂_congr fun f member => TypeExpr.facts_hold_iff f.type (texts f member)

theorem innerFacts_hold_iff {v : Variant} (texts : ∀ t ∈ v.expressions, t.HasTextNames) :
    (∀ fact ∈ v.innerFacts, fact.Holds declared) ↔
      ∀ t ∈ v.expressions, ∀ o ∈ t.occurrences, TypeExpr.WellPlaced declared o.1 o.2 := by
  unfold Variant.innerFacts
  unfold Variant.expressions at texts ⊢
  cases payload : v.payload with
  | unit => simp
  | int discriminant => simp
  | tuple ts =>
      rw [payload] at texts
      dsimp only
      rw [TypeExpr.factsOfAll_eq_flatMap, List.forall_mem_flatMap]
      exact forall₂_congr fun t member => TypeExpr.facts_hold_iff t (texts t member)
  | struct fs =>
      rw [payload] at texts
      exact ofFields_hold_iff (List.forall_mem_map.mp texts)

theorem plainFacts_hold_iff (texts : d.HasTextNames) :
    (∀ fact ∈ d.plainFacts, fact.Holds declared) ↔
      ∀ t ∈ d.expressions, ∀ o ∈ t.occurrences, TypeExpr.WellPlaced declared o.1 o.2 := by
  have used := texts.used
  rw [Decl.expressions, List.forall_mem_append, List.forall_mem_map,
    List.forall_mem_flatMap] at used
  have defined : (Fact.definition d.name d.isNode).Holds declared := by
    rw [Fact.definition, if_pos (Json.canBeLookedUp_of_isText texts.own)]
    trivial
  rw [Decl.plainFacts, List.forall_mem_cons, and_iff_right defined, List.forall_mem_append,
    ofFields_hold_iff used.1, Decl.expressions, List.forall_mem_append, List.forall_mem_flatMap,
    List.forall_mem_flatMap]
  exact and_congr_right fun _ => forall₂_congr fun v member => innerFacts_hold_iff (used.2 v member)

end

theorem defines_not_mem_ofFields (name : Json) (isNode : Bool) (fs : List Field) :
    .defines name isNode ∉ Fact.ofFields fs := by
  intro member
  obtain ⟨f, -, inside⟩ := List.mem_flatMap.mp member
  exact TypeExpr.defines_not_mem_facts name isNode f.type inside

theorem defines_not_mem_innerFacts (name : Json) (isNode : Bool) (v : Variant) :
    .defines name isNode ∉ v.innerFacts := by
  unfold Variant.innerFacts
  cases v.payload with
  | unit => exact List.not_mem_nil
  | int discriminant => exact List.not_mem_nil
  | tuple ts => exact TypeExpr.defines_not_mem_factsOfAll name isNode ts
  | struct fs => exact defines_not_mem_ofFields name isNode fs

theorem defines_not_mem_members (name : Json) (isNode : Bool) (d : Decl) :
    .defines name isNode ∉ Fact.ofFields d.fields ++ d.variants.flatMap Variant.innerFacts := by
  rw [List.mem_append, not_or]
  refine ⟨defines_not_mem_ofFields name isNode d.fields, ?_⟩
  intro member
  obtain ⟨v, -, inside⟩ := List.mem_flatMap.mp member
  exact defines_not_mem_innerFacts name isNode v inside

theorem defines_mem_plainFacts_iff {d : Decl} (text : d.name.isText = true) {name : Json}
    {isNode : Bool} :
    .defines name isNode ∈ d.plainFacts ↔ d.name = name ∧ d.isNode = isNode := by
  rw [Decl.plainFacts, Fact.definition, if_pos (Json.canBeLookedUp_of_isText text), List.mem_cons,
    or_iff_left (defines_not_mem_members name isNode d), Fact.defines.injEq]
  exact and_congr eq_comm eq_comm

theorem distinct_plainFacts (d : Decl) : References.Distinct d.plainFacts := by
  refine List.pairwise_cons.mpr ⟨?_, ?_⟩
  · intro fact member name isNode other otherIsNode _ same
    exact absurd (same ▸ member) (defines_not_mem_members other otherIsNode d)
  · refine List.pairwise_of_forall_mem_list ?_
    intro a member b _ name isNode other otherIsNode same _
    exact absurd (same ▸ member) (defines_not_mem_members name isNode d)

section
variable {schema : List Decl} (texts : HasTextNames schema)
include texts

theorem distinct_facts (types : (schema.map Decl.name).Nodup) :
    References.Distinct (schema.flatMap Decl.plainFacts) := by
  rw [References.Distinct, List.pairwise_flatMap]
  refine ⟨fun d _ => distinct_plainFacts d, ?_⟩
  refine (List.pairwise_map.mp types).imp_of_mem ?_
  intro a b inA inB differ x left y right name isNode other otherIsNode isX isY
  subst isX isY
  obtain ⟨rfl, -⟩ := (defines_mem_plainFacts_iff (texts a inA).own).mp left
  obtain ⟨rfl, -⟩ := (defines_mem_plainFacts_iff (texts b inB).own).mp right
  rwa [Json.key_of_isText (texts a inA).own, Json.key_of_isText (texts b inB).own]

theorem defines_iff_declares {name : Json} {isNode : Bool} :
    References.Defines (schema.flatMap Decl.plainFacts) name.key isNode ↔
      Declares schema name isNode := by
  constructor
  · intro defined
    rcases defined with ⟨other, member, same⟩
    obtain ⟨d, inside, defines⟩ := List.mem_flatMap.mp member
    have text := (texts d inside).own
    obtain ⟨rfl, node⟩ := (defines_mem_plainFacts_iff text).mp defines
    rw [Json.key_of_isText text] at same
    exact ⟨d, inside, (Json.eq_of_key_eq text same.symm).symm, node⟩
  · intro declared
    rcases declared with ⟨d, inside, rfl, rfl⟩
    have defines := (defines_mem_plainFacts_iff (texts d inside).own).mpr ⟨rfl, rfl⟩
    exact ⟨d.name, List.mem_flatMap.mpr ⟨d, inside, defines⟩, rfl⟩

/-- With distinct type names the facts resolve when everything that is used is declared as it is
used. -/
theorem resolve_plainFacts_iff (types : (schema.map Decl.name).Nodup) :
    References.Resolve (schema.flatMap Decl.plainFacts) ↔
      ∀ d ∈ schema, ∀ t ∈ d.expressions, ∀ o ∈ t.occurrences,
        TypeExpr.WellPlaced (Declares schema) o.1 o.2 := by
  rw [References.resolve_iff (distinct_facts texts types)]
  simp only [defines_iff_declares texts]
  rw [← Fact.forall_holds_iff, List.forall_mem_flatMap]
  exact forall₂_congr fun d member => plainFacts_hold_iff (texts d member)

end
end SchemaHistory
