import SchemaHistory.Proofs.Faults.Relocated

/-! # The versions of a schema that is moved to other places

The excerpts of a schema whose parts are moved are its excerpts, moved in the same way, and so are
the facts of each version and the checks of these facts.  With the checks of the walk this gives all
checks of a schema (`Compiled.checks_relocate`), as long as nothing is put where there was no place:
the diagnostic of an empty version has none. -/
set_option autoImplicit false
namespace SchemaHistory

section
variable (f : Option Position → Option Position)

def Use.relocate (use : Use) : Use := { use with position := f use.position }

def Fact.relocate : Fact → Fact
  | .defines name isNode => .defines name isNode
  | .uses use => .uses (use.relocate f)
  | .fault r => .fault (r.relocate f)

/-! ## Excerpts -/

theorem mentionedBy_relocate (header : Option Header) :
    mentionedBy (header.map (Header.relocate f)) = mentionedBy header := by
  cases header with
  | none => rfl
  | some h =>
      obtain ⟨added, removed, position, present⟩ := h
      cases added <;> cases removed <;> rfl

theorem Field.mentioned_relocate (fs : List Field) :
    ((fs.map (Field.relocate f)).flatMap fun x => mentionedBy x.header) =
      fs.flatMap fun x => mentionedBy x.header := by
  rw [List.flatMap_map]
  exact List.flatMap_congr fun x _ => mentionedBy_relocate f x.header

theorem Variant.mentioned_relocate (v : Variant) : (v.relocate f).mentioned = v.mentioned := by
  have own : mentionedBy (v.relocate f).header = mentionedBy v.header :=
    mentionedBy_relocate f v.header
  have fields : (v.relocate f).payload.fields = v.payload.fields.map (Field.relocate f) :=
    Payload.fields_relocate f v.payload
  rw [mentioned, mentioned, own, fields, Field.mentioned_relocate]

theorem Decl.fields_relocate (d : Decl) :
    (d.relocate f).fields = d.fields.map (Field.relocate f) := by
  obtain ⟨name, body, header, position⟩ := d
  cases body <;> rfl

theorem Decl.variants_relocate (d : Decl) :
    (d.relocate f).variants = d.variants.map (Variant.relocate f) := by
  obtain ⟨name, body, header, position⟩ := d
  cases body <;> rfl

theorem Decl.isNode_relocate (d : Decl) : (d.relocate f).isNode = d.isNode := by
  obtain ⟨name, body, header, position⟩ := d
  cases body with
  | record node fs => cases node <;> rfl
  | enum vs => rfl

theorem Decl.mentioned_relocate (d : Decl) : (d.relocate f).mentioned = d.mentioned := by
  have own : mentionedBy (d.relocate f).header = mentionedBy d.header :=
    mentionedBy_relocate f d.header
  rw [mentioned, mentioned, own, fields_relocate, variants_relocate, Field.mentioned_relocate,
    List.flatMap_map]
  exact congrArg (_ ++ ·) (List.flatMap_congr fun v _ => Variant.mentioned_relocate f v)

theorem mentioned_relocate (decls : List Decl) :
    mentioned (decls.map (Decl.relocate f)) = mentioned decls := by
  rw [mentioned, mentioned, List.flatMap_map]
  exact List.flatMap_congr fun d _ => Decl.mentioned_relocate f d

theorem lastVersion_relocate (decls : List Decl) :
    lastVersion (decls.map (Decl.relocate f)) = lastVersion decls := by
  rw [lastVersion, lastVersion, mentioned_relocate, List.isEmpty_map]

theorem Field.excerpts_relocate (version : Int) (l : Lifetime) (fs : List Field) :
    Field.excerpts version l (fs.map (Field.relocate f)) =
      (Field.excerpts version l fs).map (Field.relocate f) := by
  simp only [Field.excerpts, List.filter_map, List.map_map, Function.comp_def,
    Field.lifetime_relocate]
  rfl

theorem Payload.excerpt_relocate (version : Int) (l : Lifetime) (p : Payload) :
    (p.relocate f).excerpt version l = (p.excerpt version l).relocate f := by
  cases p with
  | struct fs => exact congrArg struct (Field.excerpts_relocate f version l fs)
  | _ => rfl

theorem Variant.excerpt_relocate (version : Int) (l : Lifetime) (v : Variant) :
    (v.relocate f).excerpt version l = (v.excerpt version l).relocate f := by
  have inner : (v.relocate f).payload.excerpt version (v.lifetime l) = _ :=
    Payload.excerpt_relocate f version (v.lifetime l) v.payload
  rw [excerpt, lifetime_relocate, inner]
  rfl

theorem Body.excerpt_relocate (version : Int) (l : Lifetime) (b : Body) :
    (b.relocate f).excerpt version l = (b.excerpt version l).relocate f := by
  cases b with
  | record node fs => exact congrArg (record node) (Field.excerpts_relocate f version l fs)
  | enum vs =>
      refine congrArg enum ?_
      simp only [Variant.excerpts, List.filter_map, List.map_map, Function.comp_def,
        Variant.lifetime_relocate, Variant.excerpt_relocate]

theorem Decl.excerpt_relocate (version : Int) (d : Decl) :
    (d.relocate f).excerpt version = (d.excerpt version).relocate f := by
  have inner : (d.relocate f).body.excerpt version d.lifetime = _ :=
    Body.excerpt_relocate f version d.lifetime d.body
  rw [excerpt, lifetime_relocate, inner]
  rfl

theorem excerpt_relocate (version : Int) (decls : List Decl) :
    excerpt version (decls.map (Decl.relocate f)) =
      (excerpt version decls).map (Decl.relocate f) := by
  simp only [excerpt, List.filter_map, List.map_map, Function.comp_def, Decl.lifetime_relocate,
    Decl.excerpt_relocate]

/-! ## Facts -/

theorem Fact.definition_relocate (name : Json) (isNode : Bool) :
    (definition name isNode).relocate f = definition name isNode := by
  unfold definition
  split_ifs <;> rfl

theorem Fact.ofUse_relocate (use : Use) : (ofUse use).relocate f = ofUse (use.relocate f) := by
  unfold ofUse
  change _ = if use.name.canBeLookedUp = true then _ else _
  split_ifs <;> rfl

namespace TypeExpr

theorem targetFacts_relocate (t : TypeExpr) :
    (t.relocate f).targetFacts = t.targetFacts.map (Fact.relocate f) := by
  cases t with
  | primitive kind p => cases kind <;> rfl
  | named name p => exact congrArg (fun fact => [fact]) (Fact.ofUse_relocate f ⟨name, p, true⟩).symm
  | _ => rfl

mutual

theorem facts_relocate : (t : TypeExpr) →
    (t.relocate f).facts = t.facts.map (Fact.relocate f)
  | .primitive kind p => by cases kind <;> rfl
  | .named name p =>
      congrArg (fun fact => [fact]) (Fact.ofUse_relocate f ⟨name, p, false⟩).symm
  | .optional inner _ => by simp only [relocate, facts, facts_relocate inner]
  | .reference inner _ => by simp only [relocate, facts, targetFacts_relocate f inner]
  | .array inner _ _ => by simp only [relocate, facts, facts_relocate inner]
  | .slice inner _ => by simp only [relocate, facts, facts_relocate inner]
  | .tuple items _ => by simp only [relocate, facts, factsOfAll_relocate items]

theorem factsOfAll_relocate : (items : List TypeExpr) →
    factsOfAll (relocateItems f items) = (factsOfAll items).map (Fact.relocate f)
  | [] => rfl
  | item :: items => by
      simp only [relocateItems, factsOfAll, facts_relocate item, factsOfAll_relocate items,
        List.map_append]

end
end TypeExpr

theorem Fact.ofFields_relocate (fs : List Field) :
    ofFields (fs.map (Field.relocate f)) = (ofFields fs).map (Fact.relocate f) := by
  rw [ofFields, ofFields, List.flatMap_map, List.map_flatMap]
  exact List.flatMap_congr fun x _ => TypeExpr.facts_relocate f x.type

theorem Variant.innerFacts_relocate (v : Variant) :
    (v.relocate f).innerFacts = v.innerFacts.map (Fact.relocate f) := by
  obtain ⟨name, payload, header, position⟩ := v
  cases payload with
  | unit => rfl
  | int n => rfl
  | tuple types =>
      have all := TypeExpr.factsOfAll_relocate f types
      rw [TypeExpr.relocateItems_eq_map] at all
      exact all
  | struct fs => exact Fact.ofFields_relocate f fs

theorem Numbering.takenBy_relocate (vs : List Variant) :
    takenBy (vs.map (Variant.relocate f)) = takenBy vs := by
  induction vs with
  | nil => rfl
  | cons v further ih =>
      obtain ⟨name, payload, header, position⟩ := v
      cases payload with
      | int n => rfl
      | unit => exact congrArg (Option.map (· + 1)) ih
      | tuple types => exact ih
      | struct fs => exact ih

theorem Variant.orderCheck_relocate (enumName : Json) (version : Int) (before : List Variant)
    (v : Variant) :
    orderCheck enumName version (before.map (relocate f)) (v.relocate f) =
      (orderCheck enumName version before v).map (Diagnostic.relocate f) := by
  obtain ⟨name, payload, header, position⟩ := v
  cases payload with
  | int n =>
      simp only [orderCheck, relocate, Payload.relocate, Located.relocate, ← List.map_reverse,
        Numbering.takenBy_relocate]
      split_ifs <;> rfl
  | _ => rfl

theorem Variant.factsBehind_relocate (enumName : Json) (version : Int) (before : List Variant)
    (v : Variant) :
    factsBehind enumName version (before.map (relocate f)) (v.relocate f) =
      (factsBehind enumName version before v).map (Fact.relocate f) := by
  rw [factsBehind, factsBehind, orderCheck_relocate, innerFacts_relocate]
  cases orderCheck enumName version before v <;> rfl

theorem Decl.orderedFacts_relocate (version : Int) (d : Decl) :
    (d.relocate f).orderedFacts version = (d.orderedFacts version).map (Fact.relocate f) := by
  have own : Fact.definition (d.relocate f).name (d.relocate f).isNode =
      (Fact.definition d.name d.isNode).relocate f := by
    rw [isNode_relocate, Fact.definition_relocate]
    rfl
  rw [orderedFacts, orderedFacts, own, List.map_cons]
  refine congrArg (_ :: ·) ?_
  obtain ⟨name, body, header, position⟩ := d
  cases body with
  | record node fs => exact Fact.ofFields_relocate f fs
  | enum vs => exact checksAfter_map (Variant.factsBehind_relocate f name version) [] vs

/-! ## The checks of facts -/

namespace References

theorem judge_relocate (isNode : Bool) (use : Use) :
    judge isNode (use.relocate f) = (judge isNode use).mapError (Rejection.relocate f) := by
  obtain ⟨name, position, inReference⟩ := use
  cases isNode <;> cases inReference <;> rfl

theorem definitionAmong_relocate (facts : List Fact) (key : Json) :
    definitionAmong (facts.map (Fact.relocate f)) key = definitionAmong facts key := by
  have same : Fact.definitionOf key ∘ Fact.relocate f = Fact.definitionOf key := by
    funext fact
    cases fact <;> rfl
  rw [definitionAmong, definitionAmong, ← List.map_reverse, List.findSome?_map, same]

theorem usesAmong_relocate (facts : List Fact) (key : Json) :
    usesAmong (facts.map (Fact.relocate f)) key = (usesAmong facts key).map (Use.relocate f) := by
  have same (fact : Fact) :
      (fact.relocate f).useOf key = (fact.useOf key).map (Use.relocate f) := by
    cases fact with
    | uses use =>
        by_cases own : use.name.key = key <;> simp [Fact.relocate, Fact.useOf, Use.relocate, own]
    | _ => rfl
  rw [usesAmong, usesAmong, List.filterMap_map, List.map_filterMap]
  exact List.filterMap_congr fun fact _ => same fact

theorem factChecks_relocate (before : List Fact) (fact : Fact) :
    factChecks (before.map (Fact.relocate f)) (fact.relocate f) =
      (factChecks before fact).map (Option.map (Rejection.relocate f)) := by
  cases fact with
  | fault r => rfl
  | uses use =>
      have judged (isNode : Bool) : fault? (judge isNode (use.relocate f)) =
          (fault? (judge isNode use)).map (Rejection.relocate f) := by
        rw [judge_relocate, fault?_mapError]
      have own : definitionAmong (before.map (Fact.relocate f)) (use.relocate f).name.key =
          definitionAmong before use.name.key := definitionAmong_relocate f before use.name.key
      simp only [Fact.relocate, factChecks, own, List.map_cons, List.map_nil]
      cases definitionAmong before use.name.key with
      | none => rfl
      | some isNode => exact congrArg (fun check => [check]) (judged isNode)
  | defines name isNode =>
      simp only [Fact.relocate, factChecks, definitionAmong_relocate, usesAmong_relocate,
        List.map_map, Function.comp_def, judge_relocate, fault?_mapError]
      split_ifs
      · rfl
      · rw [List.map_map]
        rfl

theorem danglingCheck_relocate (version : Int) (facts : List Fact) (fact : Fact) :
    danglingCheck version (facts.map (Fact.relocate f)) (fact.relocate f) =
      (danglingCheck version facts fact).map (Rejection.relocate f) := by
  cases fact with
  | uses use =>
      simp only [Fact.relocate, danglingCheck, definitionAmong_relocate, Use.relocate]
      split_ifs <;> rfl
  | _ => rfl

theorem checksOf_relocate (version : Int) (facts : List Fact) :
    checksOf version (facts.map (Fact.relocate f)) =
      (checksOf version facts).map (Option.map (Rejection.relocate f)) := by
  have walked := checksAfter_map (factChecks_relocate f) [] facts
  rw [List.map_nil] at walked
  simp only [checksOf, walked, List.map_append, List.map_map, Function.comp_def,
    danglingCheck_relocate]

end References

end
end SchemaHistory
