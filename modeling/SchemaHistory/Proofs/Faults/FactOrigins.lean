import SchemaHistory.Proofs.Faults.Origins

/-! # Where the rejections of references come from

The facts of an expression come from its occurrences (`Fact.ComesFrom`), and so does everything that
is wrong with the references of a version, except for discriminants.  `VersionOrigin` lists what may
be wrong with a version whose names are texts, and `mem_versionChecks` says that it is nothing else.
So a schema with text names is rejected with a diagnostic, or not at all
(`Compiled.origin_of_rejected`). -/
set_option autoImplicit false
namespace SchemaHistory

/-! ## Facts of expressions -/

/-- An occurrence that is rejected by itself, whatever is declared. -/
inductive TypeExpr.Refused : Rejection → Bool × TypeExpr → Prop
  | name {inReference : Bool} {name : Json} {p : Option Position}
      (unknown : ¬name.canBeLookedUp = true) : Refused .unusableName (inReference, .named name p)
  | target {t : TypeExpr} (notAny : ¬t.IsAny) (notNamed : ¬t.IsNamed) :
      Refused (.diagnostic ⟨.referenceToExpression, t.position⟩) (true, t)
  | any {p : Option Position} : Refused (.diagnostic ⟨.bareAny, p⟩) (false, .primitive .any p)

def Fact.ComesFrom (occurrences : List (Bool × TypeExpr)) : Fact → Prop
  | .defines _ _ => False
  | .uses use => (use.inReference, .named use.name use.position) ∈ occurrences
  | .fault r => ∃ o ∈ occurrences, TypeExpr.Refused r o

namespace Fact
variable {occurrences more : List (Bool × TypeExpr)} {fact : Fact}

theorem ComesFrom.mono (subset : occurrences ⊆ more) (comes : fact.ComesFrom occurrences) :
    fact.ComesFrom more := by
  cases fact with
  | defines name isNode => exact comes
  | uses use => exact subset comes
  | fault r =>
      obtain ⟨o, member, refused⟩ := comes
      exact ⟨o, subset member, refused⟩

theorem comesFrom_ofUse (use : Use)
    (member : (use.inReference, .named use.name use.position) ∈ occurrences) :
    (ofUse use).ComesFrom occurrences := by
  unfold ofUse
  split_ifs with known
  · exact member
  · exact ⟨_, member, .name known⟩

end Fact

namespace TypeExpr

theorem targetFacts_comeFrom (t : TypeExpr) :
    ∀ fact ∈ t.targetFacts, fact.ComesFrom ((true, t) :: t.inside) := by
  intro fact member
  have other (notAny : ¬t.IsAny) (notNamed : ¬t.IsNamed)
      (same : fact = .wrong .referenceToExpression t.position) :
      fact.ComesFrom ((true, t) :: t.inside) := by
    subst same
    exact ⟨_, List.mem_cons_self, .target notAny notNamed⟩
  cases t with
  | named name p =>
      cases List.mem_singleton.mp member
      exact Fact.comesFrom_ofUse ⟨name, p, true⟩ List.mem_cons_self
  | primitive kind p =>
      cases kind with
      | any => cases member
      | _ =>
          exact other (fun ⟨q, same⟩ => nomatch same) (fun ⟨name, q, same⟩ => nomatch same)
            (List.mem_singleton.mp member)
  | _ =>
      exact other (fun ⟨q, same⟩ => nomatch same) (fun ⟨name, q, same⟩ => nomatch same)
        (List.mem_singleton.mp member)

mutual

theorem facts_comeFrom : (t : TypeExpr) → ∀ fact ∈ t.facts, fact.ComesFrom t.occurrences
  | .primitive kind p => by
      intro fact member
      cases kind with
      | any =>
          cases List.mem_singleton.mp member
          exact ⟨_, List.mem_cons_self, .any⟩
      | _ => cases member
  | .named name p => by
      intro fact member
      cases List.mem_singleton.mp member
      exact Fact.comesFrom_ofUse ⟨name, p, false⟩ List.mem_cons_self
  | .optional inner _ => fun fact member =>
      (facts_comeFrom inner fact member).mono (List.subset_cons_self _ _)
  | .reference inner _ => fun fact member =>
      (targetFacts_comeFrom inner fact member).mono (List.subset_cons_self _ _)
  | .array inner _ _ => fun fact member =>
      (facts_comeFrom inner fact member).mono (List.subset_cons_self _ _)
  | .slice inner _ => fun fact member =>
      (facts_comeFrom inner fact member).mono (List.subset_cons_self _ _)
  | .tuple items _ => fun fact member =>
      (factsOfAll_comeFrom items fact member).mono (List.subset_cons_self _ _)

theorem factsOfAll_comeFrom : (items : List TypeExpr) →
    ∀ fact ∈ factsOfAll items, fact.ComesFrom (insideAll items)
  | [] => fun fact member => nomatch member
  | item :: items => by
      intro fact member
      rcases List.mem_append.mp member with own | later
      · exact (facts_comeFrom item fact own).mono (List.subset_append_left _ _)
      · exact (factsOfAll_comeFrom items fact later).mono (List.subset_append_right _ _)

end

theorem occurrence_of_insideAll {items : List TypeExpr} {o : Bool × TypeExpr}
    (member : o ∈ insideAll items) : ∃ t ∈ items, o ∈ t.occurrences := by
  induction items with
  | nil => cases member
  | cons item items ih =>
      rcases List.mem_append.mp member with own | later
      · exact ⟨item, List.mem_cons_self, own⟩
      · obtain ⟨t, inside, occurs⟩ := ih later
        exact ⟨t, List.mem_cons_of_mem _ inside, occurs⟩

theorem name_of_here {mark other : Bool} {name : Json} {p : Option Position} {t : TypeExpr}
    (deeper : (mark, .named name p) ∈ t.inside → name ∈ t.names)
    (member : (mark, .named name p) ∈ (other, t) :: t.inside) : name ∈ t.names := by
  rcases List.mem_cons.mp member with same | inside
  · cases same
    exact List.mem_cons_self
  · exact deeper inside

mutual

theorem name_of_inside {mark : Bool} {name : Json} {p : Option Position} : (t : TypeExpr) →
    (mark, .named name p) ∈ t.inside → name ∈ t.names
  | .primitive _ _ => nofun
  | .named _ _ => nofun
  | .optional inner _ => name_of_here (name_of_inside inner)
  | .reference inner _ => name_of_here (name_of_inside inner)
  | .array inner _ _ => name_of_here (name_of_inside inner)
  | .slice inner _ => name_of_here (name_of_inside inner)
  | .tuple items _ => name_of_insideAll items

theorem name_of_insideAll {mark : Bool} {name : Json} {p : Option Position} :
    (items : List TypeExpr) → (mark, .named name p) ∈ insideAll items → name ∈ namesOfAll items
  | [] => nofun
  | item :: items => by
      intro member
      rcases List.mem_append.mp member with own | later
      · exact List.mem_append_left _ (name_of_here (name_of_inside item) own)
      · exact List.mem_append_right _ (name_of_insideAll items later)

end

theorem name_of_occurrence {mark : Bool} {name : Json} {p : Option Position} (t : TypeExpr)
    (member : (mark, .named name p) ∈ t.occurrences) : name ∈ t.names :=
  name_of_here (name_of_inside t) member

end TypeExpr

/-! ## Facts of a version -/

def occurrencesIn (ts : List TypeExpr) : List (Bool × TypeExpr) := ts.flatMap TypeExpr.occurrences

theorem Fact.ofFields_comeFrom (fs : List Field) :
    ∀ fact ∈ ofFields fs, fact.ComesFrom (occurrencesIn (fs.map Field.type)) := by
  intro fact member
  obtain ⟨f, inside, own⟩ := List.mem_flatMap.mp member
  refine (TypeExpr.facts_comeFrom f.type fact own).mono fun o occurs => ?_
  exact List.mem_flatMap.mpr ⟨f.type, List.mem_map_of_mem inside, occurs⟩

theorem Variant.innerFacts_comeFrom (v : Variant) :
    ∀ fact ∈ v.innerFacts, fact.ComesFrom (occurrencesIn v.expressions) := by
  unfold innerFacts expressions
  cases v.payload with
  | tuple types =>
      intro fact member
      refine (TypeExpr.factsOfAll_comeFrom types fact member).mono fun o inside => ?_
      exact List.mem_flatMap.mpr (TypeExpr.occurrence_of_insideAll inside)
  | struct fs => exact Fact.ofFields_comeFrom fs
  | _ => exact List.forall_mem_nil _

/-- A discriminant does not exceed what the variants in front of it have taken. -/
def OutOfOrder (vs : List Variant) (v : Variant) (n : Located Nat) : Prop :=
  ∃ before after taken, vs = before ++ v :: after ∧ v.payload = .int n ∧
    Numbering.takenBy before.reverse = some taken ∧ n.value ≤ taken

theorem Variant.orderCheck_eq_some {enumName : Json} {version : Int} {before : List Variant}
    {v : Variant} {diagnostic : Diagnostic}
    (found : orderCheck enumName version before v = some diagnostic) :
    ∃ n taken, v.payload = .int n ∧ Numbering.takenBy before.reverse = some taken ∧
      n.value ≤ taken ∧ diagnostic = ⟨.discriminantOrder enumName v.name version, n.position⟩ := by
  unfold orderCheck at found
  split at found
  · rename_i n payload
    split_ifs at found with exceeds
    cases found
    cases taken : Numbering.takenBy before.reverse with
    | none =>
        rw [taken] at exceeds
        exact absurd rfl exceeds
    | some m =>
        rw [taken] at exceeds
        have above : ¬m < n.value := fun above => exceeds (decide_eq_true above)
        exact ⟨n, m, payload, rfl, not_lt.mp above, rfl⟩
  · cases found

theorem Decl.mem_orderedFacts {version : Int} {d : Decl} {fact : Fact}
    (member : fact ∈ d.orderedFacts version) :
    fact = .definition d.name d.isNode ∨
      (∃ v n, OutOfOrder d.variants v n ∧
        fact = .wrong (.discriminantOrder d.name v.name version) n.position) ∨
      fact.ComesFrom (occurrencesIn d.expressions) := by
  rcases List.mem_cons.mp member with own | inner
  · exact .inl own
  refine .inr ?_
  obtain ⟨name, body, header, position⟩ := d
  cases body with
  | record node fs =>
      refine .inr ((Fact.ofFields_comeFrom fs fact inner).mono ?_)
      exact fun o occurs => by simpa [expressions, fields, variants] using occurs
  | enum vs =>
      obtain ⟨before, v, after, rfl, found⟩ := mem_checksAfter.mp inner
      unfold Variant.factsBehind at found
      split at found
      · refine .inr ((Variant.innerFacts_comeFrom v fact found).mono fun o occurs => ?_)
        obtain ⟨t, carried, occurs⟩ := List.mem_flatMap.mp occurs
        have variant : v ∈ before ++ v :: after := List.mem_append_right _ List.mem_cons_self
        exact List.mem_flatMap.mpr ⟨t, List.mem_append_right _
          (List.mem_flatMap.mpr ⟨v, variant, carried⟩), occurs⟩
      · rename_i diagnostic check
        obtain ⟨n, taken, payload, inFront, low, rfl⟩ := Variant.orderCheck_eq_some check
        exact .inl ⟨v, n, ⟨before, after, taken, rfl, payload, inFront, low⟩,
          List.mem_singleton.mp found⟩

/-! ## What the checks of facts find -/

namespace References

theorem exists_of_definitionAmong {facts : List Fact} {key : Json} {isNode : Bool}
    (found : definitionAmong facts key = some isNode) :
    ∃ name, .defines name isNode ∈ facts ∧ name.key = key := by
  obtain ⟨fact, member, own⟩ := List.exists_of_findSome?_eq_some found
  cases fact with
  | defines name other =>
      rw [Fact.definitionOf] at own
      split_ifs at own with same
      cases own
      exact ⟨name, List.mem_reverse.mp member, same⟩
  | uses use => cases own
  | fault r => cases own

theorem judge_eq_error {isNode : Bool} {use : Use} {r : Rejection}
    (rejected : judge isNode use = .error r) :
    (isNode = true ∧ use.inReference = false ∧ r = .diagnostic ⟨.bareNode, use.position⟩) ∨
      (isNode = false ∧ use.inReference = true ∧
        r = .diagnostic ⟨.referenceToValue, use.position⟩) := by
  obtain ⟨name, position, inReference⟩ := use
  cases isNode <;> cases inReference <;> cases rejected
  · exact .inr ⟨rfl, rfl, rfl⟩
  · exact .inl ⟨rfl, rfl, rfl⟩

theorem mem_of_usesAmong {facts : List Fact} {key : Json} {use : Use}
    (member : use ∈ usesAmong facts key) : .uses use ∈ facts ∧ use.name.key = key := by
  obtain ⟨fact, inside, own⟩ := List.mem_filterMap.mp member
  cases fact with
  | uses other =>
      rw [Fact.useOf] at own
      split_ifs at own with same
      cases own
      exact ⟨inside, same⟩
  | defines name isNode => cases own
  | fault r => cases own

def Misfit (facts : List Fact) (r : Rejection) : Prop :=
  ∃ use name isNode, .uses use ∈ facts ∧ .defines name isNode ∈ facts ∧
    name.key = use.name.key ∧ judge isNode use = .error r

theorem Misfit.mono {facts more : List Fact} {r : Rejection} (subset : facts ⊆ more)
    (misfit : Misfit facts r) : Misfit more r := by
  obtain ⟨use, name, isNode, uses, defines, rest⟩ := misfit
  exact ⟨use, name, isNode, subset uses, subset defines, rest⟩

/-- A use is held against the definition in front of it, a definition against the uses there. -/
theorem mem_factChecks {before : List Fact} {fact : Fact} {r : Rejection}
    (found : some r ∈ factChecks before fact) : fact = .fault r ∨ Misfit (fact :: before) r := by
  cases fact with
  | fault other =>
      cases List.mem_singleton.mp found
      exact .inl rfl
  | uses use =>
      obtain ⟨isNode, defined, judged⟩ :=
        Option.bind_eq_some_iff.mp (List.mem_singleton.mp found).symm
      obtain ⟨name, member, same⟩ := exists_of_definitionAmong defined
      exact .inr ⟨use, name, isNode, List.mem_cons_self, List.mem_cons_of_mem _ member, same,
        fault?_eq_some_iff.mp judged⟩
  | defines name isNode =>
      rw [factChecks] at found
      split_ifs at found with known
      · cases found
      · obtain ⟨use, member, judged⟩ := List.mem_map.mp found
        obtain ⟨uses, same⟩ := mem_of_usesAmong member
        exact .inr ⟨use, name, isNode, List.mem_cons_of_mem _ uses, List.mem_cons_self, same.symm,
          fault?_eq_some_iff.mp judged⟩

theorem danglingCheck_eq_some {version : Int} {facts : List Fact} {fact : Fact} {r : Rejection}
    (found : danglingCheck version facts fact = some r) :
    ∃ use, fact = .uses use ∧ definitionAmong facts use.name.key = none ∧
      r = missing version use := by
  cases fact with
  | uses use =>
      rw [danglingCheck] at found
      split_ifs at found with known
      cases found
      exact ⟨use, rfl, Option.not_isSome_iff_eq_none.mp known, rfl⟩
  | defines name isNode => cases found
  | fault other => cases found

/-- What is wrong with facts: a fault among them, a use that does not fit a definition, or a use
without any. -/
theorem mem_checksOf {version : Int} {facts : List Fact} {r : Rejection}
    (found : some r ∈ checksOf version facts) :
    .fault r ∈ facts ∨ Misfit facts r ∨
      ∃ use, .uses use ∈ facts ∧ definitionAmong facts use.name.key = none ∧
        r = missing version use := by
  rcases List.mem_append.mp found with walked | dangling
  · obtain ⟨before, fact, after, rfl, own⟩ := mem_checksAfter.mp walked
    have here : fact ∈ before ++ fact :: after := List.mem_append_right _ List.mem_cons_self
    have seen : fact :: before ⊆ before ++ fact :: after :=
      List.cons_subset.mpr ⟨here, List.subset_append_left _ _⟩
    rcases mem_factChecks own with rfl | misfit
    · exact .inl here
    · exact .inr (.inl (misfit.mono seen))
  · obtain ⟨fact, member, own⟩ := List.mem_map.mp dangling
    obtain ⟨use, rfl, undefined, same⟩ := danglingCheck_eq_some own
    exact .inr (.inr ⟨use, member, undefined, same⟩)

end References

/-! ## What is wrong with a version -/

def Occurs (schema : List Decl) (o : Bool × TypeExpr) : Prop :=
  ∃ d ∈ schema, ∃ t ∈ d.expressions, o ∈ t.occurrences

/-- An occurrence that breaks a rule about references, where `declared` says which names stand for
nodes and which ones for other types. -/
inductive TypeExpr.Offends (declared : Json → Bool → Prop) : Cause → Bool × TypeExpr → Prop
  | bareNode {name : Json} {p : Option Position} (node : declared name true) :
      Offends declared .bareNode (false, .named name p)
  | referenceToValue {name : Json} {p : Option Position} (value : declared name false) :
      Offends declared .referenceToValue (true, .named name p)
  | referenceToExpression {t : TypeExpr} (notAny : ¬t.IsAny) (notNamed : ¬t.IsNamed) :
      Offends declared .referenceToExpression (true, t)
  | bareAny {p : Option Position} : Offends declared .bareAny (false, .primitive .any p)

inductive VersionOrigin (version : Int) (schema : List Decl) : Diagnostic → Prop
  | empty (nothing : schema = []) : VersionOrigin version schema ⟨.emptyVersion version, none⟩
  | order {d : Decl} {v : Variant} {n : Located Nat} (declared : d ∈ schema)
      (outOfOrder : OutOfOrder d.variants v n) :
      VersionOrigin version schema ⟨.discriminantOrder d.name v.name version, n.position⟩
  | missing {inReference : Bool} {name : Json} {p : Option Position}
      (occurs : Occurs schema (inReference, .named name p))
      (undeclared : ∀ isNode, ¬Declares schema name isNode) :
      VersionOrigin version schema ⟨.missingType name version, p⟩
  | kind {cause : Cause} {o : Bool × TypeExpr} (occurs : Occurs schema o)
      (offends : TypeExpr.Offends (Declares schema) cause o) :
      VersionOrigin version schema ⟨cause, o.2.position⟩

section
variable {version : Int} {schema : List Decl} (texts : HasTextNames schema)
include texts

theorem isText_of_occurs {mark : Bool} {name : Json} {p : Option Position}
    (occurs : Occurs schema (mark, .named name p)) : name.isText = true := by
  obtain ⟨d, declared, t, expression, member⟩ := occurs
  exact (texts d declared).used t expression name (TypeExpr.name_of_occurrence t member)

/-- The definitions among the facts are those of the types. -/
theorem declares_of_defines {name : Json} {isNode : Bool}
    (member : .defines name isNode ∈ schema.flatMap (Decl.orderedFacts version)) :
    Declares schema name isNode := by
  obtain ⟨d, declared, own⟩ := List.mem_flatMap.mp member
  rcases Decl.mem_orderedFacts own with same | ⟨v, n, -, same⟩ | comes
  · rw [Fact.definition, if_pos (Json.canBeLookedUp_of_isText (texts d declared).own)] at same
    cases same
    exact ⟨d, declared, rfl, rfl⟩
  · cases same
  · exact absurd comes id

theorem occurs_of_uses {use : Use}
    (member : .uses use ∈ schema.flatMap (Decl.orderedFacts version)) :
    Occurs schema (use.inReference, .named use.name use.position) := by
  obtain ⟨d, declared, own⟩ := List.mem_flatMap.mp member
  rcases Decl.mem_orderedFacts own with same | ⟨v, n, -, same⟩ | comes
  · rw [Fact.definition, if_pos (Json.canBeLookedUp_of_isText (texts d declared).own)] at same
    cases same
  · cases same
  · obtain ⟨t, expression, occurs⟩ := List.mem_flatMap.mp comes
    exact ⟨d, declared, t, expression, occurs⟩

theorem origin_of_fault {r : Rejection}
    (member : .fault r ∈ schema.flatMap (Decl.orderedFacts version)) :
    ∃ diagnostic, r = .diagnostic diagnostic ∧ VersionOrigin version schema diagnostic := by
  obtain ⟨d, declared, own⟩ := List.mem_flatMap.mp member
  rcases Decl.mem_orderedFacts own with same | ⟨v, n, outOfOrder, same⟩ | comes
  · rw [Fact.definition, if_pos (Json.canBeLookedUp_of_isText (texts d declared).own)] at same
    cases same
  · cases same
    exact ⟨_, rfl, .order declared outOfOrder⟩
  · obtain ⟨o, member, refused⟩ := comes
    obtain ⟨t, expression, occurs⟩ := List.mem_flatMap.mp member
    have place : Occurs schema o := ⟨d, declared, t, expression, occurs⟩
    cases refused with
    | name unknown =>
        exact absurd (Json.canBeLookedUp_of_isText (isText_of_occurs texts place)) unknown
    | target notAny notNamed => exact ⟨_, rfl, .kind place (.referenceToExpression notAny notNamed)⟩
    | any => exact ⟨_, rfl, .kind place .bareAny⟩

/-- The checks of a version with text names find nothing else. -/
theorem mem_versionChecks {r : Rejection} (found : some r ∈ versionChecks version schema) :
    ∃ diagnostic, r = .diagnostic diagnostic ∧ VersionOrigin version schema diagnostic := by
  rcases List.mem_cons.mp found with empty | found
  · split_ifs at empty with nothing
    cases empty
    exact ⟨_, rfl, .empty (List.isEmpty_iff.mp nothing)⟩
  rcases References.mem_checksOf found with fault |
    ⟨use, name, isNode, uses, defines, same, judged⟩ | ⟨use, uses, undefined, rfl⟩
  · exact origin_of_fault texts fault
  · have occurs := occurs_of_uses texts uses
    have declared := declares_of_defines texts defines
    have text := isText_of_occurs texts occurs
    -- a text is its own key, so the use and the definition have the same name
    rw [Json.key_of_isText text] at same
    obtain rfl := Json.eq_of_key_eq text same
    rcases References.judge_eq_error judged with ⟨rfl, bare, rfl⟩ | ⟨rfl, inside, rfl⟩
    · rw [bare] at occurs
      exact ⟨_, rfl, .kind occurs (.bareNode declared)⟩
    · rw [inside] at occurs
      exact ⟨_, rfl, .kind occurs (.referenceToValue declared)⟩
  · refine ⟨_, rfl, .missing (occurs_of_uses texts uses) ?_⟩
    rintro isNode ⟨d, declared, own, node⟩
    have defines : Fact.defines use.name isNode ∈ schema.flatMap (Decl.orderedFacts version) := by
      refine List.mem_flatMap.mpr ⟨d, declared, List.mem_cons.mpr (.inl ?_)⟩
      rw [Fact.definition, if_pos (Json.canBeLookedUp_of_isText (texts d declared).own), own, node]
    have known := References.definitionAmong_of_mem defines
    rw [undefined] at known
    cases known

end

namespace Compiled

/-- A schema whose names are texts is rejected with a diagnostic of an item or of a version. -/
theorem origin_of_rejected {limit : Int} {decls : List Decl} {r : Rejection}
    (texts : HasTextNames decls) (rejected : ofDeclarations limit decls = .error r) :
    ∃ diagnostic, r = .diagnostic diagnostic ∧ (ItemOrigin limit decls diagnostic ∨
      ∃ version, VersionOrigin version (excerpt version decls) diagnostic) := by
  have first : firstFault (checks limit decls) = some r := by
    rw [← fault?_ofDeclarations, fault?_eq_some_iff]
    exact rejected
  have found := mem_of_firstFault first
  rcases List.mem_append.mp found with item | found
  · obtain ⟨check, member, own⟩ := List.mem_map.mp item
    obtain ⟨diagnostic, rfl, rfl⟩ := Option.map_eq_some_iff.mp own
    exact ⟨diagnostic, rfl, .inl (mem_itemChecks member)⟩
  rcases List.mem_append.mp found with inVersion | exported
  · obtain ⟨version, -, own⟩ := List.mem_flatMap.mp inVersion
    obtain ⟨diagnostic, rfl, origin⟩ := mem_versionChecks texts.excerpt own
    exact ⟨diagnostic, rfl, .inr ⟨version, origin⟩⟩
  · have all : ((versionsOf decls).all fun version =>
        (excerpt version decls).all Decl.isExportable) = true :=
      List.all_eq_true.mpr fun version _ => List.all_eq_true.mpr fun d member =>
        (texts.excerpt d member).isExportable
    have exports : exportCheck decls = none := if_pos all
    rw [exports] at exported
    cases List.mem_singleton.mp exported

end Compiled
end SchemaHistory
