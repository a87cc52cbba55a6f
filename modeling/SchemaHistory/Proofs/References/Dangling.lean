import SchemaHistory.Proofs.Excerpt.Picked
import SchemaHistory.Proofs.Faults.FactOrigins
import SchemaHistory.References.Checker

/-! # Dangling references

`usesIn` lists the names that a schema uses in the order in which the checker meets them.  A version
is accepted when everything in it is in order and every use is declared as it is used; and a
dangling reference is reported exactly when everything is in order but for names that are not
declared at all.  Then it is the first of these uses that is reported (`Checker.verdict_iff`).  The
order in which names come into the table does not show: a table entry keeps its place when the
definition arrives, and what is looked for at the end is the first entry without one. -/
set_option autoImplicit false
namespace SchemaHistory

def TypeExpr.use? (o : Bool × TypeExpr) : Option Use :=
  match o.2 with
  | .named name p => some ⟨name, p, o.1⟩
  | _ => none

def TypeExpr.uses (t : TypeExpr) : List Use := t.occurrences.filterMap TypeExpr.use?

def usesIn (schema : List Decl) : List Use :=
  schema.flatMap fun d => d.expressions.flatMap TypeExpr.uses

/-- Discriminants are in order and every occurrence is well placed, where `declared` says which
names stand for nodes and which ones for other types. -/
structure Sound (declared : Json → Bool → Prop) (schema : List Decl) : Prop where
  ordered : ∀ d ∈ schema, Numbering.Ordered d.variants
  placed : ∀ d ∈ schema, ∀ t ∈ d.expressions, ∀ o ∈ t.occurrences,
    TypeExpr.WellPlaced declared o.1 o.2

def FitsDeclared (schema : List Decl) (name : Json) (isNode : Bool) : Prop :=
  ∀ own, Declares schema name own → isNode = own

def Fact.use? : Fact → Option Use
  | .uses use => some use
  | _ => none

/-! ## Well-placed expressions give their uses -/

namespace TypeExpr
variable {declared : Json → Bool → Prop}

theorem targetFacts_of_placed {t : TypeExpr} (texts : t.HasTextNames)
    (placed : WellPlaced declared true t) :
    (targetFacts t).filterMap Fact.use? = ((true, t) :: inside t).filterMap use? := by
  have other (notAny : ¬t.IsAny) (notNamed : ¬t.IsNamed) : False := by
    rcases placed.target rfl with any | named
    · exact notAny any
    · exact notNamed named
  cases t with
  | named name p =>
      have text := texts name (by simp [names])
      simp [targetFacts, Fact.ofUse_text text, Fact.use?, inside, use?]
  | primitive kind p =>
      rw [wellPlaced_primitive] at placed
      obtain rfl := placed.mpr rfl
      rfl
  | _ => exact (other (by simp [IsAny]) (by simp [IsNamed])).elim

theorem uses_cons (mark : Bool) (t : TypeExpr) (rest : List (Bool × TypeExpr)) (h : ¬t.IsNamed) :
    ((mark, t) :: rest).filterMap use? = rest.filterMap use? := by
  have nothing : use? (mark, t) = none := by
    cases t with
    | named name p => exact absurd ⟨name, p, rfl⟩ h
    | _ => rfl
  rw [List.filterMap_cons, nothing]

mutual

theorem facts_uses : (t : TypeExpr) → t.HasTextNames →
    (∀ o ∈ occurrences t, WellPlaced declared o.1 o.2) →
    (facts t).filterMap Fact.use? = t.uses
  | .primitive kind p, _, _ => by
      rw [facts_primitive]
      split_ifs <;> rfl
  | .named name p, texts, _ => by
      have text := texts name (by simp [names])
      simp [facts, Fact.ofUse_text text, Fact.use?, uses, occurrences, inside, use?]
  | .optional inner p, texts, placed => by
      rw [uses, occurrences, uses_cons _ _ _ (by simp [IsNamed])]
      exact facts_uses inner texts (List.forall_mem_cons.mp placed).2
  | .reference inner p, texts, placed => by
      rw [uses, occurrences, uses_cons _ _ _ (by simp [IsNamed])]
      have target := placed (true, inner) (by simp [occurrences, inside])
      exact targetFacts_of_placed texts target
  | .array inner size p, texts, placed => by
      rw [uses, occurrences, uses_cons _ _ _ (by simp [IsNamed])]
      exact facts_uses inner texts (List.forall_mem_cons.mp placed).2
  | .slice inner p, texts, placed => by
      rw [uses, occurrences, uses_cons _ _ _ (by simp [IsNamed])]
      exact facts_uses inner texts (List.forall_mem_cons.mp placed).2
  | .tuple items p, texts, placed => by
      rw [uses, occurrences, uses_cons _ _ _ (by simp [IsNamed])]
      exact factsOfAll_uses items texts (List.forall_mem_cons.mp placed).2

theorem factsOfAll_uses : (ts : List TypeExpr) → (∀ name ∈ namesOfAll ts, name.isText = true) →
    (∀ o ∈ insideAll ts, WellPlaced declared o.1 o.2) →
    (factsOfAll ts).filterMap Fact.use? = (insideAll ts).filterMap use?
  | [], _, _ => rfl
  | item :: items, texts, placed => by
      obtain ⟨own, later⟩ := List.forall_mem_append.mp placed
      have ownTexts : item.HasTextNames :=
        fun name member => texts name (List.mem_append_left _ member)
      have laterTexts : ∀ name ∈ namesOfAll items, name.isText = true :=
        fun name member => texts name (List.mem_append_right _ member)
      rw [factsOfAll, insideAll, List.filterMap_append, List.filterMap_append,
        facts_uses item ownTexts own, factsOfAll_uses items laterTexts later]
      rfl

end
end TypeExpr

section
variable {declared : Json → Bool → Prop}

theorem ofFields_uses {fs : List Field} (texts : ∀ t ∈ fs.map Field.type, t.HasTextNames)
    (placed : ∀ t ∈ fs.map Field.type, ∀ o ∈ t.occurrences,
      TypeExpr.WellPlaced declared o.1 o.2) :
    (Fact.ofFields fs).filterMap Fact.use? = (fs.map Field.type).flatMap TypeExpr.uses := by
  rw [Fact.ofFields, List.filterMap_flatMap, List.flatMap_map]
  refine List.flatMap_congr fun f member => ?_
  have inside : f.type ∈ fs.map Field.type := List.mem_map_of_mem member
  exact TypeExpr.facts_uses f.type (texts _ inside) (placed _ inside)

theorem innerFacts_uses {v : Variant} (texts : ∀ t ∈ v.expressions, t.HasTextNames)
    (placed : ∀ t ∈ v.expressions, ∀ o ∈ t.occurrences, TypeExpr.WellPlaced declared o.1 o.2) :
    v.innerFacts.filterMap Fact.use? = v.expressions.flatMap TypeExpr.uses := by
  unfold Variant.innerFacts
  unfold Variant.expressions at texts placed ⊢
  cases payload : v.payload with
  | unit => rfl
  | int discriminant => rfl
  | tuple ts =>
      rw [payload] at texts placed
      dsimp only
      rw [TypeExpr.factsOfAll_eq_flatMap, List.filterMap_flatMap]
      exact List.flatMap_congr fun t member =>
        TypeExpr.facts_uses t (texts t member) (placed t member)
  | struct fs =>
      rw [payload] at texts placed
      exact ofFields_uses texts placed

theorem plainFacts_uses {d : Decl} (texts : d.HasTextNames)
    (placed : ∀ t ∈ d.expressions, ∀ o ∈ t.occurrences, TypeExpr.WellPlaced declared o.1 o.2) :
    d.plainFacts.filterMap Fact.use? = d.expressions.flatMap TypeExpr.uses := by
  obtain ⟨fields, variants⟩ := List.forall_mem_append.mp placed
  obtain ⟨fieldTexts, variantTexts⟩ := List.forall_mem_append.mp texts.used
  rw [List.forall_mem_flatMap] at variants variantTexts
  have defined : (Fact.definition d.name d.isNode).use? = none := by
    rw [Fact.definition, if_pos (Json.canBeLookedUp_of_isText texts.own)]
    rfl
  rw [Decl.plainFacts, List.filterMap_cons, defined, List.filterMap_append,
    ofFields_uses fieldTexts fields, List.filterMap_flatMap, Decl.expressions, List.flatMap_append,
    List.flatMap_assoc]
  refine congrArg _ (List.flatMap_congr fun v member => ?_)
  exact innerFacts_uses (variantTexts v member) (variants v member)

theorem uses_of_placed {schema : List Decl} (texts : HasTextNames schema)
    (placed : ∀ d ∈ schema, ∀ t ∈ d.expressions, ∀ o ∈ t.occurrences,
      TypeExpr.WellPlaced declared o.1 o.2) :
    (schema.flatMap Decl.plainFacts).filterMap Fact.use? = usesIn schema := by
  rw [List.filterMap_flatMap]
  exact List.flatMap_congr fun d member => plainFacts_uses (texts d member) (placed d member)

end

/-! ## The walk and what it leaves to the end -/

namespace References

theorem definitionAmong_isSome_iff {facts : List Fact} {key : Json} :
    (definitionAmong facts key).isSome = true ↔ ∃ isNode, Defines facts key isNode := by
  constructor
  · intro found
    obtain ⟨isNode, found⟩ := Option.isSome_iff_exists.mp found
    exact ⟨isNode, exists_of_definitionAmong found⟩
  · rintro ⟨isNode, name, member, rfl⟩
    exact definitionAmong_of_mem member

/-- The first dangling fact is the first use without a definition. -/
theorem firstFault_dangling (version : Int) (facts rest : List Fact) :
    firstFault (rest.map (danglingCheck version facts)) =
      ((rest.filterMap Fact.use?).find? fun use =>
        (definitionAmong facts use.name.key).isNone).map (missing version) := by
  induction rest with
  | nil => rfl
  | cons fact rest ih =>
      rw [List.map_cons, firstFault_cons, ih]
      cases fact with
      | fault r => rfl
      | defines name isNode => rfl
      | uses use =>
          rw [List.filterMap_cons, Fact.use?]
          cases found : definitionAmong facts use.name.key with
          | some isNode => simp [danglingCheck, found]
          | none => simp [danglingCheck, found]

/-- When the walk gets through the facts, the first use without a definition is reported, if there
is any. -/
theorem settled_error_iff {version : Int} {facts : List Fact} {names : Names} {r : Rejection}
    (walked : stepAll [] facts = .ok names) :
    (stepAll [] facts >>= settle version) = .error r ↔
      ∃ before use after, facts.filterMap Fact.use? = before ++ use :: after ∧
        (∀ isNode, ¬Defines facts use.name.key isNode) ∧
        (∀ u ∈ before, ∃ isNode, Defines facts u.name.key isNode) ∧ r = missing version use := by
  have silent : firstFault (checksAfter factChecks [] facts) = none := by
    rw [← (fault?_stepAll facts known_nil).1, walked]
    rfl
  rw [← fault?_eq_some_iff, fault?_check, checksOf, firstFault_append, silent, Option.none_or,
    firstFault_dangling, Option.map_eq_some_iff]
  simp only [List.find?_eq_some_iff_append, Option.isNone_iff_eq_none, Bool.not_eq_true',
    Option.isNone_eq_false_iff, definitionAmong_isSome_iff, ← Option.not_isSome_iff_eq_none,
    not_exists]
  constructor
  · rintro ⟨use, ⟨undefined, before, after, split, defined⟩, rfl⟩
    exact ⟨before, use, after, split, undefined, defined, rfl⟩
  · rintro ⟨before, use, after, split, undefined, defined, rfl⟩
    exact ⟨use, ⟨undefined, before, after, split, defined⟩, rfl⟩

theorem judged_iff {facts : List Fact} :
    Judged facts ↔ ∀ use, .uses use ∈ facts →
      ∀ isNode, Defines facts use.name.key isNode → use.inReference = isNode := by
  constructor
  · exact fun judged use member isNode defined => judged _ isNode use defined ⟨member, rfl⟩
  · rintro fits key isNode use defined ⟨member, rfl⟩
    exact fits use member isNode defined

end References

section
variable {version : Int} {schema : List Decl} (texts : HasTextNames schema)
include texts

/-- The walk gets through the facts of a schema when everything is in order but for names that are
not declared. -/
theorem walked_iff (types : (schema.map Decl.name).Nodup) :
    (∃ names, References.stepAll [] (schema.flatMap (Decl.facts version)) = .ok names) ↔
      Sound (FitsDeclared schema) schema := by
  have nothing : References.Judged [] := by
    rintro key isNode use ⟨name, member, -⟩
    cases member
  have accepts : (∃ names, References.stepAll [] (schema.flatMap Decl.plainFacts) = .ok names) ↔
      (∀ r, .fault r ∉ schema.flatMap Decl.plainFacts) ∧
        References.Judged (schema.flatMap Decl.plainFacts) :=
    (References.reflects_run References.reflects_nil nothing (distinct_facts texts types)).1
  have holds (d : Decl) (member : d ∈ schema) :
      (∀ fact ∈ d.plainFacts, fact.Holds (FitsDeclared schema)) ↔
        ∀ t ∈ d.expressions, ∀ o ∈ t.occurrences,
          TypeExpr.WellPlaced (FitsDeclared schema) o.1 o.2 :=
    plainFacts_hold_iff (texts d member)
  have judged : (∃ names, References.stepAll [] (schema.flatMap Decl.plainFacts) = .ok names) ↔
      ∀ d ∈ schema, ∀ t ∈ d.expressions, ∀ o ∈ t.occurrences,
        TypeExpr.WellPlaced (FitsDeclared schema) o.1 o.2 := by
    rw [accepts, References.judged_iff, ← forall₂_congr holds, ← List.forall_mem_flatMap,
      Fact.forall_holds_iff]
    simp only [defines_iff_declares texts]
    rfl
  constructor
  · rintro ⟨names, run⟩
    have ordered := ordered_of_run run
    rw [plainFacts_of_ordered ordered] at run
    exact ⟨ordered, judged.mp ⟨names, run⟩⟩
  · intro sound
    rw [plainFacts_of_ordered sound.ordered]
    exact judged.mpr sound.placed

/-- No rejection on the walk is about a dangling reference. -/
theorem category_of_walk {d : Diagnostic}
    (rejected : References.stepAll [] (schema.flatMap (Decl.facts version)) =
      .error (.diagnostic d)) : d.cause.category ≠ .danglingReference := by
  rw [References.stepAll_schemaFacts] at rejected
  have first := (References.fault?_stepAll (schema.flatMap (Decl.orderedFacts version))
    References.known_nil).1
  rw [rejected] at first
  obtain ⟨before, fact, after, split, found⟩ :=
    mem_checksAfter.mp (mem_of_firstFault first.symm)
  rcases References.mem_factChecks found with rfl | ⟨use, name, isNode, -, -, -, judged⟩
  · have member : Fact.fault (.diagnostic d) ∈ schema.flatMap (Decl.orderedFacts version) := by
      rw [split]
      exact List.mem_append_right _ List.mem_cons_self
    obtain ⟨e, declared, own⟩ := List.mem_flatMap.mp member
    rcases Decl.mem_orderedFacts own with same | ⟨v, n, -, same⟩ | ⟨o, -, refused⟩
    · rw [Fact.definition, if_pos (Json.canBeLookedUp_of_isText (texts e declared).own)] at same
      cases same
    · cases same
      simp [Cause.category]
    · cases refused <;> simp [Cause.category]
  · rcases References.judge_eq_error judged with ⟨-, -, same⟩ | ⟨-, -, same⟩ <;>
      cases same <;> simp [Cause.category]

end

/-! ## The verdict -/

section
variable {schema : List Decl} (texts : HasTextNames schema)
include texts

theorem defined_iff_named {name : Json} :
    (∃ isNode, References.Defines (schema.flatMap Decl.plainFacts) name.key isNode) ↔
      name ∈ schema.map Decl.name := by
  simp only [defines_iff_declares texts]
  constructor
  · rintro ⟨isNode, d, member, rfl, -⟩
    exact List.mem_map_of_mem member
  · intro member
    obtain ⟨d, inside, rfl⟩ := List.mem_map.mp member
    exact ⟨d.isNode, d, inside, rfl, rfl⟩

/-- When everything else is in order, the first use of a name that is not declared is reported. -/
theorem reported_iff {version : Int} {d : Diagnostic} (sound : Sound (FitsDeclared schema) schema)
    {names : References.Names}
    (run : References.stepAll [] (schema.flatMap (Decl.facts version)) = .ok names) :
    (References.stepAll [] (schema.flatMap (Decl.facts version)) >>=
        References.settle version) = .error (.diagnostic d) ↔
      ∃ before use after, usesIn schema = before ++ use :: after ∧
        use.name ∉ schema.map Decl.name ∧ (∀ u ∈ before, u.name ∈ schema.map Decl.name) ∧
        d = ⟨.missingType use.name version, use.position⟩ := by
  rw [References.settled_error_iff run, plainFacts_of_ordered sound.ordered,
    uses_of_placed texts sound.placed]
  simp only [← defined_iff_named texts, not_exists, References.missing, Rejection.diagnostic.injEq]

/-- A dangling reference is reported when everything is in order but for names that are not
declared, and then it is the first use of such a name. -/
theorem dangling_iff (version : Int) (types : (schema.map Decl.name).Nodup) (d : Diagnostic) :
    ((References.stepAll [] (schema.flatMap (Decl.facts version)) >>=
        References.settle version) = .error (.diagnostic d) ∧
        d.cause.category = .danglingReference) ↔
      Sound (FitsDeclared schema) schema ∧
        ∃ before use after, usesIn schema = before ++ use :: after ∧
          use.name ∉ schema.map Decl.name ∧ (∀ u ∈ before, u.name ∈ schema.map Decl.name) ∧
          d = ⟨.missingType use.name version, use.position⟩ := by
  constructor
  · rintro ⟨rejected, dangling⟩
    cases run : References.stepAll [] (schema.flatMap (Decl.facts version)) with
    | error r =>
        rw [run] at rejected
        cases rejected
        exact absurd dangling (category_of_walk texts run)
    | ok names =>
        have sound := (walked_iff texts types).mp ⟨names, run⟩
        exact ⟨sound, (reported_iff texts sound run).mp rejected⟩
  · rintro ⟨sound, first⟩
    obtain ⟨names, run⟩ := (walked_iff texts types).mpr sound
    refine ⟨(reported_iff texts sound run).mpr first, ?_⟩
    obtain ⟨before, use, after, -, -, -, rfl⟩ := first
    rfl

end

theorem exists_first {α : Type} {P : α → Prop} {xs : List α} (found : ∃ x ∈ xs, ¬P x) :
    ∃ before x after, xs = before ++ x :: after ∧ ¬P x ∧ ∀ y ∈ before, P y := by
  induction xs with
  | nil => simp at found
  | cons y rest ih =>
      by_cases own : P y
      · obtain ⟨x, member, lacks⟩ := found
        have later : x ∈ rest := by
          rcases List.mem_cons.mp member with rfl | later
          · exact absurd own lacks
          · exact later
        obtain ⟨before, z, after, rfl, first, all⟩ := ih ⟨x, later, lacks⟩
        exact ⟨y :: before, z, after, rfl, first, List.forall_mem_cons.mpr ⟨own, all⟩⟩
      · exact ⟨[], y, rest, rfl, own, List.forall_mem_nil _⟩

namespace Checker

/-- The verdict of a checker on one snapshot, whatever its table holds from snapshots before:
everything is accepted that is in order, where every use is declared as it is used, and a dangling
reference is reported when everything is in order but for names that no type of the version has.
Then it is the first use of such a name that is reported. -/
theorem verdict_iff {c : Checker} {s : Snapshot} (texts : HasTextNames c.decls)
    (valid : s.IsValid c.decls) (types : (s.typeNames c.decls).Nodup) :
    ((c.check s).1 = .ok () ↔ Sound (Declares (s.schema c.decls)) (s.schema c.decls)) ∧
    ((∃ d, (c.check s).1 = .error (.diagnostic d) ∧ d.cause.category = .danglingReference) ↔
      Sound (FitsDeclared (s.schema c.decls)) (s.schema c.decls) ∧
        ∃ use ∈ usesIn (s.schema c.decls), use.name ∉ s.typeNames c.decls) ∧
    ∀ d, (c.check s).1 = .error (.diagnostic d) → d.cause.category = .danglingReference →
      ∃ before use after, usesIn (s.schema c.decls) = before ++ use :: after ∧
        use.name ∉ s.typeNames c.decls ∧ (∀ u ∈ before, u.name ∈ s.typeNames c.decls) ∧
        d = ⟨.missingType use.name s.version, use.position⟩ := by
  have texts := s.schema_texts texts
  rw [← Snapshot.schema_names] at types ⊢
  have dangling := dangling_iff texts s.version types
  have checked : References.check c.decls s = (References.stepAll []
      ((s.schema c.decls).flatMap (Decl.facts s.version)) >>= References.settle s.version) := by
    rw [← Fact.facts_schema valid]
    rfl
  refine ⟨?_, ?_, ?_⟩
  · rw [check_verdict, References.check_eq_ok_iff, Fact.facts_schema valid, resolve_facts_iff,
      resolve_plainFacts_iff texts types]
    constructor
    · rintro ⟨ordered, placed⟩
      exact ⟨ordered, placed⟩
    · rintro ⟨ordered, placed⟩
      exact ⟨ordered, placed⟩
  · rw [check_verdict, checked]
    simp only [dangling]
    constructor
    · rintro ⟨d, sound, before, use, after, split, undeclared, -⟩
      refine ⟨sound, use, ?_, undeclared⟩
      rw [split]
      exact List.mem_append_right _ List.mem_cons_self
    · rintro ⟨sound, undeclared⟩
      obtain ⟨before, use, after, split, first, declared⟩ := exists_first undeclared
      exact ⟨_, sound, before, use, after, split, first, declared, rfl⟩
  · intro d rejected category
    rw [check_verdict, checked] at rejected
    exact ((dangling d).mp ⟨rejected, category⟩).2

/-! ### Orders without their status -/

def statusless : Snapshot := ⟨2, [⟨0, [.plain 2]⟩]⟩

def busy : Checker := ⟨History.orders, [(.str "Status", .defined false)]⟩

theorem verdict_statusless :
    HasTextNames busy.decls ∧ statusless.IsValid busy.decls ∧
      (statusless.typeNames busy.decls).Nodup ∧
      (busy.check statusless).1 = .error (.diagnostic ⟨.missingType (.str "Status") 2, none⟩) ∧
      Sound (FitsDeclared (statusless.schema busy.decls)) (statusless.schema busy.decls) ∧
      ∃ use ∈ usesIn (statusless.schema busy.decls), use.name = .str "Status" := by
  have texts : HasTextNames busy.decls := by decide
  have valid : statusless.IsValid busy.decls := by
    intro slot member
    cases List.mem_singleton.mp member
    refine ⟨_, rfl, fun m listed => ?_⟩
    cases List.mem_singleton.mp listed
    exact .field (by decide)
  have types : (statusless.typeNames busy.decls).Nodup := by decide
  have rejected : (busy.check statusless).1 =
      .error (.diagnostic ⟨.missingType (.str "Status") 2, none⟩) := rfl
  obtain ⟨-, dangling, first⟩ := verdict_iff texts valid types
  obtain ⟨before, use, after, split, -, -, same⟩ := first _ rejected rfl
  have name : use.name = .str "Status" := by
    injection same with cause
    injection cause with name
    exact name.symm
  refine ⟨texts, valid, types, rejected, (dangling.mp ⟨_, rejected, rfl⟩).1, use, ?_, name⟩
  rw [split]
  exact List.mem_append_right _ List.mem_cons_self

end Checker
end SchemaHistory
