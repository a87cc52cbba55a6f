import SchemaHistory.Proofs.Excerpt.Snapshot
import SchemaHistory.Proofs.Faults.Sequence
import SchemaHistory.Proofs.References.Verdict

/-! # The checks of the references in a version

The walk through the facts of a version keeps a table of what it knows of every name.  Here the
table is read off the facts in front: `definitionAmong` and `usesAmong` say what it holds under a
key, and its names stand in the order of the facts (`Known`).  So `factChecks` checks a fact against
the facts in front of it, and `danglingCheck` checks a use against all facts.  The running number of
an enum is replaced in the same way, by the variants in front of a discriminant. -/
set_option autoImplicit false
namespace SchemaHistory

namespace Fact

def key? : Fact → Option Json
  | .defines name _ => some name.key
  | .uses use => some use.name.key
  | .fault _ => none

def definitionOf (key : Json) : Fact → Option Bool
  | .defines name isNode => if name.key = key then some isNode else none
  | _ => none

def useOf (key : Json) : Fact → Option Use
  | .uses use => if use.name.key = key then some use else none
  | _ => none

end Fact

namespace References

def definitionAmong (facts : List Fact) (key : Json) : Option Bool :=
  facts.reverse.findSome? (Fact.definitionOf key)

def usesAmong (facts : List Fact) (key : Json) : List Use := facts.filterMap (Fact.useOf key)

/-- The checks of a fact behind other facts.  A use is judged by the definition in front of it, and
uses in front of the first definition are judged by that one. -/
def factChecks (before : List Fact) : Fact → List (Option Rejection)
  | .fault r => [some r]
  | .uses use =>
    [(definitionAmong before use.name.key).bind fun isNode => fault? (judge isNode use)]
  | .defines name isNode =>
    if (definitionAmong before name.key).isSome then []
    else (usesAmong before name.key).map fun use => fault? (judge isNode use)

def missing (version : Int) (use : Use) : Rejection :=
  .diagnostic ⟨.missingType use.name version, use.position⟩

def danglingCheck (version : Int) (facts : List Fact) : Fact → Option Rejection
  | .uses use =>
    if (definitionAmong facts use.name.key).isSome then none else some (missing version use)
  | _ => none

/-- All checks of the facts of a version: dangling names are looked for behind the walk. -/
def checksOf (version : Int) (facts : List Fact) : List (Option Rejection) :=
  checksAfter factChecks [] facts ++ facts.map (danglingCheck version facts)

/-! ## What the table holds -/

def standingAmong (facts : List Fact) (key : Json) : Option Standing :=
  match definitionAmong facts key, usesAmong facts key with
  | some isNode, _ => some (.defined isNode)
  | none, first :: later => some (.awaited first later)
  | none, [] => none

structure Known (facts : List Fact) (names : Names) : Prop where
  keyed : Table.Keyed names
  standing : ∀ key, Table.find? key names = standingAmong facts key
  order : ∀ find : Json → Option Rejection,
    (names.map Prod.fst).findSome? find = (facts.filterMap Fact.key?).findSome? find

theorem known_nil : Known [] [] := ⟨List.nodup_nil, fun _ => rfl, fun _ => rfl⟩

section
variable {past : List Fact} {fact : Fact} {key : Json} {names : Names}

theorem definitionAmong_append :
    definitionAmong (past ++ [fact]) key =
      (fact.definitionOf key).or (definitionAmong past key) := by
  simp only [definitionAmong, List.reverse_append, List.reverse_singleton, List.singleton_append,
    List.findSome?_cons]
  cases fact.definitionOf key <;> rfl

theorem usesAmong_append :
    usesAmong (past ++ [fact]) key = usesAmong past key ++ (fact.useOf key).toList := by
  unfold usesAmong
  cases own : fact.useOf key <;> simp [own]

theorem standingAmong_other (other : fact.key? ≠ some key) :
    standingAmong (past ++ [fact]) key = standingAmong past key := by
  have undefined : fact.definitionOf key = none := by
    cases fact with
    | defines name isNode => exact if_neg fun same => other (congrArg some same)
    | uses use => rfl
    | fault r => rfl
  have unused : fact.useOf key = none := by
    cases fact with
    | defines name isNode => rfl
    | uses use => exact if_neg fun same => other (congrArg some same)
    | fault r => rfl
  simp [standingAmong, definitionAmong_append, usesAmong_append, undefined, unused]

theorem definition?_standingAmong :
    definition? (standingAmong past key) = definitionAmong past key := by
  unfold standingAmong
  split
  · rename_i defined
    rw [defined]
    rfl
  · rename_i undefined _
    rw [undefined]
    rfl
  · rename_i undefined _
    rw [undefined]
    rfl

/-- Looking for something below a list of keys does not change by a key that is already there. -/
theorem findSome?_or_of_mem {keys : List Json} (find : Json → Option Rejection)
    (member : key ∈ keys) : (keys.findSome? find).or (find key) = keys.findSome? find := by
  cases found : keys.findSome? find with
  | some r => rfl
  | none => exact List.findSome?_eq_none_iff.mp found key member

theorem findSome?_keys_append (find : Json → Option Rejection) (own : fact.key? = some key) :
    ((past ++ [fact]).filterMap Fact.key?).findSome? find =
      ((past.filterMap Fact.key?).findSome? find).or (find key) := by
  rw [List.filterMap_append, List.findSome?_append]
  simp only [List.filterMap_cons, own, List.filterMap_nil, List.findSome?_cons,
    List.findSome?_nil]
  cases find key <;> rfl

theorem mem_keys_of_find? {standing : Standing} (found : Table.find? key names = some standing) :
    key ∈ names.map Prod.fst :=
  List.mem_map.mpr ⟨_, Table.mem_of_find? found, rfl⟩

theorem Known.insert (known : Known past names) (own : fact.key? = some key) {standing : Standing}
    (after : standingAmong (past ++ [fact]) key = some standing) :
    Known (past ++ [fact]) (Table.insert key standing names) := by
  refine ⟨known.keyed.insert _ _, ?_, ?_⟩
  · intro k
    rw [Table.find?_insert]
    split_ifs with same
    · rw [← same, after]
    · rw [known.standing, standingAmong_other]
      rw [own]
      exact fun equal => same (Option.some.inj equal)
  · intro find
    rw [findSome?_keys_append find own, ← known.order, Table.keys_insert]
    split_ifs with present
    · exact (findSome?_or_of_mem find present).symm
    · rw [List.findSome?_append, List.findSome?_singleton]

theorem Known.keep {use : Use} {isNode : Bool} (known : Known past names)
    (defined : definitionAmong past use.name.key = some isNode) :
    Known (past ++ [.uses use]) names := by
  have before : standingAmong past use.name.key = some (.defined isNode) := by
    simp [standingAmong, defined]
  have after : standingAmong (past ++ [.uses use]) use.name.key = some (.defined isNode) := by
    simp [standingAmong, definitionAmong_append, Fact.definitionOf, defined]
  refine ⟨known.keyed, ?_, ?_⟩
  · intro key
    rw [known.standing]
    by_cases same : use.name.key = key
    · rw [← same, before, after]
    · have other : (Fact.uses use).key? ≠ some key := fun equal => same (Option.some.inj equal)
      exact (standingAmong_other other).symm
  · intro find
    have found : Table.find? use.name.key names = some (.defined isNode) := by
      rw [known.standing, before]
    have own : (Fact.uses use).key? = some use.name.key := rfl
    rw [findSome?_keys_append find own, ← known.order,
      findSome?_or_of_mem find (mem_keys_of_find? found)]

/-- One step keeps the table in line with the facts. -/
theorem Known.step {next : Names} (known : Known past names)
    (passed : References.step names fact = .ok next) : Known (past ++ [fact]) next := by
  cases fact with
  | fault r => cases passed
  | defines name isNode =>
      obtain ⟨-, rfl⟩ := step_defines_eq_ok_iff.mp passed
      apply known.insert rfl
      simp [standingAmong, definitionAmong_append, Fact.definitionOf]
  | uses use =>
      have stepped := step_uses_eq_ok_iff.mp passed
      rw [known.standing, definition?_standingAmong] at stepped
      cases defined : definitionAmong past use.name.key with
      | some isNode =>
          rw [defined] at stepped
          obtain ⟨-, rfl⟩ := stepped
          exact known.keep defined
      | none =>
          rw [defined] at stepped
          subst stepped
          apply known.insert rfl
          unfold standingAmong
          rw [definitionAmong_append, usesAmong_append]
          cases used : usesAmong past use.name.key <;>
            simp [Fact.definitionOf, Fact.useOf, defined, queue]

/-! ## One step and the run -/

theorem fault?_judgeAll (isNode : Bool) (uses : List Use) :
    fault? (judgeAll isNode uses) = firstFault (uses.map fun use => fault? (judge isNode use)) := by
  induction uses with
  | nil => rfl
  | cons use rest ih => exact fault?_bind (firstFault_one _).symm fun _ _ => ih

theorem fault?_step (known : Known past names) :
    fault? (step names fact) = firstFault (factChecks past fact) := by
  cases fact with
  | fault r => rfl
  | defines name isNode =>
      simp only [step, factChecks, known.standing]
      unfold standingAmong
      cases defined : definitionAmong past name.key with
      | some own => rfl
      | none =>
          cases used : usesAmong past name.key with
          | nil => rfl
          | cons first later =>
              have inserts : ∀ u, judgeAll isNode (first :: later) = .ok u →
                  fault? (.ok (Table.insert name.key (.defined isNode) names) :
                    Except Rejection _) = firstFault [] := fun _ _ => rfl
              have judged := fault?_bind (fault?_judgeAll isNode (first :: later)) inserts
              rw [List.append_nil] at judged
              exact judged
  | uses use =>
      simp only [step, factChecks, known.standing, firstFault_one]
      unfold standingAmong
      cases defined : definitionAmong past use.name.key with
      | some isNode =>
          cases judged : judge isNode use <;> simp [judged, fault?, bind, Except.bind]
      | none => cases usesAmong past use.name.key <;> rfl

theorem fault?_stepAll (facts : List Fact) (known : Known past names) :
    fault? (stepAll names facts) = firstFault (checksAfter factChecks past facts) ∧
      ∀ next, stepAll names facts = .ok next → Known (past ++ facts) next := by
  induction facts generalizing past names with
  | nil =>
      refine ⟨rfl, ?_⟩
      rintro next ⟨⟩
      rwa [List.append_nil]
  | cons fact rest ih =>
      refine ⟨fault?_bind (fault?_step known) fun mid passed => (ih (known.step passed)).1, ?_⟩
      intro next run
      obtain ⟨mid, passed, later⟩ := bind_eq_ok_iff.mp run
      have all := (ih (known.step passed)).2 next later
      rwa [List.append_assoc] at all

end

/-! ## Dangling names -/

/-- What is missing under a key: it is reported where the key is used first. -/
def missingUnder (version : Int) (facts : List Fact) (key : Json) : Option Rejection :=
  match standingAmong facts key with
  | some (.awaited first _) => some (missing version first)
  | _ => none

theorem fault?_settle_findSome? {version : Int} {facts : List Fact} {names : Names}
    (standing : ∀ entry ∈ names, standingAmong facts entry.1 = some entry.2) :
    fault? (settle version names) =
      (names.map Prod.fst).findSome? (missingUnder version facts) := by
  induction names with
  | nil => rfl
  | cons entry rest ih =>
      obtain ⟨key, s⟩ := entry
      have own : standingAmong facts key = some s := standing _ List.mem_cons_self
      have later := ih fun entry member => standing entry (List.mem_cons_of_mem _ member)
      rw [List.map_cons, List.findSome?_cons]
      cases s with
      | defined isNode =>
          simp only [settle, missingUnder, own]
          exact later
      | awaited first more =>
          simp only [settle, missingUnder, own]
          rfl

theorem missingUnder_of_defined {version : Int} {facts : List Fact} {key : Json}
    (defined : (definitionAmong facts key).isSome = true) :
    missingUnder version facts key = none := by
  obtain ⟨isNode, found⟩ := Option.isSome_iff_exists.mp defined
  simp [missingUnder, standingAmong, found]

theorem definitionAmong_of_mem {facts : List Fact} {name : Json} {isNode : Bool}
    (member : .defines name isNode ∈ facts) : (definitionAmong facts name.key).isSome = true := by
  unfold definitionAmong
  rw [List.findSome?_isSome_iff]
  exact ⟨_, List.mem_reverse.mpr member, by simp [Fact.definitionOf]⟩

/-- Nothing in front of the first dangling use uses its name. -/
theorem usesAmong_of_silent {version : Int} {facts done : List Fact} {key : Json}
    (silent : ∀ fact ∈ done, danglingCheck version facts fact = none)
    (undefined : ¬(definitionAmong facts key).isSome = true) : usesAmong done key = [] := by
  rw [usesAmong, List.filterMap_eq_nil_iff]
  intro fact member
  cases fact with
  | defines name isNode => rfl
  | fault r => rfl
  | uses use =>
      refine if_neg fun same => ?_
      have quiet := silent _ member
      simp [danglingCheck, same, undefined] at quiet

/-- The first name that is missing is the name of the first use without a definition. -/
theorem findSome?_missingUnder {version : Int} {facts done rest : List Fact}
    (split : facts = done ++ rest)
    (silent : ∀ fact ∈ done, danglingCheck version facts fact = none) :
    (rest.filterMap Fact.key?).findSome? (missingUnder version facts) =
      firstFault (rest.map (danglingCheck version facts)) := by
  induction rest generalizing done with
  | nil => rfl
  | cons fact rest ih =>
      have later (own : danglingCheck version facts fact = none) :
          (rest.filterMap Fact.key?).findSome? (missingUnder version facts) =
            firstFault (rest.map (danglingCheck version facts)) := by
        have shifted : facts = done ++ [fact] ++ rest := by simp [split]
        refine ih shifted fun f member => ?_
        rcases List.mem_append.mp member with before | last
        · exact silent f before
        · rwa [List.mem_singleton.mp last]
      rw [List.map_cons, firstFault_cons]
      cases fact with
      | fault r => exact later rfl
      | defines name isNode =>
          have member : .defines name isNode ∈ facts := by simp [split]
          have nothing : missingUnder version facts name.key = none :=
            missingUnder_of_defined (definitionAmong_of_mem member)
          simp only [List.filterMap_cons, Fact.key?, List.findSome?_cons, nothing]
          exact later rfl
      | uses use =>
          simp only [List.filterMap_cons, Fact.key?, List.findSome?_cons]
          by_cases defined : (definitionAmong facts use.name.key).isSome = true
          · have own : danglingCheck version facts (.uses use) = none := if_pos defined
            rw [missingUnder_of_defined defined, own]
            exact later own
          · have own : danglingCheck version facts (.uses use) = some (missing version use) :=
              if_neg defined
            have unused := usesAmong_of_silent silent defined
            have first : usesAmong facts use.name.key = use :: usesAmong rest use.name.key := by
              unfold usesAmong at unused ⊢
              rw [split, List.filterMap_append, unused]
              simp [Fact.useOf]
            rw [own, missingUnder, standingAmong, Option.not_isSome_iff_eq_none.mp defined, first]
            rfl

/-- The walk through the facts and the search for missing names report the first fault. -/
theorem fault?_check (version : Int) (facts : List Fact) :
    fault? (stepAll [] facts >>= settle version) = firstFault (checksOf version facts) := by
  obtain ⟨walked, knows⟩ := fault?_stepAll facts known_nil
  refine fault?_bind walked fun names run => ?_
  have known := knows names run
  have standing : ∀ entry ∈ names, standingAmong facts entry.1 = some entry.2 := by
    intro entry member
    rw [← Table.find?_of_mem known.keyed member, known.standing, List.nil_append]
  rw [fault?_settle_findSome? standing, known.order]
  exact findSome?_missingUnder (List.nil_append facts).symm fun fact member => nomatch member

end References

/-! ## Discriminants -/

namespace Numbering

/-- The number that the next discriminant has to exceed, if any, behind the given variants, the
nearest one first. -/
def takenBy : List Variant → Option Nat
  | [] => none
  | v :: further =>
    match v.payload with
    | .int discriminant => some discriminant.value
    | .unit => (takenBy further).map (· + 1)
    | _ => takenBy further

theorem takenBy_behind {n : Numbering} {further : List Variant} {v : Variant}
    (same : n.taken? = takenBy further) : (n.behind v).taken? = takenBy (v :: further) := by
  by_cases value : ∃ d, v.payload = .int d
  · obtain ⟨d, value⟩ := value
    rw [taken?_behind_int value]
    simp [takenBy, value]
  · rw [taken?_behind fun d found => value ⟨d, found⟩, same]
    obtain ⟨name, payload, header, position⟩ := v
    cases payload with
    | int d => exact absurd ⟨d, rfl⟩ value
    | unit => rfl
    | tuple ts => exact Option.map_id'
    | struct fs => exact Option.map_id'

end Numbering

namespace Variant

def orderCheck (enumName : Json) (version : Int) (before : List Variant) (v : Variant) :
    Option Diagnostic :=
  match v.payload with
  | .int discriminant =>
    if Numbering.exceeds discriminant.value (Numbering.takenBy before.reverse) then none
    else some ⟨.discriminantOrder enumName v.name version, discriminant.position⟩
  | _ => none

def factsBehind (enumName : Json) (version : Int) (before : List Variant) (v : Variant) :
    List Fact :=
  match orderCheck enumName version before v with
  | none => v.innerFacts
  | some d => [.fault (.diagnostic d)]

theorem fault?_numbering {enumName : Json} {version : Int} {n : Numbering} {before : List Variant}
    {v : Variant} (same : n.taken? = Numbering.takenBy before.reverse) :
    fault? (n.step enumName version v) = orderCheck enumName version before v := by
  obtain ⟨name, payload, header, position⟩ := v
  cases payload with
  | int discriminant =>
      simp only [Numbering.step, orderCheck, same]
      split_ifs <;> rfl
  | unit => rfl
  | tuple ts => rfl
  | struct fs => rfl

end Variant

namespace Decl

def orderedFacts (version : Int) (d : Decl) : List Fact :=
  .definition d.name d.isNode ::
    match d.body with
    | .record _ fs => Fact.ofFields fs
    | .enum vs => checksAfter (Variant.factsBehind d.name version) [] vs

end Decl

namespace References

theorem stepAll_append (names : Names) (facts later : List Fact) :
    stepAll names (facts ++ later) = stepAll names facts >>= fun next => stepAll next later := by
  induction facts generalizing names with
  | nil => rfl
  | cons fact rest ih =>
      simp only [List.cons_append, stepAll, ih]
      cases step names fact <;> rfl

/-- The running number and the variants in front lead to the same walk, since the walk ends where
the two could part. -/
theorem stepAll_variantFacts {enumName : Json} {version : Int} {n : Numbering} (names : Names)
    {before : List Variant} (vs : List Variant)
    (same : n.taken? = Numbering.takenBy before.reverse) :
    stepAll names (Variant.facts enumName version n vs) =
      stepAll names (checksAfter (Variant.factsBehind enumName version) before vs) := by
  induction vs generalizing names n before with
  | nil => rfl
  | cons v rest ih =>
      have fault : fault? (n.step enumName version v) =
          Variant.orderCheck enumName version before v := Variant.fault?_numbering same
      rw [Variant.facts, checksAfter, Variant.factsBehind, ← fault]
      cases passed : n.step enumName version v with
      | error d => rfl
      | ok next =>
          obtain ⟨-, rfl⟩ := Numbering.step_eq_ok_iff.mp passed
          have behind : (n.behind v).taken? = Numbering.takenBy (before ++ [v]).reverse := by
            rw [List.reverse_append]
            exact Numbering.takenBy_behind same
          simp only [fault?, stepAll_append, ih _ behind]

theorem stepAll_orderedFacts (version : Int) (names : Names) (d : Decl) :
    stepAll names (d.facts version) = stepAll names (d.orderedFacts version) := by
  obtain ⟨name, body, header, position⟩ := d
  cases body with
  | record node fs => rfl
  | enum vs =>
      simp only [Decl.facts, Decl.innerFacts, Decl.orderedFacts, stepAll]
      cases step names (.definition name (Decl.isNode ⟨name, .enum vs, header, position⟩)) with
      | error r => rfl
      | ok next => exact stepAll_variantFacts next vs rfl

theorem stepAll_schemaFacts (version : Int) (names : Names) (schema : List Decl) :
    stepAll names (schema.flatMap (Decl.facts version)) =
      stepAll names (schema.flatMap (Decl.orderedFacts version)) := by
  induction schema generalizing names with
  | nil => rfl
  | cons d rest ih =>
      simp only [List.flatMap_cons, stepAll_append, stepAll_orderedFacts, ih]

/-- The references of a version are checked as its excerpt says. -/
theorem fault?_check_layout (version : Int) (decls : List Decl) :
    fault? (check decls (History.layout version decls)) =
      firstFault
        (checksOf version ((excerpt version decls).flatMap (Decl.orderedFacts version))) := by
  rw [← fault?_check, ← stepAll_schemaFacts, ← Fact.facts_layout]
  rfl

end References
end SchemaHistory
