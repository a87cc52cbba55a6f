import Mathlib.Data.List.Pairwise
import SchemaHistory.Proofs.Results
import SchemaHistory.Proofs.Table
import SchemaHistory.References

/-! # The verdict on the references of a version

The check goes through the facts with a table of names and judges a use where it meets the later one
of the use and the definition.  `Reflects` is what the table knows of the facts that are done:
whether a name was defined, and otherwise which uses of it wait.  One step keeps it
(`reflects_step`), and so does the whole run.  When no name is defined twice, the verdict does not
depend on the order of the facts: nothing is at fault, and every use has a definition that fits
(`resolve_iff`). -/
set_option autoImplicit false
namespace SchemaHistory.References

def Defines (facts : List Fact) (key : Json) (isNode : Bool) : Prop :=
  ∃ name, .defines name isNode ∈ facts ∧ name.key = key

def Uses (facts : List Fact) (key : Json) (use : Use) : Prop :=
  .uses use ∈ facts ∧ use.name.key = key

def Separate (a b : Fact) : Prop :=
  ∀ name isNode other otherIsNode, a = .defines name isNode → b = .defines other otherIsNode →
    name.key ≠ other.key

def Distinct (facts : List Fact) : Prop := facts.Pairwise Separate

/-- Every use whose key is defined fits the definition. -/
def Judged (facts : List Fact) : Prop :=
  ∀ key isNode use, Defines facts key isNode → Uses facts key use → use.inReference = isNode

section
variable {facts past rest : List Fact} {key : Json} {isNode : Bool} {use : Use}

theorem defines_append :
    Defines (past ++ rest) key isNode ↔ Defines past key isNode ∨ Defines rest key isNode := by
  simp only [Defines, List.mem_append, or_and_right, exists_or]

theorem uses_append : Uses (past ++ rest) key use ↔ Uses past key use ∨ Uses rest key use := by
  simp only [Uses, List.mem_append, or_and_right]

theorem defines_one {name : Json} {own : Bool} :
    Defines [.defines name own] key isNode ↔ name.key = key ∧ own = isNode := by
  constructor
  · intro defined
    rcases defined with ⟨other, member, rfl⟩
    cases List.mem_singleton.mp member
    exact ⟨rfl, rfl⟩
  · intro same
    rcases same with ⟨rfl, rfl⟩
    exact ⟨name, List.mem_singleton_self _, rfl⟩

theorem not_defines_use {other : Use} : ¬Defines [.uses other] key isNode := by
  intro defined
  rcases defined with ⟨name, member, -⟩
  cases List.mem_singleton.mp member

theorem uses_one {other : Use} :
    Uses [.uses other] key use ↔ use = other ∧ other.name.key = key := by
  constructor
  · intro used
    rcases used with ⟨member, rfl⟩
    cases List.mem_singleton.mp member
    exact ⟨rfl, rfl⟩
  · intro same
    rcases same with ⟨rfl, rfl⟩
    exact ⟨List.mem_singleton_self _, rfl⟩

theorem not_uses_definition {name : Json} {own : Bool} : ¬Uses [.defines name own] key use := by
  intro used
  rcases used with ⟨member, -⟩
  cases List.mem_singleton.mp member

theorem Judged.of_append (judged : Judged (past ++ rest)) : Judged past :=
  fun key isNode use defined used =>
    judged key isNode use (defines_append.mpr (.inl defined)) (uses_append.mpr (.inl used))

theorem Distinct.eq_of_defines (distinct : Distinct facts) {other : Bool}
    (left : Defines facts key isNode) (right : Defines facts key other) : isNode = other := by
  obtain ⟨name, first, rfl⟩ := left
  obtain ⟨again, second, same⟩ := right
  have symmetric : Std.Symm Separate :=
    ⟨fun a b separate name isNode other otherIsNode left right =>
      (separate other otherIsNode name isNode right left).symm⟩
  by_contra differ
  have facts : Fact.defines name isNode ≠ .defines again other := by
    intro equal
    cases equal
    exact differ rfl
  exact List.Pairwise.forall distinct first second facts name isNode again other rfl rfl same.symm

end

/-! ## What the table knows -/

def waiting : Option Standing → List Use
  | some (.awaited first later) => first :: later
  | _ => []

def definition? : Option Standing → Option Bool
  | some (.defined isNode) => some isNode
  | _ => none

/-- The standing of a key without a definition after one more use of it. -/
def queue (standing : Option Standing) (use : Use) : Standing :=
  match standing with
  | some (.awaited first later) => .awaited first (later ++ [use])
  | _ => .awaited use []

theorem waiting_queue {standing : Option Standing} (undefined : definition? standing = none)
    (use : Use) : waiting (some (queue standing use)) = waiting standing ++ [use] := by
  rcases standing with - | ⟨isNode⟩ | ⟨first, later⟩
  · rfl
  · cases undefined
  · rfl

theorem definition?_queue (standing : Option Standing) (use : Use) :
    definition? (some (queue standing use)) = none := by
  rcases standing with - | ⟨isNode⟩ | ⟨first, later⟩ <;> rfl

structure Reflects (past : List Fact) (names : Names) : Prop where
  keyed : Table.Keyed names
  defined : ∀ key isNode,
    definition? (Table.find? key names) = some isNode ↔ Defines past key isNode
  waits : ∀ key, definition? (Table.find? key names) = none →
    ∀ use, use ∈ waiting (Table.find? key names) ↔ Uses past key use

theorem reflects_nil : Reflects [] [] := by
  refine ⟨List.nodup_nil, ?_, ?_⟩
  · intro key isNode
    simp [Table.find?, definition?, Defines]
  · intro key _ use
    simp [Table.find?, waiting, Uses]

/-! ## One step -/

theorem judge_eq_ok_iff {isNode : Bool} {use : Use} {u : Unit} :
    judge isNode use = .ok u ↔ use.inReference = isNode := by
  unfold judge
  cases isNode <;> cases use.inReference <;> simp

theorem judgeAll_eq_ok_iff {isNode : Bool} {uses : List Use} {u : Unit} :
    judgeAll isNode uses = .ok u ↔ ∀ use ∈ uses, use.inReference = isNode := by
  induction uses with
  | nil => simp [judgeAll]
  | cons use rest ih => simp [judgeAll, bind_eq_ok_iff, judge_eq_ok_iff, ih]

section
variable {names next : Names} {past : List Fact}

theorem step_defines_eq_ok_iff {name : Json} {isNode : Bool} :
    step names (.defines name isNode) = .ok next ↔
      (∀ use ∈ waiting (Table.find? name.key names), use.inReference = isNode) ∧
        Table.insert name.key (.defined isNode) names = next := by
  rcases found : Table.find? name.key names with - | ⟨own⟩ | ⟨first, later⟩
  · simp [step, found, bind_eq_ok_iff, waiting]
  · simp [step, found, bind_eq_ok_iff, waiting]
  · simp [step, found, bind_eq_ok_iff, waiting, judgeAll_eq_ok_iff]

theorem step_uses_eq_ok_iff {use : Use} :
    step names (.uses use) = .ok next ↔
      match definition? (Table.find? use.name.key names) with
      | some isNode => use.inReference = isNode ∧ names = next
      | none =>
          Table.insert use.name.key (queue (Table.find? use.name.key names) use) names = next := by
  rcases found : Table.find? use.name.key names with - | ⟨isNode⟩ | ⟨first, later⟩
  · simp [step, found, definition?, queue]
  · simp [step, found, bind_eq_ok_iff, definition?, judge_eq_ok_iff]
  · simp [step, found, definition?, queue]

theorem reflects_defines {name : Json} {isNode : Bool} (reflects : Reflects past names)
    (fresh : ∀ own, ¬Defines past name.key own) :
    Reflects (past ++ [.defines name isNode])
      (Table.insert name.key (.defined isNode) names) := by
  refine ⟨reflects.keyed.insert _ _, ?_, ?_⟩
  · intro key own
    rw [Table.find?_insert, defines_append, defines_one]
    split_ifs with same
    · subst same
      simp [definition?, fresh]
    · simp [reflects.defined, same]
  · intro key
    rw [Table.find?_insert]
    split_ifs with same
    · intro undefined
      cases undefined
    · intro undefined use
      rw [reflects.waits key undefined, uses_append, or_iff_left not_uses_definition]

theorem reflects_uses_defined {use : Use} {isNode : Bool} (reflects : Reflects past names)
    (found : definition? (Table.find? use.name.key names) = some isNode) :
    Reflects (past ++ [.uses use]) names := by
  refine ⟨reflects.keyed, ?_, ?_⟩
  · intro key own
    rw [defines_append, or_iff_left not_defines_use, reflects.defined]
  · intro key undefined other
    have unlike : use.name.key ≠ key := by
      rintro rfl
      rw [found] at undefined
      cases undefined
    rw [reflects.waits key undefined, uses_append, uses_one]
    simp [unlike]

theorem reflects_uses_undefined {use : Use} (reflects : Reflects past names)
    (missing : definition? (Table.find? use.name.key names) = none) :
    Reflects (past ++ [.uses use])
      (Table.insert use.name.key (queue (Table.find? use.name.key names) use) names) := by
  refine ⟨reflects.keyed.insert _ _, ?_, ?_⟩
  · intro key own
    rw [defines_append, or_iff_left not_defines_use, Table.find?_insert, ← reflects.defined]
    split_ifs with same
    · subst same
      rw [definition?_queue, missing]
    · rfl
  · intro key
    rw [Table.find?_insert]
    split_ifs with same
    · subst same
      intro _ other
      rw [waiting_queue missing, List.mem_append, reflects.waits _ missing, uses_append, uses_one]
      simp
    · intro undefined other
      rw [reflects.waits key undefined, uses_append, uses_one]
      simp [same]

/-! ## What one more fact adds to the judgement -/

theorem judged_defines {name : Json} {isNode : Bool} (reflects : Reflects past names)
    (judged : Judged past) (undefined : definition? (Table.find? name.key names) = none) :
    Judged (past ++ [.defines name isNode]) ↔
      ∀ use ∈ waiting (Table.find? name.key names), use.inReference = isNode := by
  constructor
  · intro after use waits
    have used := (reflects.waits _ undefined use).mp waits
    exact after _ _ use (defines_append.mpr (.inr (defines_one.mpr ⟨rfl, rfl⟩)))
      (uses_append.mpr (.inl used))
  · intro fits key own use defined used
    rw [uses_append, or_iff_left not_uses_definition] at used
    rcases defines_append.mp defined with before | now
    · exact judged key own use before used
    · obtain ⟨rfl, rfl⟩ := defines_one.mp now
      exact fits use ((reflects.waits _ undefined use).mpr used)

theorem judged_uses {use : Use} (reflects : Reflects past names) (judged : Judged past) :
    Judged (past ++ [.uses use]) ↔
      ∀ isNode, definition? (Table.find? use.name.key names) = some isNode →
        use.inReference = isNode := by
  constructor
  · intro after isNode found
    have defined := (reflects.defined _ _).mp found
    exact after _ _ use (defines_append.mpr (.inl defined))
      (uses_append.mpr (.inr (uses_one.mpr ⟨rfl, rfl⟩)))
  · intro fits key isNode other defined used
    rw [defines_append, or_iff_left not_defines_use] at defined
    rcases uses_append.mp used with before | now
    · exact judged key isNode other defined before
    · obtain ⟨rfl, rfl⟩ := uses_one.mp now
      exact fits isNode ((reflects.defined _ _).mpr defined)

theorem fresh_of_distinct {rest : List Fact} {name : Json} {isNode : Bool}
    (distinct : Distinct (past ++ .defines name isNode :: rest)) (own : Bool) :
    ¬Defines past name.key own := by
  intro defined
  rcases defined with ⟨other, member, same⟩
  have apart := (List.pairwise_append.mp distinct).2.2 _ member _ List.mem_cons_self
  exact apart other own name isNode rfl rfl same

end

/-! ## The run -/

section
variable {names next : Names} {past rest : List Fact} {fact : Fact}

/-- One step succeeds when the fact is no fault and fits what is done, and then the table knows one
more fact. -/
theorem reflects_step (reflects : Reflects past names) (judged : Judged past)
    (distinct : Distinct (past ++ fact :: rest)) :
    ((∃ next, step names fact = .ok next) ↔
      (∀ r, fact ≠ .fault r) ∧ Judged (past ++ [fact])) ∧
    ∀ next, step names fact = .ok next → Reflects (past ++ [fact]) next := by
  cases fact with
  | fault r => simp [step]
  | defines name isNode =>
      have fresh := fresh_of_distinct distinct
      have undefined : definition? (Table.find? name.key names) = none := by
        rw [Option.eq_none_iff_forall_ne_some]
        intro own found
        exact fresh own ((reflects.defined _ _).mp found)
      simp only [step_defines_eq_ok_iff, judged_defines reflects judged undefined]
      refine ⟨by simp, ?_⟩
      rintro next ⟨-, rfl⟩
      exact reflects_defines reflects fresh
  | uses use =>
      simp only [step_uses_eq_ok_iff, judged_uses reflects judged]
      cases found : definition? (Table.find? use.name.key names) with
      | some isNode =>
          refine ⟨by simp, ?_⟩
          rintro next ⟨-, rfl⟩
          exact reflects_uses_defined reflects found
      | none =>
          refine ⟨by simp, ?_⟩
          rintro next rfl
          exact reflects_uses_undefined reflects found

/-- The run through the facts succeeds when none is a fault and all are judged, and then the table
knows all of them. -/
theorem reflects_run (reflects : Reflects past names) (judged : Judged past)
    (distinct : Distinct (past ++ rest)) :
    ((∃ next, stepAll names rest = .ok next) ↔
      (∀ r, .fault r ∉ rest) ∧ Judged (past ++ rest)) ∧
    ∀ next, stepAll names rest = .ok next → Reflects (past ++ rest) next := by
  induction rest generalizing past names with
  | nil => simpa [stepAll] using ⟨judged, reflects⟩
  | cons fact rest ih =>
      obtain ⟨accepts, keeps⟩ := reflects_step reflects judged distinct
      have shifted : past ++ fact :: rest = past ++ [fact] ++ rest := by simp
      simp only [stepAll, bind_eq_ok_iff]
      rw [shifted] at distinct ⊢
      refine ⟨⟨?_, ?_⟩, ?_⟩
      · intro passed
        rcases passed with ⟨next, mid, first, later⟩
        obtain ⟨sound, judged⟩ := accepts.mp ⟨mid, first⟩
        obtain ⟨faultless, all⟩ := (ih (keeps mid first) judged distinct).1.mp ⟨next, later⟩
        refine ⟨fun r member => ?_, all⟩
        rcases List.mem_cons.mp member with same | member
        · exact sound r same.symm
        · exact faultless r member
      · intro judged
        rcases judged with ⟨faultless, all⟩
        have sound : ∀ r, fact ≠ .fault r :=
          fun r same => faultless r (same ▸ List.mem_cons_self)
        obtain ⟨mid, first⟩ := accepts.mpr ⟨sound, all.of_append⟩
        obtain ⟨next, later⟩ := (ih (keeps mid first) all.of_append distinct).1.mpr
          ⟨fun r member => faultless r (List.mem_cons_of_mem _ member), all⟩
        exact ⟨next, mid, first, later⟩
      · rintro next ⟨mid, first, later⟩
        have judged := (accepts.mp ⟨mid, first⟩).2
        exact (ih (keeps mid first) judged distinct).2 next later

theorem settle_eq_ok_iff {version : Int} {u : Unit} :
    settle version names = .ok u ↔ ∀ entry ∈ names, ∃ isNode, entry.2 = .defined isNode := by
  induction names with
  | nil => simp [settle]
  | cons entry rest ih =>
      obtain ⟨key, standing⟩ := entry
      cases standing with
      | defined isNode => simp [settle, ih]
      | awaited first later => simp [settle]

/-- No name is left waiting when every use has a definition. -/
theorem settled_iff (reflects : Reflects past names) :
    (∀ entry ∈ names, ∃ isNode, entry.2 = .defined isNode) ↔
      ∀ key use, Uses past key use → ∃ isNode, Defines past key isNode := by
  constructor
  · intro settled key use used
    cases found : definition? (Table.find? key names) with
    | some isNode => exact ⟨isNode, (reflects.defined _ _).mp found⟩
    | none =>
        have waits := (reflects.waits key found use).mpr used
        cases standing : Table.find? key names with
        | none => simp [standing, waiting] at waits
        | some s =>
            obtain ⟨isNode, same⟩ := settled _ (Table.mem_of_find? standing)
            obtain rfl : s = .defined isNode := same
            simp [standing, waiting] at waits
  · rintro defined ⟨key, standing⟩ member
    have found := Table.find?_of_mem reflects.keyed member
    cases standing with
    | defined isNode => exact ⟨isNode, rfl⟩
    | awaited first later =>
        have undefined : definition? (Table.find? key names) = none := by rw [found]; rfl
        have used : Uses past key first := by
          apply (reflects.waits key undefined first).mp
          rw [found]
          exact List.mem_cons_self
        obtain ⟨isNode, defines⟩ := defined key first used
        rw [(reflects.defined _ _).mpr defines] at undefined
        cases undefined

end

/-- The run through the facts succeeds and leaves no name waiting. -/
def Resolve (facts : List Fact) : Prop :=
  ∃ names, stepAll [] facts = .ok names ∧ ∀ entry ∈ names, ∃ isNode, entry.2 = .defined isNode

/-- Whether a snapshot passes the check depends on its facts alone. -/
theorem check_eq_ok_iff {decls : List Decl} {s : Snapshot} {u : Unit} :
    check decls s = .ok u ↔ Resolve (Fact.ofSnapshot decls s) := by
  simp only [check, bind_eq_ok_iff, settle_eq_ok_iff]
  rfl

theorem faultless_of_run {facts : List Fact} {names next : Names}
    (run : stepAll names facts = .ok next) : ∀ r, .fault r ∉ facts := by
  induction facts generalizing names with
  | nil => exact fun r => List.not_mem_nil
  | cons fact rest ih =>
      obtain ⟨mid, first, later⟩ := bind_eq_ok_iff.mp run
      intro r member
      rcases List.mem_cons.mp member with rfl | member
      · cases first
      · exact ih later r member

/-- When no name is defined twice, the facts resolve exactly if nothing is at fault and every use
has a definition that fits. -/
theorem resolve_iff {facts : List Fact} (distinct : Distinct facts) :
    Resolve facts ↔ (∀ r, .fault r ∉ facts) ∧
      ∀ use, .uses use ∈ facts → Defines facts use.name.key use.inReference := by
  have nothing : Judged [] := by
    rintro key isNode use ⟨name, member, -⟩
    cases member
  obtain ⟨accepts, keeps⟩ := reflects_run reflects_nil nothing distinct
  constructor
  · intro resolved
    rcases resolved with ⟨names, run, settled⟩
    obtain ⟨faultless, judged⟩ := accepts.mp ⟨names, run⟩
    refine ⟨faultless, fun use used => ?_⟩
    obtain ⟨isNode, defined⟩ := (settled_iff (keeps names run)).mp settled _ use ⟨used, rfl⟩
    rwa [judged _ isNode use defined ⟨used, rfl⟩]
  · intro judged
    rcases judged with ⟨faultless, defined⟩
    have judged : Judged facts := by
      rintro key isNode use defines ⟨used, rfl⟩
      exact distinct.eq_of_defines (defined use used) defines
    obtain ⟨names, run⟩ := accepts.mpr ⟨faultless, judged⟩
    refine ⟨names, run, (settled_iff (keeps names run)).mpr ?_⟩
    intro key use uses
    rcases uses with ⟨used, rfl⟩
    exact ⟨use.inReference, defined use used⟩

end SchemaHistory.References
