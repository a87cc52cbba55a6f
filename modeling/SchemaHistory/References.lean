import SchemaHistory.Enumeration.Numbering
import SchemaHistory.History.Snapshot
import SchemaHistory.Json.Order
import SchemaHistory.Rejection

/-! # References between the types of one version

Within one version every type that is used by name has to live in that version, a node has to be
used directly inside of `ref<>` and every other type outside of it, and `any` may stand only
directly inside of `ref<>`.  The check turns a snapshot into the list of facts that one meets when
going through its types and members, and then goes through the facts with a table of the names met
so far.  A use that comes before the definition is judged when the definition comes.  Names without
a definition are reported last.  In the table a name stands under its key, and a name that cannot
be looked up is a fault. -/
set_option autoImplicit false
namespace SchemaHistory

structure Use where
  name : Json
  position : Option Position
  inReference : Bool
  deriving DecidableEq, Repr

inductive Fact
  | defines (name : Json) (isNode : Bool)
  | uses (use : Use)
  | fault (rejection : Rejection)
  deriving DecidableEq, Repr

namespace Fact

def definition (name : Json) (isNode : Bool) : Fact :=
  if name.canBeLookedUp then .defines name isNode else .fault .unusableName

def ofUse (use : Use) : Fact :=
  if use.name.canBeLookedUp then .uses use else .fault .unusableName

def wrong (cause : Cause) (position : Option Position) : Fact :=
  .fault (.diagnostic ⟨cause, position⟩)

end Fact

namespace TypeExpr

def position : TypeExpr → Option Position
  | .primitive _ p => p
  | .named _ p => p
  | .optional _ p => p
  | .reference _ p => p
  | .array _ _ p => p
  | .slice _ p => p
  | .tuple _ p => p

/-- The fact about what stands directly inside of `ref<>`. -/
def targetFacts : TypeExpr → List Fact
  | .named name p => [.ofUse ⟨name, p, true⟩]
  | .primitive .any _ => []
  | other => [.wrong .referenceToExpression other.position]

mutual

def facts : TypeExpr → List Fact
  | .primitive .any p => [.wrong .bareAny p]
  | .primitive _ _ => []
  | .named name p => [.ofUse ⟨name, p, false⟩]
  | .optional inner _ => facts inner
  | .reference inner _ => targetFacts inner
  | .array inner _ _ => facts inner
  | .slice inner _ => facts inner
  | .tuple items _ => factsOfAll items

def factsOfAll : List TypeExpr → List Fact
  | [] => []
  | item :: items => facts item ++ factsOfAll items

end

@[simp] theorem factsOfAll_eq_flatMap (items : List TypeExpr) :
    factsOfAll items = items.flatMap facts := by
  induction items with
  | nil => rfl
  | cons item items ih => simp [factsOfAll, ih]

end TypeExpr

namespace Fact

def ofFields (fields : List Field) : List Fact := fields.flatMap fun f => f.type.facts

/-- The facts about the members of one record. -/
def ofMembers (fields : List Field) : List MemberSlot → List Fact
  | [] => []
  | .struct _ _ :: rest => .fault .misplacedFields :: ofMembers fields rest
  | .plain i :: rest => ofFields fields[i]?.toList ++ ofMembers fields rest

/-- The facts about the variants of one enum; the numbering runs along. -/
def ofVariants (enumName : Json) (version : Int) (n : Numbering) :
    List (MemberSlot × Variant) → List Fact
  | [] => []
  | (.struct i inner, v) :: rest =>
    ofFields (MemberSlot.fields v (.struct i inner)) ++ ofVariants enumName version n rest
  | (.plain _, v) :: rest =>
    match v.payload with
    | .tuple types => TypeExpr.factsOfAll types ++ ofVariants enumName version n rest
    | _ =>
      match n.step enumName version v with
      | .ok n => ofVariants enumName version n rest
      | .error d => .fault (.diagnostic d) :: ofVariants enumName version n rest

def ofType (version : Int) (slot : TypeSlot) (d : Decl) : List Fact :=
  .definition d.name d.isNode ::
    match d.body with
    | .record _ fields => ofMembers fields slot.members
    | .enum _ => ofVariants d.name version Numbering.start (slot.variants d)

def ofSnapshot (decls : List Decl) (s : Snapshot) : List Fact :=
  (s.declared decls).flatMap fun t => ofType s.version t.1 t.2

end Fact

/-- What is known of a name: its definition, or the uses that wait for one. -/
inductive Standing
  | defined (isNode : Bool)
  | awaited (first : Use) (later : List Use)
  deriving DecidableEq, Repr

namespace References

/-- The keys of the names met so far, in the order in which they were met. -/
abbrev Names := List (Json × Standing)

def judge (isNode : Bool) (use : Use) : Except Rejection Unit :=
  if isNode && !use.inReference then .error (.diagnostic ⟨.bareNode, use.position⟩)
  else if use.inReference && !isNode then .error (.diagnostic ⟨.referenceToValue, use.position⟩)
  else .ok ()

def judgeAll (isNode : Bool) : List Use → Except Rejection Unit
  | [] => .ok ()
  | use :: rest => do
    judge isNode use
    judgeAll isNode rest

def step (names : Names) : Fact → Except Rejection Names
  | .fault rejection => .error rejection
  | .defines name isNode => do
    match Table.find? name.key names with
    | some (.awaited first later) => judgeAll isNode (first :: later)
    | _ => .ok ()
    .ok (Table.insert name.key (.defined isNode) names)
  | .uses use =>
    match Table.find? use.name.key names with
    | some (.defined isNode) => do
      judge isNode use
      .ok names
    | some (.awaited first later) =>
      .ok (Table.insert use.name.key (.awaited first (later ++ [use])) names)
    | none => .ok (Table.insert use.name.key (.awaited use []) names)

def stepAll (names : Names) : List Fact → Except Rejection Names
  | [] => .ok names
  | fact :: rest => do
    let names ← step names fact
    stepAll names rest

/-- Rejects the first name that still waits for a definition. -/
def settle (version : Int) : Names → Except Rejection Unit
  | [] => .ok ()
  | (_, .defined _) :: rest => settle version rest
  | (_, .awaited first _) :: _ =>
    .error (.diagnostic ⟨.missingType first.name version, first.position⟩)

def check (decls : List Decl) (s : Snapshot) : Except Rejection Unit := do
  let names ← stepAll [] (Fact.ofSnapshot decls s)
  settle s.version names

end References
end SchemaHistory
