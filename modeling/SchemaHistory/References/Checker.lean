import SchemaHistory.References

/-! # A checker of references

One checker goes through the snapshots of a schema one after the other and holds the table of names
that it is at work with.  A rejection leaves the table as it was at that moment: a definition that
its waiting uses do not fit is in it already, and a name that never came is still awaited.  A check
starts by clearing the table, so what the checker is left with has no bearing on the next one
(`Checker.check_verdict`). -/
set_option autoImplicit false
namespace SchemaHistory

structure Checker where
  decls : List Decl
  names : References.Names
  deriving Repr

namespace References

/-- The table that a rejected step leaves behind. -/
def leftBy (names : Names) : Fact → Names
  | .defines name isNode => Table.insert name.key (.defined isNode) names
  | _ => names

/-- Goes through the facts as far as they are accepted. -/
def walk (names : Names) : List Fact → Except Rejection Unit × Names
  | [] => (.ok (), names)
  | fact :: rest =>
    match step names fact with
    | .ok next => walk next rest
    | .error r => (.error r, leftBy names fact)

end References

namespace Checker

/-- A checker that has not checked anything yet. -/
def ofDeclarations (decls : List Decl) : Checker := ⟨decls, []⟩

def cleared (c : Checker) : Checker := { c with names := [] }

/-- Goes through the facts of a version and looks for names that still wait. -/
def run (version : Int) (facts : List Fact) (c : Checker) : Except Rejection Unit × Checker :=
  match References.walk c.names facts with
  | (.error r, names) => (.error r, { c with names := names })
  | (.ok (), names) =>
    match References.settle version names with
    | .error r => (.error r, { c with names := names })
    | .ok () => (.ok (), c.cleared)

/-- Checks one snapshot: the verdict and the checker afterwards. -/
def check (s : Snapshot) (c : Checker) : Except Rejection Unit × Checker :=
  c.cleared.run s.version (Fact.ofSnapshot c.decls s)

/-- Checks snapshots one after the other and goes on after rejections. -/
def checkAll (c : Checker) : List Snapshot → List (Except Rejection Unit) × Checker
  | [] => ([], c)
  | s :: rest =>
    let (verdict, next) := c.check s
    let (verdicts, last) := next.checkAll rest
    (verdict :: verdicts, last)

end Checker

/-! ## What a check leaves behind has no bearing -/

theorem References.walk_eq (names : Names) (facts : List Fact) :
    (∃ next, stepAll names facts = .ok next ∧ walk names facts = (.ok (), next)) ∨
      ∃ r left, stepAll names facts = .error r ∧ walk names facts = (.error r, left) := by
  induction facts generalizing names with
  | nil => exact .inl ⟨names, rfl, rfl⟩
  | cons fact rest ih =>
      rw [stepAll, walk]
      cases step names fact with
      | error r => exact .inr ⟨r, _, rfl, rfl⟩
      | ok next => exact ih next

namespace Checker

/-- The verdict on a snapshot is the same whatever the table held before. -/
theorem check_verdict (s : Snapshot) (c : Checker) :
    (c.check s).1 = References.check c.decls s := by
  unfold check run References.check
  rcases References.walk_eq [] (Fact.ofSnapshot c.decls s) with
    ⟨names, stepped, walked⟩ | ⟨r, left, stepped, walked⟩
  · simp only [cleared, walked, stepped]
    cases settled : References.settle s.version names <;> exact settled.symm
  · simp only [cleared, walked, stepped]
    rfl

theorem decls_check (s : Snapshot) (c : Checker) : (c.check s).2.decls = c.decls := by
  unfold check run
  rcases References.walk c.cleared.names (Fact.ofSnapshot c.decls s) with ⟨r | u, names⟩
  · rfl
  · dsimp only
    cases References.settle s.version names <;> rfl

/-- So is every verdict of a run through several snapshots. -/
theorem checkAll_verdicts (snapshots : List Snapshot) (c : Checker) :
    (c.checkAll snapshots).1 = snapshots.map (References.check c.decls) := by
  induction snapshots generalizing c with
  | nil => rfl
  | cons s rest ih =>
      have later := ih (c.check s).2
      rw [decls_check] at later
      rw [List.map_cons, ← check_verdict, ← later]
      rfl

end Checker
end SchemaHistory
