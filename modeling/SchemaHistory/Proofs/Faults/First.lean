import SchemaHistory.Proofs.Compiled.Acceptance
import SchemaHistory.Proofs.Faults.Items
import SchemaHistory.Proofs.Faults.Names

/-! # The first fault is the one reported

`Compiled.checks` lists everything that is checked of a schema in the order of the source: the items
from the first to the last one, then the versions from the first to the last one, each with its
emptiness, its facts and its dangling names, and at last whether everything can be written.  Every
check looks at the declarations alone.  A schema is rejected exactly when one of the checks finds a
fault, and it is rejected with the first one (`rejects_iff_first_fault`). -/
set_option autoImplicit false
namespace SchemaHistory

def versionChecks (version : Int) (schema : List Decl) : List (Option Rejection) :=
  (if schema.isEmpty then some (.diagnostic ⟨.emptyVersion version, none⟩) else none) ::
    References.checksOf version (schema.flatMap (Decl.orderedFacts version))

namespace Compiled

def exportCheck (decls : List Decl) : Option Rejection :=
  if (versionsOf decls).all fun version => (excerpt version decls).all Decl.isExportable then none
  else some .unusableName

/-- The checks of a schema in the order of the source. -/
def checks (limit : Int) (decls : List Decl) : List (Option Rejection) :=
  (itemChecks limit decls).map (Option.map Rejection.diagnostic) ++
    ((versionsOf decls).flatMap (fun version => versionChecks version (excerpt version decls)) ++
      [exportCheck decls])

theorem fault?_checkSnapshot (version : Int) (decls : List Decl) :
    fault? (checkSnapshot decls (History.layout version decls)) =
      firstFault (versionChecks version (excerpt version decls)) := by
  unfold checkSnapshot versionChecks
  rw [History.isEmpty_layout, firstFault_cons]
  split_ifs with empty
  · rfl
  · exact References.fault?_check_layout version decls

theorem fault?_checkSnapshots (decls : List Decl) (versions : List Int) :
    fault? (checkSnapshots decls (versions.map fun version => History.layout version decls)) =
      firstFault (versions.flatMap fun version =>
        versionChecks version (excerpt version decls)) := by
  induction versions with
  | nil => rfl
  | cons version rest ih =>
      rw [List.flatMap_cons]
      exact fault?_bind (fault?_checkSnapshot version decls) fun _ _ => ih

theorem isExportable_layouts (decls : List Decl) :
    isExportable ⟨decls, History.layouts decls⟩ =
      (versionsOf decls).all fun version => (excerpt version decls).all Decl.isExportable := by
  simp only [isExportable, History.layouts_eq_map, List.all_map]
  refine List.all_congr rfl fun version => ?_
  simp only [Function.comp, Snapshot.fits_layout, Snapshot.isWritable_layout, Bool.true_and]

/-- The history of a schema is rejected as the walk is. -/
theorem fault?_history (limit : Int) (decls : List Decl) :
    fault? ((History.ofDeclarations limit decls).mapError Rejection.diagnostic) =
      firstFault ((itemChecks limit decls).map (Option.map Rejection.diagnostic)) := by
  rw [firstFault_map, ← fault?_walk]
  unfold History.ofDeclarations
  cases (History.walk limit decls).result <;> rfl

theorem fault?_ofDeclarations (limit : Int) (decls : List Decl) :
    fault? (ofDeclarations limit decls) = firstFault (checks limit decls) := by
  refine fault?_bind (fault?_history limit decls) fun snapshots built => ?_
  have exact : History.layouts decls = snapshots := by
    cases history : History.ofDeclarations limit decls with
    | error d =>
        rw [history] at built
        cases built
    | ok given =>
        rw [history] at built
        cases built
        exact (History.ofDeclarations_eq_ok_iff.mp history).2
  subst exact
  have checked := fault?_checkSnapshots decls (versionsOf decls)
  rw [← History.layouts_eq_map] at checked
  refine fault?_bind checked fun _ _ => ?_
  rw [firstFault_one, exportCheck, ← isExportable_layouts]
  cases exportable : isExportable ⟨decls, History.layouts decls⟩ <;> simp [exportable, fault?]

/-- A schema is rejected with what the first failing check in the order of the source says, where
all checks look at the declarations alone. -/
theorem rejects_iff_first_fault (limit : Int) (decls : List Decl) (rejection : Rejection) :
    ofDeclarations limit decls = .error rejection ↔
      ∃ passed later, checks limit decls = passed ++ some rejection :: later ∧
        ∀ check ∈ passed, check = none := by
  rw [← fault?_eq_some_iff, fault?_ofDeclarations, firstFault_eq_some_iff]

end Compiled
end SchemaHistory
