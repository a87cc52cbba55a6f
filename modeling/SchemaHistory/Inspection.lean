import SchemaHistory.Diagnostic

/-! # Inspections

An inspector judges items one after the other and holds what it has to know of those before.  What
it does with an item it does step by step: a rejection ends this and takes nothing back, so that the
next item is judged with whatever is held by then.

`judge` gives the verdict on one item and what is held afterwards, `inspect` goes through a list and
goes on after rejections.  Beside `outcome` stand the equations of the single steps. -/
set_option autoImplicit false
namespace SchemaHistory

/-- The verdict on one item. -/
abbrev Verdict := Except Diagnostic Unit

/-- Steps that read and change what is held, and may end with a diagnostic. -/
abbrev Inspecting (σ α : Type) := ExceptT Diagnostic (StateM σ) α

namespace Inspecting

variable {σ ι α β : Type}

/-- How the steps end, and what is held then. -/
def outcome (steps : Inspecting σ α) (held : σ) : Except Diagnostic α × σ :=
  (steps.run.run held).run

@[simp] theorem outcome_pure (a : α) (held : σ) :
    outcome (pure a : Inspecting σ α) held = (.ok a, held) := rfl

@[simp] theorem outcome_throw (d : Diagnostic) (held : σ) :
    outcome (throw d : Inspecting σ α) held = (.error d, held) := rfl

@[simp] theorem outcome_set (next held : σ) :
    outcome (set next : Inspecting σ PUnit) held = (.ok (), next) := rfl

@[simp] theorem outcome_modify (change : σ → σ) (held : σ) :
    outcome (modify change : Inspecting σ PUnit) held = (.ok (), change held) := rfl

@[simp] theorem outcome_get_bind (next : σ → Inspecting σ α) (held : σ) :
    outcome (get >>= next) held = outcome (next held) held := rfl

@[simp] theorem outcome_modify_bind (change : σ → σ) (next : PUnit → Inspecting σ α) (held : σ) :
    outcome (modify change >>= next) held = outcome (next ⟨⟩) (change held) := rfl

/-- Steps behind others are taken only if those have come to an end without a diagnostic. -/
theorem outcome_bind (steps : Inspecting σ α) (next : α → Inspecting σ β) (held : σ) :
    outcome (steps >>= next) held =
      match outcome steps held with
      | (.ok a, left) => outcome (next a) left
      | (.error d, left) => (.error d, left) := by
  have continued : outcome (steps >>= next) held =
      match outcome steps held with
      | (ending, left) => (ExceptT.bindCont next ending).run left := rfl
  rw [continued]
  obtain ⟨d | a, left⟩ := outcome steps held <;> rfl

/-- A search through items that ends with a diagnostic when it finds one, and changes nothing. -/
theorem outcome_search (bad : ι → Bool) (d : Diagnostic) (items : List ι) (held : σ) :
    outcome (forIn items PUnit.unit fun item _ => do
      if bad item then throw d
      pure (ForInStep.yield PUnit.unit)) held =
      (if items.any bad then .error d else .ok PUnit.unit, held) := by
  induction items with
  | nil => rfl
  | cons item rest ih =>
      rw [List.forIn_cons]
      cases found : bad item with
      | true => simp [found]
      | false => simpa [found, outcome_bind] using ih

end Inspecting

/-- What is done with each item. -/
abbrev Inspector (σ ι : Type) := ι → Inspecting σ Unit

/-- Items with the verdicts on them, and what is held in the end. -/
structure Inspection (σ ι : Type) where
  judged : List (ι × Verdict)
  held : σ

namespace Inspector

variable {σ ι : Type}

def judge (inspector : Inspector σ ι) (held : σ) (item : ι) : Verdict × σ :=
  (inspector item).outcome held

def inspect (inspector : Inspector σ ι) (held : σ) : List ι → Inspection σ ι
  | [] => ⟨[], held⟩
  | item :: rest =>
    let (verdict, left) := inspector.judge held item
    let later := inspector.inspect left rest
    ⟨(item, verdict) :: later.judged, later.held⟩

end Inspector

namespace Inspection

variable {σ ι : Type}

/-- The items that were not rejected. -/
def accepted (inspection : Inspection σ ι) : List ι :=
  (inspection.judged.filter fun entry => entry.2.isOk).map Prod.fst

@[simp] theorem accepted_ok (item : ι) (judged : List (ι × Verdict)) (held : σ) :
    accepted ⟨(item, .ok ()) :: judged, held⟩ = item :: accepted ⟨judged, held⟩ := rfl

@[simp] theorem accepted_error (item : ι) (d : Diagnostic) (judged : List (ι × Verdict))
    (held : σ) : accepted ⟨(item, .error d) :: judged, held⟩ = accepted ⟨judged, held⟩ := rfl

end Inspection
end SchemaHistory
