import SchemaHistory.Json.Order
import SchemaHistory.Proofs.Json.Written
import SchemaHistory.Proofs.Table

/-! # Sorted members

Sorting puts the members of an object in the order of their names and sorts their values.  Where
all names differ, what is found under a name stays the same up to sorting, so objects that are the
same when sorted have the same members up to sorting (`find?_sorted_eq`). -/
set_option autoImplicit false
namespace SchemaHistory.Json
variable {name : Text} {value : Json} {members others : List (Text × Json)}

theorem mem_insertSorted {m : Text × Json} :
    m ∈ insertSorted name value members ↔ m = (name, value) ∨ m ∈ members := by
  induction members with
  | nil => simp [insertSorted]
  | cons first rest ih =>
      obtain ⟨n, v⟩ := first
      rw [insertSorted]
      split
      · exact List.mem_cons
      · rw [List.mem_cons, ih, List.mem_cons, or_left_comm]

theorem find?_insertSorted (fresh : name ∉ members.map Prod.fst) (key : Text) :
    Table.find? key (insertSorted name value members) =
      if name = key then some value else Table.find? key members := by
  induction members with
  | nil => rfl
  | cons first rest ih =>
      obtain ⟨n, v⟩ := first
      rw [List.map_cons, List.mem_cons, not_or] at fresh
      obtain ⟨other, later⟩ := fresh
      rw [insertSorted]
      split
      · rfl
      · rw [Table.find?, Table.find?, ih later]
        by_cases same : n = key
        · subst same
          simp [other]
        · simp [same]

theorem sortedItems_eq_map (items : List Json) : sortedItems items = items.map sorted := by
  induction items with
  | nil => rfl
  | cons item items ih => rw [sortedItems, ih, List.map_cons]

theorem mem_sortedMembers {m : Text × Json} :
    m ∈ sortedMembers members ↔ ∃ n ∈ members, m = (n.1, n.2.sorted) := by
  induction members with
  | nil => simp [sortedMembers]
  | cons first rest ih =>
      rw [sortedMembers, mem_insertSorted, ih]
      simp

theorem find?_sortedMembers (keyed : Table.Keyed members) (key : Text) :
    Table.find? key (sortedMembers members) = (Table.find? key members).map sorted := by
  induction members with
  | nil => rfl
  | cons first rest ih =>
      obtain ⟨n, v⟩ := first
      obtain ⟨fresh, later⟩ := List.nodup_cons.mp keyed
      have absent : n ∉ (sortedMembers rest).map Prod.fst := by
        intro member
        obtain ⟨_, listed, named⟩ := List.mem_map.mp member
        obtain ⟨m, inside, rfl⟩ := mem_sortedMembers.mp listed
        exact fresh (List.mem_map.mpr ⟨m, inside, named⟩)
      rw [sortedMembers, find?_insertSorted absent, ih later, Table.find?]
      split <;> rfl

/-- Objects that are the same when sorted have the same members up to sorting. -/
theorem find?_sorted_eq (keyed : Table.Keyed members) (otherKeyed : Table.Keyed others)
    (same : (obj members).sorted = (obj others).sorted) (key : Text) :
    (Table.find? key members).map sorted = (Table.find? key others).map sorted := by
  rw [sorted, sorted] at same
  rw [← find?_sortedMembers keyed, ← find?_sortedMembers otherKeyed, Json.obj.inj same]

@[simp] theorem sorted_int (n : Int) : sorted (.int n) = .int n := by
  rw [sorted] <;> simp

@[simp] theorem sorted_str (s : Text) : sorted (.str s) = .str s := by
  rw [sorted] <;> simp

theorem sorted_of_isText {name : Json} (text : name.isText = true) : name.sorted = name := by
  cases name with
  | str s => exact sorted_str s
  | _ => cases text

theorem Plain.sorted {a : Json} (plain : Plain a) : Plain a.sorted := by
  induction plain with
  | int =>
      rw [sorted_int]
      exact .int
  | str verbatim =>
      rw [sorted_str]
      exact .str verbatim
  | @arr items all ih =>
      rw [Json.sorted, sortedItems_eq_map]
      exact .arr (List.forall_mem_map.mpr ih)
  | obj names values ih =>
      rw [Json.sorted]
      refine .obj ?_ ?_
      · intro m member
        obtain ⟨n, inside, rfl⟩ := mem_sortedMembers.mp member
        exact names n inside
      · intro m member
        obtain ⟨n, inside, rfl⟩ := mem_sortedMembers.mp member
        exact ih n inside

end SchemaHistory.Json
