/-! # Tables in order of arrival

A table is a list of keys with their values, each key once, in the order in which the keys first
came.  Setting a key that is already there keeps its place and replaces its value. -/
set_option autoImplicit false
namespace SchemaHistory.Table
variable {κ α : Type} [DecidableEq κ]

def insert (key : κ) (value : α) : List (κ × α) → List (κ × α)
  | [] => [(key, value)]
  | (k, v) :: rest => if k = key then (k, value) :: rest else (k, v) :: insert key value rest

/-- The table after setting the given keys one after the other. -/
def ofList (entries : List (κ × α)) : List (κ × α) :=
  entries.foldl (fun table entry => insert entry.1 entry.2 table) []

def find? (key : κ) : List (κ × α) → Option α
  | [] => none
  | (k, v) :: rest => if k = key then some v else find? key rest

theorem find?_insert (key k : κ) (value : α) (table : List (κ × α)) :
    find? k (insert key value table) = if key = k then some value else find? k table := by
  induction table with
  | nil => simp [insert, find?]
  | cons entry rest ih =>
      obtain ⟨k', v⟩ := entry
      simp only [insert]
      split
      · rename_i same
        subst same
        by_cases h : k' = k <;> simp [find?, h]
      · rename_i other
        simp only [find?, ih]
        by_cases h : k' = k
        · subst h; simp [Ne.symm other]
        · simp [h]

theorem mem_of_find? {key : κ} {value : α} {table : List (κ × α)}
    (found : find? key table = some value) : (key, value) ∈ table := by
  induction table with
  | nil => simp [find?] at found
  | cons entry rest ih =>
      obtain ⟨k, v⟩ := entry
      simp only [find?] at found
      split at found
      · rename_i same
        cases found
        exact same ▸ List.mem_cons_self
      · exact List.mem_cons_of_mem _ (ih found)

end SchemaHistory.Table
