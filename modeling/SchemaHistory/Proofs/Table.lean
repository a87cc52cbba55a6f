import Mathlib.Data.List.Induction
import Mathlib.Data.List.Nodup
import SchemaHistory.Table

/-! # Tables in which each key stands once

Setting a key leaves the keys of a table distinct, and in such a table an entry is found under its
key exactly when it stands in the list. -/
set_option autoImplicit false
namespace SchemaHistory.Table
variable {κ α : Type} [DecidableEq κ]

def Keyed (table : List (κ × α)) : Prop := (table.map Prod.fst).Nodup

theorem keys_insert (key : κ) (value : α) (table : List (κ × α)) :
    (insert key value table).map Prod.fst =
      if key ∈ table.map Prod.fst then table.map Prod.fst else table.map Prod.fst ++ [key] := by
  induction table with
  | nil => rfl
  | cons entry rest ih =>
      obtain ⟨k, v⟩ := entry
      by_cases same : k = key
      · simp [insert, same]
      · have other : key ≠ k := Ne.symm same
        simp only [insert, if_neg same, List.map_cons, ih, List.mem_cons, other, false_or]
        split_ifs <;> rfl

theorem Keyed.insert {table : List (κ × α)} (keyed : Keyed table) (key : κ) (value : α) :
    Keyed (insert key value table) := by
  rw [Keyed, keys_insert]
  split_ifs with present
  · exact keyed
  · exact keyed.append (List.nodup_singleton key) (List.disjoint_singleton.mpr present)

theorem find?_of_mem {table : List (κ × α)} {key : κ} {value : α} (keyed : Keyed table)
    (member : (key, value) ∈ table) : find? key table = some value := by
  induction table with
  | nil => cases member
  | cons entry rest ih =>
      obtain ⟨k, v⟩ := entry
      obtain ⟨absent, keyed⟩ := List.nodup_cons.mp keyed
      rcases List.mem_cons.mp member with same | later
      · cases same
        rw [find?, if_pos rfl]
      · have other : k ≠ key := by
          rintro rfl
          exact absent (List.mem_map.mpr ⟨_, later, rfl⟩)
        rw [find?, if_neg other]
        exact ih keyed later

theorem find?_eq_none_iff {key : κ} {table : List (κ × α)} :
    find? key table = none ↔ key ∉ table.map Prod.fst := by
  induction table with
  | nil => simp [find?]
  | cons entry rest ih =>
      obtain ⟨k, v⟩ := entry
      by_cases same : k = key
      · simp [find?, same]
      · simp [find?, same, ih, Ne.symm same]

theorem find?_append (key : κ) (table rest : List (κ × α)) :
    find? key (table ++ rest) = (find? key table).or (find? key rest) := by
  induction table with
  | nil => rfl
  | cons entry table ih =>
      obtain ⟨k, v⟩ := entry
      by_cases same : k = key
      · simp [find?, same]
      · simp [find?, same, ih]

theorem insert_of_not_mem {key : κ} {value : α} {table : List (κ × α)}
    (absent : key ∉ table.map Prod.fst) : insert key value table = table ++ [(key, value)] := by
  induction table with
  | nil => rfl
  | cons entry rest ih =>
      obtain ⟨k, v⟩ := entry
      obtain ⟨other, absent⟩ := not_or.mp (mt List.mem_cons.mpr absent)
      rw [insert, if_neg (Ne.symm other), ih absent, List.cons_append]

/-- Entries with distinct keys are their own table. -/
theorem ofList_of_keyed {entries : List (κ × α)} (keyed : Keyed entries) :
    ofList entries = entries := by
  induction entries using List.reverseRecOn with
  | nil => rfl
  | append_singleton entries entry ih =>
      rw [Keyed, List.map_append, List.nodup_append'] at keyed
      obtain ⟨before, -, apart⟩ := keyed
      have absent : entry.1 ∉ entries.map Prod.fst :=
        fun member => apart member (List.mem_singleton_self _)
      have done := ih before
      unfold ofList at done ⊢
      rw [List.foldl_append, done]
      exact insert_of_not_mem absent

theorem mem_of_mem_insert {key : κ} {value : α} {table : List (κ × α)} {entry : κ × α}
    (member : entry ∈ insert key value table) : entry = (key, value) ∨ entry ∈ table := by
  induction table with
  | nil => exact .inl (List.mem_singleton.mp member)
  | cons first rest ih =>
      rw [insert] at member
      split at member
      · rename_i same
        rcases List.mem_cons.mp member with rfl | later
        · exact .inl (congrArg (Prod.mk · value) same)
        · exact .inr (List.mem_cons_of_mem _ later)
      · rcases List.mem_cons.mp member with rfl | later
        · exact .inr List.mem_cons_self
        · exact (ih later).imp_right (List.mem_cons_of_mem _)

theorem mem_of_mem_ofList {entries : List (κ × α)} {entry : κ × α}
    (member : entry ∈ ofList entries) : entry ∈ entries := by
  induction entries using List.reverseRecOn with
  | nil => cases member
  | append_singleton entries last ih =>
      rw [ofList, List.foldl_append] at member
      rcases mem_of_mem_insert member with same | earlier
      · exact List.mem_append_right _ (List.mem_singleton.mpr same)
      · exact List.mem_append_left _ (ih earlier)

end SchemaHistory.Table
