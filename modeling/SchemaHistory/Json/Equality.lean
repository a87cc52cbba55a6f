import SchemaHistory.Json.Basic

/-! # Equality of JSON values

Whether two values are written alike is decided member by member: `same` is the test, and
`same_iff` says that it is equality. -/
set_option autoImplicit false
namespace SchemaHistory.Json

mutual

def same : Json → Json → Bool
  | .null, .null => true
  | .bool a, .bool b => a == b
  | .int a, .int b => a == b
  | .real a, .real b => decide (a = b)
  | .str a, .str b => decide (a = b)
  | .arr as, .arr bs => sameItems as bs
  | .obj as, .obj bs => sameMembers as bs
  | _, _ => false

def sameItems : List Json → List Json → Bool
  | [], [] => true
  | a :: as, b :: bs => same a b && sameItems as bs
  | _, _ => false

def sameMembers : List (Text × Json) → List (Text × Json) → Bool
  | [], [] => true
  | (m, a) :: as, (n, b) :: bs => decide (m = n) && (same a b && sameMembers as bs)
  | _, _ => false

end

mutual

theorem same_self : (a : Json) → same a a = true
  | .null => by simp [same]
  | .bool _ => by simp [same]
  | .int _ => by simp [same]
  | .real _ => by simp [same]
  | .str _ => by simp [same]
  | .arr as => by simp [same, sameItems_self as]
  | .obj as => by simp [same, sameMembers_self as]

theorem sameItems_self : (as : List Json) → sameItems as as = true
  | [] => by simp [sameItems]
  | a :: as => by simp [sameItems, same_self a, sameItems_self as]

theorem sameMembers_self : (as : List (Text × Json)) → sameMembers as as = true
  | [] => by simp [sameMembers]
  | (_, a) :: as => by simp [sameMembers, same_self a, sameMembers_self as]

end

mutual

theorem eq_of_same : (a b : Json) → same a b = true → a = b
  | a, .null, h => by cases a <;> simp_all [same]
  | a, .bool _, h => by cases a <;> simp_all [same]
  | a, .int _, h => by cases a <;> simp_all [same]
  | a, .real _, h => by cases a <;> simp_all [same]
  | a, .str _, h => by cases a <;> simp_all [same]
  | .arr as, .arr bs, h => by
      rw [same] at h
      rw [eq_of_sameItems as bs h]
  | .obj as, .obj bs, h => by
      rw [same] at h
      rw [eq_of_sameMembers as bs h]
  | .null, .arr _, h => by simp [same] at h
  | .bool _, .arr _, h => by simp [same] at h
  | .int _, .arr _, h => by simp [same] at h
  | .real _, .arr _, h => by simp [same] at h
  | .str _, .arr _, h => by simp [same] at h
  | .obj _, .arr _, h => by simp [same] at h
  | .null, .obj _, h => by simp [same] at h
  | .bool _, .obj _, h => by simp [same] at h
  | .int _, .obj _, h => by simp [same] at h
  | .real _, .obj _, h => by simp [same] at h
  | .str _, .obj _, h => by simp [same] at h
  | .arr _, .obj _, h => by simp [same] at h

theorem eq_of_sameItems : (as bs : List Json) → sameItems as bs = true → as = bs
  | [], [], _ => rfl
  | a :: as, b :: bs, h => by
      rw [sameItems, Bool.and_eq_true] at h
      rw [eq_of_same a b h.1, eq_of_sameItems as bs h.2]
  | [], _ :: _, h => by simp [sameItems] at h
  | _ :: _, [], h => by simp [sameItems] at h

theorem eq_of_sameMembers : (as bs : List (Text × Json)) → sameMembers as bs = true → as = bs
  | [], [], _ => rfl
  | (m, a) :: as, (n, b) :: bs, h => by
      rw [sameMembers, Bool.and_eq_true, Bool.and_eq_true, decide_eq_true_eq] at h
      rw [h.1, eq_of_same a b h.2.1, eq_of_sameMembers as bs h.2.2]
  | [], _ :: _, h => by simp [sameMembers] at h
  | _ :: _, [], h => by simp [sameMembers] at h

end

theorem same_iff {a b : Json} : same a b = true ↔ a = b :=
  ⟨eq_of_same a b, fun equal => equal ▸ same_self a⟩

instance : DecidableEq Json := fun a b =>
  if h : same a b = true then isTrue (same_iff.mp h)
  else isFalse fun equal => h (same_iff.mpr equal)

end SchemaHistory.Json
