import SchemaHistory.Proofs.Compiled.Coherence

/-! # What a snapshot picks from a schema

A snapshot that comes from elsewhere need not be a layout of any version.  `Snapshot.schema` is the
schema without versions that it picks: the declarations of its types, each with the members that are
listed.  When the places of a snapshot are valid, its facts are those of what it picks
(`facts_schema`). -/
set_option autoImplicit false
namespace SchemaHistory

def MemberSlot.pick (slot : MemberSlot) (v : Variant) : Variant :=
  match v.payload with
  | .struct _ => { v with payload := .struct (slot.fields v) }
  | _ => v

def TypeSlot.pick (slot : TypeSlot) (d : Decl) : Decl :=
  match d.body with
  | .record node _ => { d with body := .record node (slot.fields d) }
  | .enum _ => { d with body := .enum ((slot.variants d).map fun m => m.1.pick m.2) }

def Snapshot.schema (decls : List Decl) (s : Snapshot) : List Decl :=
  (s.declared decls).map fun t => t.1.pick t.2

/-- A slot that stands for a member of the type: records have fields and enums have variants, and
only a struct variant lists fields. -/
inductive MemberSlot.IsValid (d : Decl) : MemberSlot → Prop
  | field {i : Nat} (inside : i < d.fields.length) : IsValid d (.plain i)
  | variant {i : Nat} (inside : i < d.variants.length) : IsValid d (.plain i)
  | struct {i : Nat} {v : Variant} {fs : List Field} {inner : List Nat}
      (found : d.variants[i]? = some v) (payload : v.payload = .struct fs)
      (inside : ∀ j ∈ inner, j < fs.length) : IsValid d (.struct i inner)

def TypeSlot.IsValid (decls : List Decl) (slot : TypeSlot) : Prop :=
  ∃ d, decls[slot.index]? = some d ∧ ∀ m ∈ slot.members, m.IsValid d

def Snapshot.IsValid (decls : List Decl) (s : Snapshot) : Prop :=
  ∀ slot ∈ s.types, slot.IsValid decls

/-! ## What is picked -/

section
variable {d : Decl} {slot : TypeSlot}

@[simp] theorem MemberSlot.pick_name (slot : MemberSlot) (v : Variant) :
    (slot.pick v).name = v.name := by
  unfold pick
  split <;> rfl

@[simp] theorem TypeSlot.pick_name (slot : TypeSlot) (d : Decl) : (slot.pick d).name = d.name := by
  unfold pick
  split <;> rfl

@[simp] theorem TypeSlot.pick_isNode (slot : TypeSlot) (d : Decl) :
    (slot.pick d).isNode = d.isNode := by
  obtain ⟨name, body, header, position⟩ := d
  cases body with
  | record node fs => cases node <;> rfl
  | enum vs => rfl

theorem TypeSlot.mem_fields {f : Field} (member : f ∈ slot.fields d) : f ∈ d.fields := by
  obtain ⟨m, -, found⟩ := List.mem_filterMap.mp member
  exact List.mem_of_getElem? found

theorem TypeSlot.mem_variants {m : MemberSlot × Variant} (member : m ∈ slot.variants d) :
    m.1 ∈ slot.members ∧ d.variants[m.1.index]? = some m.2 := by
  obtain ⟨own, listed, resolved⟩ := List.mem_filterMap.mp member
  obtain ⟨v, found, rfl⟩ := Option.map_eq_some_iff.mp resolved
  exact ⟨listed, found⟩

theorem MemberSlot.mem_fields {slot : MemberSlot} {v : Variant} {f : Field}
    (member : f ∈ slot.fields v) : f ∈ v.payload.fields := by
  cases slot with
  | plain i => cases member
  | struct i inner =>
      obtain ⟨j, -, found⟩ := List.mem_filterMap.mp member
      exact List.mem_of_getElem? found

theorem MemberSlot.mem_pick_fields {slot : MemberSlot} {v : Variant} {f : Field}
    (member : f ∈ (slot.pick v).payload.fields) : f ∈ v.payload.fields := by
  unfold pick at member
  split at member
  · exact mem_fields member
  · exact member

theorem MemberSlot.mem_pick_expressions {slot : MemberSlot} {v : Variant} {t : TypeExpr}
    (member : t ∈ (slot.pick v).expressions) : t ∈ v.expressions := by
  unfold pick at member
  split at member
  · rename_i fs payload
    obtain ⟨f, listed, rfl⟩ := List.mem_map.mp member
    have own := mem_fields listed
    rw [payload] at own
    rw [Variant.expressions, payload]
    exact List.mem_map_of_mem own
  · exact member

theorem TypeSlot.mem_pick_fields {f : Field} (member : f ∈ (slot.pick d).fields) :
    f ∈ d.fields := by
  unfold pick at member
  split at member
  · exact mem_fields member
  · cases member

theorem TypeSlot.mem_pick_variants {w : Variant} (member : w ∈ (slot.pick d).variants) :
    ∃ m ∈ slot.variants d, m.1.pick m.2 = w := by
  unfold pick at member
  split at member
  · cases member
  · exact List.mem_map.mp member

theorem TypeSlot.pick_texts (texts : d.HasTextNames) : (slot.pick d).HasTextNames := by
  have listed {w : Variant} (member : w ∈ (slot.pick d).variants) :
      ∃ m : MemberSlot × Variant, m.2 ∈ d.variants ∧ m.1.pick m.2 = w := by
    obtain ⟨m, inside, rfl⟩ := mem_pick_variants member
    exact ⟨m, List.mem_of_getElem? (mem_variants inside).2, rfl⟩
  refine ⟨?_, fun f member => texts.fields f (mem_pick_fields member), ?_, ?_, ?_⟩
  · rw [pick_name]
    exact texts.own
  · intro w member
    obtain ⟨m, own, rfl⟩ := listed member
    rw [MemberSlot.pick_name]
    exact texts.variants m.2 own
  · intro w member f inside
    obtain ⟨m, own, rfl⟩ := listed member
    exact texts.inner m.2 own f (MemberSlot.mem_pick_fields inside)
  · intro t member
    rcases List.mem_append.mp member with field | variant
    · obtain ⟨f, inside, rfl⟩ := List.mem_map.mp field
      exact texts.used _ (List.mem_append_left _ (List.mem_map_of_mem (mem_pick_fields inside)))
    · obtain ⟨w, member, carried⟩ := List.mem_flatMap.mp variant
      obtain ⟨m, own, rfl⟩ := listed member
      have inside := MemberSlot.mem_pick_expressions carried
      exact texts.used t (List.mem_append_right _ (List.mem_flatMap.mpr ⟨m.2, own, inside⟩))

end

namespace Snapshot
variable {decls : List Decl} {s : Snapshot}

theorem mem_declared {t : TypeSlot × Decl} (member : t ∈ s.declared decls) :
    t.1 ∈ s.types ∧ decls[t.1.index]? = some t.2 := by
  obtain ⟨slot, listed, resolved⟩ := List.mem_filterMap.mp member
  obtain ⟨d, found, rfl⟩ := Option.map_eq_some_iff.mp resolved
  exact ⟨listed, found⟩

theorem schema_names (decls : List Decl) (s : Snapshot) :
    (s.schema decls).map Decl.name = s.typeNames decls := by
  simp only [schema, typeNames, List.map_map, Function.comp_def, TypeSlot.pick_name]

theorem schema_texts (texts : HasTextNames decls) : HasTextNames (s.schema decls) := by
  intro e member
  obtain ⟨t, listed, rfl⟩ := List.mem_map.mp member
  exact TypeSlot.pick_texts (texts _ (List.mem_of_getElem? (mem_declared listed).2))

end Snapshot

/-! ## The facts of what is picked -/

namespace Fact
variable {version : Int}

theorem ofMembers_eq {fs : List Field} {members : List MemberSlot}
    (plain : ∀ m ∈ members, m.isPlain = true) :
    ofMembers fs members = ofFields (members.filterMap fun m => fs[m.index]?) := by
  induction members with
  | nil => rfl
  | cons m rest ih =>
      have later := ih fun m member => plain m (List.mem_cons_of_mem _ member)
      cases m with
      | struct i inner => cases plain _ List.mem_cons_self
      | plain i =>
          rw [ofMembers, later]
          cases found : fs[i]? <;> simp [ofFields, MemberSlot.index, found]

theorem ofVariants_pick {enumName : Json} {n : Numbering} {ms : List (MemberSlot × Variant)}
    (lists : ∀ m ∈ ms, m.1.isPlain = true ∨ ∃ fs, m.2.payload = .struct fs) :
    ofVariants enumName version n ms =
      Variant.facts enumName version n (ms.map fun m => m.1.pick m.2) := by
  induction ms generalizing n with
  | nil => rfl
  | cons m rest ih =>
      have later (n : Numbering) := ih (n := n) fun m member =>
        lists m (List.mem_cons_of_mem _ member)
      obtain ⟨slot, name, payload, header, position⟩ := m
      have own := lists _ List.mem_cons_self
      cases slot with
      | plain i =>
          cases payload with
          | struct fs => exact later n
          | tuple ts => exact congrArg (TypeExpr.factsOfAll ts ++ ·) (later n)
          | unit =>
              simp only [ofVariants, List.map_cons, MemberSlot.pick, Variant.facts, later]
              rfl
          | int discriminant =>
              simp only [ofVariants, List.map_cons, MemberSlot.pick, Variant.facts, later]
              rfl
      | struct i inner =>
          obtain plain | ⟨fs, payload⟩ := own
          · cases plain
          · cases payload
            exact congrArg (ofFields _ ++ ·) (later n)

theorem ofType_pick {slot : TypeSlot} {d : Decl} (valid : ∀ m ∈ slot.members, m.IsValid d) :
    ofType version slot d = (slot.pick d).facts version := by
  rw [ofType, Decl.facts, TypeSlot.pick_name, TypeSlot.pick_isNode]
  refine congrArg _ ?_
  obtain ⟨name, body, header, position⟩ := d
  cases body with
  | record node fs =>
      apply ofMembers_eq
      intro m member
      cases valid m member with
      | field inside => rfl
      | variant inside => rfl
      | struct found payload inside => cases found
  | enum vs =>
      apply ofVariants_pick
      intro m member
      obtain ⟨listed, found⟩ := TypeSlot.mem_variants member
      cases h : m.1 with
      | plain i => exact .inl rfl
      | struct i inner =>
          rw [h] at listed found
          cases valid _ listed with
          | struct own payload inside =>
              cases found.symm.trans own
              exact .inr ⟨_, payload⟩

/-- The facts of a snapshot with valid places are those of the schema that it picks. -/
theorem facts_schema {decls : List Decl} {s : Snapshot} (valid : s.IsValid decls) :
    ofSnapshot decls s = (s.schema decls).flatMap (Decl.facts s.version) := by
  rw [ofSnapshot, Snapshot.schema, List.flatMap_map]
  refine List.flatMap_congr fun t member => ?_
  obtain ⟨listed, found⟩ := Snapshot.mem_declared member
  obtain ⟨d, own, members⟩ := valid t.1 listed
  cases found.symm.trans own
  exact ofType_pick members

end Fact
end SchemaHistory
