import SchemaHistory.Proofs.History.Items
import SchemaHistory.Proofs.History.Placing

/-! # The layout of a version, read off the declarations

`Layout.types` says what a version holds without any history: every declaration whose lifetime
contains the version, in the order of the declarations, with those members whose own lifetimes
contain it, and for a struct variant with those of its fields.  `written_placements` says that
following the version through the placements of a schema gives this layout. -/
set_option autoImplicit false
namespace SchemaHistory

namespace Layout

def fields (version : Int) (container : Lifetime) (fs : List Field) : List Nat :=
  (fs.zipIdx.filter fun e => decide (version ∈ e.1.lifetime container)).map Prod.snd

def variant (version : Int) (container : Lifetime) (v : Variant) (i : Nat) : MemberSlot :=
  match v.payload with
  | .struct fs => .struct i (fields version (v.lifetime container) fs)
  | _ => .plain i

def variants (version : Int) (container : Lifetime) (vs : List Variant) : List MemberSlot :=
  (vs.zipIdx.filter fun e => decide (version ∈ e.1.lifetime container)).map fun e =>
    variant version container e.1 e.2

def members (version : Int) (d : Decl) : List MemberSlot :=
  match d.body with
  | .record _ fs => (fields version d.lifetime fs).map .plain
  | .enum vs => variants version d.lifetime vs

def types (version : Int) (decls : List Decl) : List TypeSlot :=
  (decls.zipIdx.filter fun e => decide (version ∈ e.1.lifetime)).map fun e =>
    ⟨e.2, members version e.1⟩

end Layout

namespace History

/-! ## Following one version through the items

The state while a type is placed is `types ++ [⟨i, slots⟩]`: what was placed before it, and the type
itself with the members placed so far. -/

section
variable {version : Int} (types : List TypeSlot) (i : Nat)

theorem putAt_type {l : Lifetime} (inside : version ∈ l) :
    putAt version types ⟨l, .type i⟩ = types ++ [⟨i, []⟩] :=
  putAt_of_mem inside

theorem putAt_member {l : Lifetime} (slots : List MemberSlot) (slot : MemberSlot)
    (inside : version ∈ l) :
    putAt version (types ++ [⟨i, slots⟩]) ⟨l, .member slot⟩ = types ++ [⟨i, slots ++ [slot]⟩] := by
  rw [putAt_of_mem inside]
  exact onLast_concat _ types ⟨i, slots⟩

theorem putAt_field {l : Lifetime} (slots : List MemberSlot) (j k : Nat) (inner : List Nat)
    (inside : version ∈ l) :
    putAt version (types ++ [⟨i, slots ++ [.struct j inner]⟩]) ⟨l, .field k⟩ =
      types ++ [⟨i, slots ++ [.struct j (inner ++ [k])]⟩] := by
  rw [putAt_of_mem inside]
  have inMember : onLast (Slot.addField k) (slots ++ [.struct j inner]) =
      slots ++ [.struct j (inner ++ [k])] := onLast_concat _ slots (.struct j inner)
  simp only [Slot.putInto, onLast_concat, Slot.onLastMember, inMember]

theorem foldl_recordFields (container : Lifetime) (fs : List Field) (k : Nat)
    (slots : List MemberSlot) :
    ((fieldItems container (fun j => .member (.plain j)) k fs).map Item.placement).foldl
        (putAt version) (types ++ [⟨i, slots⟩]) =
      types ++ [⟨i, slots ++ (((fs.zipIdx k).filter fun e =>
        decide (version ∈ e.1.lifetime container)).map Prod.snd).map .plain⟩] := by
  induction fs generalizing k slots with
  | nil => simp [fieldItems]
  | cons f rest ih =>
      simp only [fieldItems, List.zipIdx_cons, List.map_cons, List.foldl_cons] at ih ⊢
      by_cases inside : version ∈ f.lifetime container
      · rw [Item.placement_field, putAt_member types i slots (.plain k) inside, ih]
        simp [inside]
      · rw [Item.placement_field, putAt_of_not_mem inside, ih]
        simp [inside]

theorem foldl_structFields (container : Lifetime) (fs : List Field) (k : Nat)
    (slots : List MemberSlot) (j : Nat) (inner : List Nat) :
    ((fieldItems container .field k fs).map Item.placement).foldl
        (putAt version) (types ++ [⟨i, slots ++ [.struct j inner]⟩]) =
      types ++ [⟨i, slots ++ [.struct j (inner ++ ((fs.zipIdx k).filter fun e =>
        decide (version ∈ e.1.lifetime container)).map Prod.snd)]⟩] := by
  induction fs generalizing k inner with
  | nil => simp [fieldItems]
  | cons f rest ih =>
      simp only [fieldItems, List.zipIdx_cons, List.map_cons, List.foldl_cons] at ih ⊢
      by_cases inside : version ∈ f.lifetime container
      · rw [Item.placement_field, putAt_field types i slots j k inner inside, ih]
        simp [inside]
      · rw [Item.placement_field, putAt_of_not_mem inside, ih]
        simp [inside]

theorem outside_fieldItems {container : Lifetime} (outside : version ∉ container)
    (slot : Nat → Slot) (k : Nat) (fs : List Field) :
    ∀ p ∈ (fieldItems container slot k fs).map Item.placement, version ∉ p.lifetime := by
  intro p member inside
  obtain ⟨item, listed, rfl⟩ := List.mem_map.mp member
  obtain ⟨e, -, rfl⟩ := List.mem_map.mp listed
  exact outside (Lifetime.ofHeader_subset _ _ version inside)

theorem foldl_variant (container : Lifetime) (v : Variant) (j : Nat) (slots : List MemberSlot) :
    ((variantItems container v j).map Item.placement).foldl
        (putAt version) (types ++ [⟨i, slots⟩]) =
      types ++ [⟨i, slots ++ (if version ∈ v.lifetime container then
        [Layout.variant version container v j] else [])⟩] := by
  rw [variantItems, List.map_cons, List.foldl_cons, Item.placement_variant]
  by_cases inside : version ∈ v.lifetime container
  · rw [putAt_member types i slots _ inside, if_pos inside]
    unfold Walk.slotOf Layout.variant
    cases v.payload with
    | struct fs =>
        simp only [Payload.isStruct, if_true, Payload.fields]
        rw [foldl_structFields]
        rfl
    | unit => simp [Payload.isStruct, Payload.fields, fieldItems]
    | int discriminant => simp [Payload.isStruct, Payload.fields, fieldItems]
    | tuple ts => simp [Payload.isStruct, Payload.fields, fieldItems]
  · rw [putAt_of_not_mem inside, if_neg inside, List.append_nil]
    exact foldl_putAt_of_not_mem _ (outside_fieldItems inside .field 0 v.payload.fields)

theorem foldl_variants (container : Lifetime) (vs : List Variant) (k : Nat)
    (slots : List MemberSlot) :
    (((vs.zipIdx k).flatMap fun e => variantItems container e.1 e.2).map Item.placement).foldl
        (putAt version) (types ++ [⟨i, slots⟩]) =
      types ++ [⟨i, slots ++ ((vs.zipIdx k).filter fun e =>
        decide (version ∈ e.1.lifetime container)).map fun e =>
          Layout.variant version container e.1 e.2⟩] := by
  induction vs generalizing k slots with
  | nil => simp
  | cons v rest ih =>
      simp only [List.zipIdx_cons, List.flatMap_cons, List.map_append, List.foldl_append]
      rw [foldl_variant, ih]
      by_cases inside : version ∈ v.lifetime container <;> simp [inside]

theorem foldl_members (d : Decl) :
    ((memberItems d).map Item.placement).foldl (putAt version) (types ++ [⟨i, []⟩]) =
      types ++ [⟨i, Layout.members version d⟩] := by
  unfold memberItems Layout.members Decl.fields Decl.variants
  cases d.body with
  | record node fs =>
      simp only [List.zipIdx_nil, List.flatMap_nil, List.append_nil]
      exact foldl_recordFields types i d.lifetime fs 0 []
  | enum vs =>
      simp only [fieldItems, List.zipIdx_nil, List.map_nil, List.nil_append]
      exact foldl_variants types i d.lifetime vs 0 []

end

theorem outside_memberItems {version : Int} {d : Decl} (outside : version ∉ d.lifetime) :
    ∀ p ∈ (memberItems d).map Item.placement, version ∉ p.lifetime := by
  intro p member
  rw [memberItems, List.map_append] at member
  rcases List.mem_append.mp member with field | variant
  · exact outside_fieldItems outside _ 0 d.fields p field
  · obtain ⟨item, listed, rfl⟩ := List.mem_map.mp variant
    obtain ⟨e, -, inside⟩ := List.mem_flatMap.mp listed
    have gone : version ∉ e.1.lifetime d.lifetime :=
      fun inside => outside (Lifetime.ofHeader_subset _ _ version inside)
    rcases List.mem_cons.mp inside with rfl | field
    · exact gone
    · exact outside_fieldItems gone .field 0 e.1.payload.fields _ (List.mem_map_of_mem field)

theorem foldl_decl (version : Int) (d : Decl) (k : Nat) (types : List TypeSlot) :
    ((declItems d k).map Item.placement).foldl (putAt version) types =
      types ++ (if version ∈ d.lifetime then [⟨k, Layout.members version d⟩] else []) := by
  rw [declItems, List.map_cons, List.foldl_cons, Item.placement_type]
  by_cases inside : version ∈ d.lifetime
  · rw [putAt_type types k inside, foldl_members, if_pos inside]
  · rw [putAt_of_not_mem inside, if_neg inside, List.append_nil]
    exact foldl_putAt_of_not_mem types (outside_memberItems inside)

theorem foldl_decls (version : Int) (decls : List Decl) (k : Nat) (types : List TypeSlot) :
    (((decls.zipIdx k).flatMap fun e => declItems e.1 e.2).map Item.placement).foldl
        (putAt version) types =
      types ++ ((decls.zipIdx k).filter fun e => decide (version ∈ e.1.lifetime)).map fun e =>
        ⟨e.2, Layout.members version e.1⟩ := by
  induction decls generalizing k types with
  | nil => simp
  | cons d rest ih =>
      simp only [List.zipIdx_cons, List.flatMap_cons, List.map_append, List.foldl_append]
      rw [foldl_decl, ih]
      by_cases inside : version ∈ d.lifetime <;> simp [inside]

/-- Following a version through the placements of a schema gives the layout of the version. -/
theorem written_placements (version : Int) (decls : List Decl) :
    written version (placements decls) = Layout.types version decls := by
  have followed := foldl_decls version decls 0 []
  rw [List.nil_append] at followed
  exact followed

end History
end SchemaHistory
