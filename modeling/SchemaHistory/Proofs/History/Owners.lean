import SchemaHistory.Proofs.History.Layout
import SchemaHistory.Proofs.History.Visited

/-! # What an item is put into

A placement says only what is written, and it is written behind whatever stands last.  Its owner is
what it is meant for: the version itself for a type, the declaration that is visited for a member,
the variant that is visited for a field of a struct variant.  `sites` lists the items of a schema
with their owners.

When the turn of an item comes, its owner stands last in every version in which the item lives
(`standsLast_of_site`): following a version through the sites never leads to a type or a variant
that is not the one visited. -/
set_option autoImplicit false
namespace SchemaHistory

inductive Owner
  | version
  | type (i : Nat)
  | variant (i j : Nat)
  deriving DecidableEq, Repr

structure Site where
  owner : Owner
  item : Item

namespace Site

def placement (s : Site) : Placement := s.item.placement

def lifetime (s : Site) : Lifetime := s.item.lifetime

end Site

/-! ## The sites of a schema -/

def variantSites (i : Nat) (container : Lifetime) (v : Variant) (j : Nat) : List Site :=
  ⟨.type i, ⟨v.header, some container, .member (Walk.slotOf j v)⟩⟩ ::
    (fieldItems (v.lifetime container) .field 0 v.payload.fields).map (Site.mk (.variant i j))

def memberSites (d : Decl) (i : Nat) : List Site :=
  (fieldItems d.lifetime (fun k => .member (.plain k)) 0 d.fields).map (Site.mk (.type i)) ++
    d.variants.zipIdx.flatMap fun e => variantSites i d.lifetime e.1 e.2

def declSites (d : Decl) (i : Nat) : List Site :=
  ⟨.version, ⟨d.header, none, .type i⟩⟩ :: memberSites d i

def sites (decls : List Decl) : List Site := decls.zipIdx.flatMap fun e => declSites e.1 e.2

theorem map_item_owned (owner : Owner) (xs : List Item) :
    (xs.map (Site.mk owner)).map Site.item = xs := by
  rw [List.map_map]
  exact List.map_id xs

theorem map_item_variantSites (i : Nat) (container : Lifetime) (v : Variant) (j : Nat) :
    (variantSites i container v j).map Site.item = variantItems container v j := by
  rw [variantSites, List.map_cons, map_item_owned, variantItems]

theorem map_item_memberSites (d : Decl) (i : Nat) :
    (memberSites d i).map Site.item = memberItems d := by
  simp only [memberSites, memberItems, List.map_append, List.map_flatMap, map_item_owned,
    map_item_variantSites]

theorem map_item_sites (decls : List Decl) : (sites decls).map Site.item = items decls := by
  simp only [sites, items, declSites, declItems, List.map_flatMap, List.map_cons,
    map_item_memberSites]

theorem map_placement (ss : List Site) :
    ss.map Site.placement = (ss.map Site.item).map Item.placement := by
  rw [List.map_map]
  rfl

/-! ## Where the owner stands -/

namespace Owner

/-- The owner is the last of the types, or the last member of the last of them. -/
def StandsLast : Owner → List TypeSlot → Prop
  | .version, _ => True
  | .type i, types => ∃ earlier members, types = earlier ++ [⟨i, members⟩]
  | .variant i j, types =>
    ∃ earlier members fields, types = earlier ++ [⟨i, members ++ [.struct j fields]⟩]

def Takes : Owner → Slot → Prop
  | .version, .type _ => True
  | .type _, .member _ => True
  | .variant _ _, .field _ => True
  | _, _ => False

end Owner

theorem takes_of_mem_sites {decls : List Decl} {s : Site} (member : s ∈ sites decls) :
    s.owner.Takes s.item.slot := by
  have ofFields : ∀ {container : Lifetime} {fs : List Field} (owner : Owner) (slot : Nat → Slot),
      (∀ k, owner.Takes (slot k)) →
        s ∈ (fieldItems container slot 0 fs).map (Site.mk owner) → s.owner.Takes s.item.slot := by
    intro container fs owner slot takes listed
    obtain ⟨item, inside, rfl⟩ := List.mem_map.mp listed
    obtain ⟨e, -, rfl⟩ := List.mem_map.mp inside
    exact takes e.2
  obtain ⟨⟨d, i⟩, -, member⟩ := List.mem_flatMap.mp member
  rcases List.mem_cons.mp member with rfl | member
  · trivial
  rcases List.mem_append.mp member with field | variant
  · exact ofFields (.type i) (fun k => .member (.plain k)) (fun _ => trivial) field
  · obtain ⟨⟨v, j⟩, -, member⟩ := List.mem_flatMap.mp variant
    rcases List.mem_cons.mp member with rfl | field
    · trivial
    · exact ofFields (.variant i j) .field (fun _ => trivial) field

/-! ## Following one version through the sites -/

namespace History

/-- In the version every item of the list finds its owner last, if it lives there. -/
def Guided (version : Int) : List TypeSlot → List Site → Prop
  | _, [] => True
  | types, s :: rest =>
    (version ∈ s.lifetime → s.owner.StandsLast types) ∧
      Guided version (putAt version types s.placement) rest

section
variable {version : Int}

theorem guided_cons {types written : List TypeSlot} {s : Site} {rest : List Site}
    (stands : version ∈ s.lifetime → s.owner.StandsLast types)
    (placed : putAt version types s.placement = written) (others : Guided version written rest) :
    Guided version types (s :: rest) := by
  subst placed
  exact ⟨stands, others⟩

theorem guided_append {types : List TypeSlot} {before after : List Site} :
    Guided version types (before ++ after) ↔ Guided version types before ∧
      Guided version ((before.map Site.placement).foldl (putAt version) types) after := by
  induction before generalizing types with
  | nil => exact (and_iff_right trivial).symm
  | cons s rest ih => simp only [List.cons_append, Guided, List.map_cons, List.foldl_cons, ih,
      and_assoc]

theorem guided_of_outside {types : List TypeSlot} {ss : List Site}
    (outside : ∀ s ∈ ss, version ∉ s.lifetime) : Guided version types ss := by
  induction ss generalizing types with
  | nil => trivial
  | cons s rest ih =>
      obtain ⟨own, others⟩ := List.forall_mem_cons.mp outside
      exact ⟨fun inside => absurd inside own, ih others⟩

theorem guided_fields (types : List TypeSlot) (i : Nat) (container : Lifetime) (fs : List Field)
    (k : Nat) (slots : List MemberSlot) :
    Guided version (types ++ [⟨i, slots⟩])
      ((fieldItems container (fun j => .member (.plain j)) k fs).map (Site.mk (.type i))) := by
  induction fs generalizing k slots with
  | nil => trivial
  | cons f rest ih =>
      have stands : (Owner.type i).StandsLast (types ++ [⟨i, slots⟩]) := ⟨types, slots, rfl⟩
      by_cases inside : version ∈ f.lifetime container
      · exact guided_cons (fun _ => stands) (putAt_member types i slots (.plain k) inside)
          (ih (k + 1) (slots ++ [.plain k]))
      · exact guided_cons (fun _ => stands) (putAt_of_not_mem inside) (ih (k + 1) slots)

theorem guided_structFields (types : List TypeSlot) (i : Nat) (slots : List MemberSlot) (j : Nat)
    (container : Lifetime) (fs : List Field) (k : Nat) (inner : List Nat) :
    Guided version (types ++ [⟨i, slots ++ [.struct j inner]⟩])
      ((fieldItems container .field k fs).map (Site.mk (.variant i j))) := by
  induction fs generalizing k inner with
  | nil => trivial
  | cons f rest ih =>
      have stands : (Owner.variant i j).StandsLast (types ++ [⟨i, slots ++ [.struct j inner]⟩]) :=
        ⟨types, slots, inner, rfl⟩
      by_cases inside : version ∈ f.lifetime container
      · exact guided_cons (fun _ => stands) (putAt_field types i slots j k inner inside)
          (ih (k + 1) (inner ++ [k]))
      · exact guided_cons (fun _ => stands) (putAt_of_not_mem inside) (ih (k + 1) inner)

theorem guided_variant (types : List TypeSlot) (i : Nat) (slots : List MemberSlot)
    (container : Lifetime) (v : Variant) (j : Nat) :
    Guided version (types ++ [⟨i, slots⟩]) (variantSites i container v j) := by
  have stands : (Owner.type i).StandsLast (types ++ [⟨i, slots⟩]) := ⟨types, slots, rfl⟩
  by_cases inside : version ∈ v.lifetime container
  · refine guided_cons (fun _ => stands)
      (putAt_member types i slots (Walk.slotOf j v) inside) ?_
    cases payload : v.payload with
    | struct fs =>
        have slot : Walk.slotOf j v = .struct j [] := by
          simp [Walk.slotOf, payload, Payload.isStruct]
        rw [slot]
        exact guided_structFields types i slots j _ fs 0 []
    | unit => trivial
    | int discriminant => trivial
    | tuple ts => trivial
  · refine guided_cons (fun _ => stands) (putAt_of_not_mem inside) (guided_of_outside ?_)
    intro s member
    obtain ⟨item, listed, rfl⟩ := List.mem_map.mp member
    exact outside_fieldItems inside .field 0 v.payload.fields item.placement
      (List.mem_map_of_mem listed)

theorem guided_variants (types : List TypeSlot) (i : Nat) (container : Lifetime) (vs : List Variant)
    (k : Nat) (slots : List MemberSlot) :
    Guided version (types ++ [⟨i, slots⟩])
      ((vs.zipIdx k).flatMap fun e => variantSites i container e.1 e.2) := by
  induction vs generalizing k slots with
  | nil => trivial
  | cons v rest ih =>
      refine guided_append.mpr ⟨guided_variant types i slots container v k, ?_⟩
      rw [map_placement, map_item_variantSites, foldl_variant]
      exact ih (k + 1) _

theorem guided_members (types : List TypeSlot) (d : Decl) (i : Nat) :
    Guided version (types ++ [⟨i, []⟩]) (memberSites d i) := by
  obtain ⟨name, body, header, position⟩ := d
  cases body with
  | record node fs =>
      exact guided_append.mpr ⟨guided_fields types i _ fs 0 [], trivial⟩
  | enum vs => exact guided_variants types i _ vs 0 []

theorem guided_decl (types : List TypeSlot) (d : Decl) (i : Nat) :
    Guided version types (declSites d i) := by
  by_cases inside : version ∈ d.lifetime
  · exact guided_cons (fun _ => trivial) (putAt_type types i inside) (guided_members types d i)
  · refine guided_cons (fun _ => trivial) (putAt_of_not_mem inside) (guided_of_outside ?_)
    intro s member
    apply outside_memberItems inside s.placement
    rw [← map_item_memberSites d i, ← map_placement]
    exact List.mem_map_of_mem member

theorem guided_decls (types : List TypeSlot) (decls : List Decl) (k : Nat) :
    Guided version types ((decls.zipIdx k).flatMap fun e => declSites e.1 e.2) := by
  induction decls generalizing types k with
  | nil => trivial
  | cons d rest ih => exact guided_append.mpr ⟨guided_decl types d k, ih _ (k + 1)⟩

/-- In every version in which an item lives, its owner stands last when its turn comes. -/
theorem standsLast_of_site {decls : List Decl} {before after : List Site} {s : Site}
    (split : sites decls = before ++ s :: after) (inside : version ∈ s.lifetime) :
    s.owner.StandsLast (written version (before.map Site.placement)) := by
  have guided : Guided version [] (sites decls) := guided_decls [] decls 0
  rw [split, guided_append] at guided
  exact guided.2.1 inside

end
end History
end SchemaHistory
