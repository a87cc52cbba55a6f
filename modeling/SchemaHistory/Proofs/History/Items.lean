import Mathlib.Data.List.Basic
import SchemaHistory.History.Walk
import SchemaHistory.Proofs.Lifetime.OfHeader

/-! # The items of a schema

`items` lists all items of a schema in the order in which the walk meets them: a type, then its
members one after the other, and behind a struct variant its fields.  Each item comes with its
header, with the lifetime of its container, and with the slot that is written for it.  The lists of
what the headers mention, of the placements and of the lifetimes are read off this one list, and
`forall_items` is the induction from containers to what they contain. -/
set_option autoImplicit false
namespace SchemaHistory

namespace Field
def lifetime (container : Lifetime) (f : Field) : Lifetime := .ofHeader f.header (some container)
end Field

namespace Variant
def lifetime (container : Lifetime) (v : Variant) : Lifetime := .ofHeader v.header (some container)
end Variant

namespace Decl
def lifetime (d : Decl) : Lifetime := .ofHeader d.header none
end Decl

/-- An item as the walk meets it; a type has no container. -/
structure Item where
  header : Option Header
  container : Option Lifetime
  slot : Slot

namespace Item

def lifetime (item : Item) : Lifetime := .ofHeader item.header item.container

def placement (item : Item) : Placement := ⟨item.lifetime, item.slot⟩

theorem placement_field (f : Field) (container : Lifetime) (slot : Slot) :
    placement ⟨f.header, some container, slot⟩ = ⟨f.lifetime container, slot⟩ := rfl

theorem placement_variant (v : Variant) (container : Lifetime) (slot : Slot) :
    placement ⟨v.header, some container, slot⟩ = ⟨v.lifetime container, slot⟩ := rfl

theorem placement_type (d : Decl) (slot : Slot) :
    placement ⟨d.header, none, slot⟩ = ⟨d.lifetime, slot⟩ := rfl

def Resolves (item : Item) : Prop := ∃ l, Lifetime.resolve item.header item.container = .ok l

def ResolvesWithin (limit : Int) (item : Item) : Prop :=
  ∃ l, Lifetime.resolveWithin limit item.header item.container = .ok l

theorem resolvesWithin_iff {limit : Int} {item : Item} :
    item.ResolvesWithin limit ↔ (∀ m ∈ mentionedBy item.header, m ≤ limit) ∧ item.Resolves := by
  simp only [ResolvesWithin, Resolves, Lifetime.resolveWithin_eq_ok_iff, exists_and_left]

def home (item : Item) : Lifetime := item.container.getD .unbounded

theorem resolve_home {item : Item} (resolves : item.Resolves) :
    Lifetime.resolve item.header (some item.home) = .ok item.lifetime := by
  obtain ⟨l, resolved⟩ := resolves
  rw [lifetime, Lifetime.ofHeader_of_resolve resolved]
  obtain ⟨header, container, slot⟩ := item
  cases container with
  | none => exact Lifetime.resolve_top_eq_ok_iff.mp resolved
  | some c => exact resolved

end Item

/-! ## The list of all items -/

def fieldItems (container : Lifetime) (slot : Nat → Slot) (i : Nat) (fs : List Field) : List Item :=
  (fs.zipIdx i).map fun e => ⟨e.1.header, some container, slot e.2⟩

def variantItems (container : Lifetime) (v : Variant) (i : Nat) : List Item :=
  ⟨v.header, some container, .member (Walk.slotOf i v)⟩ ::
    fieldItems (v.lifetime container) .field 0 v.payload.fields

def memberItems (d : Decl) : List Item :=
  fieldItems d.lifetime (fun i => .member (.plain i)) 0 d.fields ++
    d.variants.zipIdx.flatMap fun e => variantItems d.lifetime e.1 e.2

def declItems (d : Decl) (i : Nat) : List Item := ⟨d.header, none, .type i⟩ :: memberItems d

def items (decls : List Decl) : List Item := decls.zipIdx.flatMap fun e => declItems e.1 e.2

def placements (decls : List Decl) : List Placement := (items decls).map Item.placement

theorem forall_zipIdx_iff {α : Type} {P : α → Prop} {xs : List α} {i : Nat} :
    (∀ e ∈ xs.zipIdx i, P e.1) ↔ ∀ x ∈ xs, P x := by
  conv => rhs; rw [← List.zipIdx_map_fst i xs, List.forall_mem_map]

theorem forall_items_iff {P : Option Header → Option Lifetime → Prop} {decls : List Decl} :
    (∀ item ∈ items decls, P item.header item.container) ↔
      ∀ d ∈ decls, P d.header none ∧ (∀ f ∈ d.fields, P f.header (some d.lifetime)) ∧
        ∀ v ∈ d.variants, P v.header (some d.lifetime) ∧
          ∀ f ∈ v.payload.fields, P f.header (some (v.lifetime d.lifetime)) := by
  have ofFields : ∀ container slot fs,
      (∀ item ∈ fieldItems container slot 0 fs, P item.header item.container) ↔
        ∀ f ∈ fs, P f.header (some container) := by
    intro container slot fs
    rw [fieldItems, List.forall_mem_map]
    exact forall_zipIdx_iff (P := fun f : Field => P f.header (some container))
  have ofVariant : ∀ container v i,
      (∀ item ∈ variantItems container v i, P item.header item.container) ↔
        P v.header (some container) ∧
          ∀ f ∈ v.payload.fields, P f.header (some (v.lifetime container)) := by
    intro container v i
    rw [variantItems, List.forall_mem_cons, ofFields]
  have ofDecl : ∀ d i, (∀ item ∈ declItems d i, P item.header item.container) ↔
      P d.header none ∧ (∀ f ∈ d.fields, P f.header (some d.lifetime)) ∧
        ∀ v ∈ d.variants, P v.header (some d.lifetime) ∧
          ∀ f ∈ v.payload.fields, P f.header (some (v.lifetime d.lifetime)) := by
    intro d i
    rw [declItems, List.forall_mem_cons, memberItems, List.forall_mem_append, ofFields]
    simp only [List.forall_mem_flatMap, ofVariant]
    rw [forall_zipIdx_iff (P := fun v : Variant => P v.header (some d.lifetime) ∧
      ∀ f ∈ v.payload.fields, P f.header (some (v.lifetime d.lifetime)))]
  simp only [items, List.forall_mem_flatMap, ofDecl]
  exact forall_zipIdx_iff (P := fun d : Decl => P d.header none ∧
    (∀ f ∈ d.fields, P f.header (some d.lifetime)) ∧
      ∀ v ∈ d.variants, P v.header (some d.lifetime) ∧
        ∀ f ∈ v.payload.fields, P f.header (some (v.lifetime d.lifetime)))

/-! ## Induction over the items -/

/-- A property of lifetimes that goes from every container to what it contains holds of all items
and of their containers, as soon as it holds of all versions. -/
theorem forall_items {P : Lifetime → Prop} {decls : List Decl} (top : P .unbounded)
    (step : ∀ item ∈ items decls, P item.home → P item.lifetime) :
    ∀ item ∈ items decls, P item.home ∧ P item.lifetime := by
  have both : ∀ item ∈ items decls, P item.home → P item.home ∧ P item.lifetime :=
    fun item member home => ⟨home, step item member home⟩
  intro item member
  obtain ⟨⟨d, i⟩, declared, member⟩ := List.mem_flatMap.mp member
  have within : ∀ other ∈ declItems d i, other ∈ items decls :=
    fun other inside => List.mem_flatMap.mpr ⟨(d, i), declared, inside⟩
  have own : P d.lifetime := step ⟨d.header, none, .type i⟩ (within _ List.mem_cons_self) top
  rcases List.mem_cons.mp member with rfl | member
  · exact ⟨top, own⟩
  have inMembers : ∀ other ∈ memberItems d, other ∈ items decls :=
    fun other inside => within other (List.mem_cons_of_mem _ inside)
  rcases List.mem_append.mp member with field | variant
  · obtain ⟨e, -, rfl⟩ := List.mem_map.mp field
    exact both _ (inMembers _ (List.mem_append_left _ field)) own
  · obtain ⟨⟨v, j⟩, listed, member⟩ := List.mem_flatMap.mp variant
    have inVariant : ∀ other ∈ variantItems d.lifetime v j, other ∈ items decls := by
      intro other inside
      exact inMembers other
        (List.mem_append_right _ (List.mem_flatMap.mpr ⟨(v, j), listed, inside⟩))
    have inner : P (v.lifetime d.lifetime) := step _ (inVariant _ List.mem_cons_self) own
    rcases List.mem_cons.mp member with rfl | field
    · exact ⟨own, inner⟩
    · obtain ⟨e, -, rfl⟩ := List.mem_map.mp field
      exact both _ (inVariant _ (List.mem_cons_of_mem _ field)) inner

theorem proper_of_resolves {decls : List Decl} (resolves : ∀ item ∈ items decls, item.Resolves) :
    ∀ item ∈ items decls, item.home.Proper ∧ item.lifetime.Proper := by
  apply forall_items Lifetime.proper_unbounded
  intro item member home
  exact ((Lifetime.resolve_eq_ok_iff home).mp (Item.resolve_home (resolves item member))).2.1

/-! ## The versions that a schema mentions -/

def Variant.mentioned (v : Variant) : List Int :=
  mentionedBy v.header ++ v.payload.fields.flatMap fun f => mentionedBy f.header

def Decl.mentioned (d : Decl) : List Int :=
  mentionedBy d.header ++ d.fields.flatMap (fun f => mentionedBy f.header) ++
    d.variants.flatMap Variant.mentioned

def mentioned (decls : List Decl) : List Int := decls.flatMap Decl.mentioned

theorem flatMap_zipIdx_fst {α β : Type} (g : α → List β) (i : Nat) (xs : List α) :
    ((xs.zipIdx i).flatMap fun e => g e.1) = xs.flatMap g := by
  conv => rhs; rw [← List.zipIdx_map_fst i xs, List.flatMap_map]

theorem mentioned_eq (decls : List Decl) :
    mentioned decls = (items decls).flatMap fun item => mentionedBy item.header := by
  have ofFields : ∀ container slot fs, (fieldItems container slot 0 fs).flatMap
      (fun item => mentionedBy item.header) = fs.flatMap fun f => mentionedBy f.header := by
    intro container slot fs
    simpa only [fieldItems, List.flatMap_map] using
      flatMap_zipIdx_fst (fun f : Field => mentionedBy f.header) 0 fs
  have ofVariants : ∀ d : Decl, (d.variants.zipIdx.flatMap fun e =>
      variantItems d.lifetime e.1 e.2).flatMap (fun item => mentionedBy item.header) =
        d.variants.flatMap Variant.mentioned := by
    intro d
    rw [← flatMap_zipIdx_fst Variant.mentioned 0 d.variants]
    simp only [List.flatMap_assoc, variantItems, List.flatMap_cons, ofFields, Variant.mentioned]
  simp only [items, List.flatMap_assoc, declItems, memberItems, List.flatMap_cons,
    List.flatMap_append, ofFields, ofVariants, ← List.append_assoc]
  exact (flatMap_zipIdx_fst Decl.mentioned 0 decls).symm

theorem mem_mentioned_iff {decls : List Decl} {m : Int} :
    m ∈ mentioned decls ↔ ∃ item ∈ items decls, m ∈ mentionedBy item.header := by
  rw [mentioned_eq, List.mem_flatMap]

theorem resolvesWithin_all_iff {limit : Int} {decls : List Decl} :
    (∀ item ∈ items decls, item.ResolvesWithin limit) ↔
      (∀ item ∈ items decls, item.Resolves) ∧ ∀ m ∈ mentioned decls, m ≤ limit := by
  simp only [Item.resolvesWithin_iff, mem_mentioned_iff]
  constructor
  · intro all
    refine ⟨fun item member => (all item member).2, ?_⟩
    intro m listed
    rcases listed with ⟨item, member, mentions⟩
    exact (all item member).1 m mentions
  · intro accepted item member
    rcases accepted with ⟨resolves, within⟩
    exact ⟨fun m mentions => within m ⟨item, member, mentions⟩, resolves item member⟩

/-- The last version of a schema: the greatest one that it mentions; without any the first one, and
none at all without declarations. -/
def lastVersion (decls : List Decl) : Int :=
  (mentioned decls).max?.getD (if decls.isEmpty then 0 else 1)

theorem mentioned_le_lastVersion {decls : List Decl} {m : Int} (member : m ∈ mentioned decls) :
    m ≤ lastVersion decls := by
  unfold lastVersion
  cases greatest : (mentioned decls).max? with
  | none =>
      rw [List.max?_eq_none_iff.mp greatest] at member
      cases member
  | some n => exact (List.max?_eq_some_iff.mp greatest).2 m member

theorem lastVersion_le {decls : List Decl} {bound : Int} (first : 1 ≤ bound)
    (bounded : ∀ m ∈ mentioned decls, m ≤ bound) : lastVersion decls ≤ bound := by
  unfold lastVersion
  cases greatest : (mentioned decls).max? with
  | none =>
      rw [Option.getD_none]
      split_ifs <;> omega
  | some n => exact bounded n (List.max?_eq_some_iff.mp greatest).1

section
variable {decls : List Decl} (resolves : ∀ item ∈ items decls, item.Resolves)
include resolves

theorem one_le_mentioned {m : Int} (member : m ∈ mentioned decls) : 1 ≤ m := by
  obtain ⟨item, listed, mentions⟩ := mem_mentioned_iff.mp member
  have home := (proper_of_resolves resolves item listed).1
  exact Lifetime.one_le_of_mentioned home (Item.resolve_home (resolves item listed)) mentions

theorem one_le_lastVersion (inhabited : decls ≠ []) : 1 ≤ lastVersion decls := by
  unfold lastVersion
  cases greatest : (mentioned decls).max? with
  | none => simp [List.isEmpty_eq_false_iff.mpr inhabited]
  | some n => exact one_le_mentioned resolves (List.max?_eq_some_iff.mp greatest).1

/-- No lifetime reaches beyond what the headers mention. -/
theorem reach_le_of_mentioned (bound : Int) (first : 1 ≤ bound)
    (bounded : ∀ m ∈ mentioned decls, m ≤ bound) :
    ∀ item ∈ items decls, item.home.reach ≤ bound ∧ item.lifetime.reach ≤ bound := by
  apply forall_items (P := fun l => l.reach ≤ bound)
  · rw [Lifetime.reach_unbounded]
    exact first
  · intro item listed outer
    have home := (proper_of_resolves resolves item listed).1
    refine Lifetime.reach_le home (Item.resolve_home (resolves item listed)) ?_ outer
    intro m mentions
    exact bounded m (mem_mentioned_iff.mpr ⟨item, listed, mentions⟩)

end
end SchemaHistory
