import SchemaHistory.Proofs.Enumeration.Styles
import SchemaHistory.Proofs.History.Items
import SchemaHistory.Proofs.Lifetime.Overlap

/-! # When the walk through a schema succeeds

The walk interleaves four kinds of checks with the placing of the items.  `Accepted` lists the
checks one kind after the other, each for all items at once, and `walk_eq_iff` says that the walk
succeeds exactly when all of them hold, and that it then has placed all items in their order. -/
set_option autoImplicit false
namespace SchemaHistory

namespace Walk
variable {α β : Type}

/-! ## The steps of a walk -/

theorem bind_eq_iff {w : Walk α} {next : α → Walk β} {ps : List Placement} {b : β} :
    (w >>= next) = ⟨ps, .ok b⟩ ↔
      ∃ qs a rs, w = ⟨qs, .ok a⟩ ∧ next a = ⟨rs, .ok b⟩ ∧ qs ++ rs = ps := by
  obtain ⟨before, result⟩ := w
  cases result with
  | error d => simp [bind, followedBy]
  | ok a =>
      constructor
      · intro run
        simp only [bind, followedBy, Walk.mk.injEq] at run
        exact ⟨before, a, (next a).placements, rfl, by rw [← run.2], run.1⟩
      · intro ran
        rcases ran with ⟨qs, a, rs, ⟨⟩, run, rfl⟩
        simp only [bind, followedBy, run]

theorem then_eq_iff {w : Walk Unit} {next : Unit → Walk β} {ps : List Placement} {b : β} :
    (w >>= next) = ⟨ps, .ok b⟩ ↔
      ∃ qs rs, w = ⟨qs, .ok ()⟩ ∧ next () = ⟨rs, .ok b⟩ ∧ qs ++ rs = ps := by
  rw [bind_eq_iff]
  exact ⟨fun ⟨qs, _, rs, run⟩ => ⟨qs, rs, run⟩, fun ⟨qs, rs, run⟩ => ⟨qs, (), rs, run⟩⟩

theorem check_bind_eq_iff {result : Except Diagnostic α} {next : α → Walk β}
    {ps : List Placement} {b : β} :
    (check result >>= next) = ⟨ps, .ok b⟩ ↔ ∃ a, result = .ok a ∧ next a = ⟨ps, .ok b⟩ := by
  simp only [bind_eq_iff, check, Walk.mk.injEq]
  constructor
  · intro ran
    rcases ran with ⟨qs, a, rs, ⟨rfl, ok⟩, run, rfl⟩
    exact ⟨a, ok, run⟩
  · intro checked
    rcases checked with ⟨a, ok, run⟩
    exact ⟨[], a, ps, ⟨rfl, ok⟩, run, rfl⟩

theorem place_bind_eq_iff {l : Lifetime} {slot : Slot} {next : Unit → Walk β}
    {ps : List Placement} {b : β} :
    (place l slot >>= next) = ⟨ps, .ok b⟩ ↔
      ∃ rs, next () = ⟨rs, .ok b⟩ ∧ ⟨l, slot⟩ :: rs = ps := by
  simp only [then_eq_iff, place, Walk.mk.injEq]
  constructor
  · intro ran
    rcases ran with ⟨qs, rs, ⟨rfl, -⟩, run, rfl⟩
    exact ⟨rs, run, rfl⟩
  · intro placed
    rcases placed with ⟨rs, run, rfl⟩
    exact ⟨[⟨l, slot⟩], rs, ⟨rfl, trivial⟩, run, rfl⟩

theorem resolveWithin_eq_ok_iff_lifetime {limit : Int} {header : Option Header}
    {container : Option Lifetime} {l : Lifetime} :
    Lifetime.resolveWithin limit header container = .ok l ↔
      (∃ m, Lifetime.resolveWithin limit header container = .ok m) ∧
        Lifetime.ofHeader header container = l := by
  constructor
  · intro accepted
    have resolved := (Lifetime.resolveWithin_eq_ok_iff.mp accepted).2
    exact ⟨⟨l, accepted⟩, Lifetime.ofHeader_of_resolve resolved⟩
  · intro passed
    rcases passed with ⟨⟨m, accepted⟩, rfl⟩
    have resolved := (Lifetime.resolveWithin_eq_ok_iff.mp accepted).2
    rw [Lifetime.ofHeader_of_resolve resolved, accepted]

/-! ## The lists of items -/

def fieldSiblings (container : Lifetime) (fs : List Field) : List Sibling :=
  fs.map fun f => ofField f (f.lifetime container)

def variantSiblings (container : Lifetime) (vs : List Variant) : List Sibling :=
  vs.map fun v => ofVariant v (v.lifetime container)

def typeSiblings (decls : List Decl) : List Sibling := decls.map fun d => ofDecl d d.lifetime

theorem fields_eq_iff {limit : Int} {container : Lifetime} {i : Nat} {siblings : Siblings}
    {fs : List Field} {ps : List Placement} :
    fields limit container i siblings fs = ⟨ps, .ok ()⟩ ↔
      (fieldItems container (fun j => .member (.plain j)) i fs).map Item.placement = ps ∧
      (∀ item ∈ fieldItems container (fun j => .member (.plain j)) i fs,
        item.ResolvesWithin limit) ∧
      siblings.Admits (fieldSiblings container fs) := by
  induction fs generalizing i siblings ps with
  | nil => simp [fields, done, fieldItems, fieldSiblings]
  | cons f rest ih =>
      simp only [fields, check_bind_eq_iff, place_bind_eq_iff, Siblings.add_eq_ok_iff, ih,
        fieldItems, fieldSiblings, List.zipIdx_cons, List.map_cons, List.forall_mem_cons,
        Siblings.admits_cons]
      constructor
      · intro walked
        rcases walked with ⟨l, resolved, rs, ⟨after, ⟨free, rfl⟩, placed, resolves, admits⟩, rfl⟩
        obtain ⟨accepted, rfl⟩ := resolveWithin_eq_ok_iff_lifetime.mp resolved
        exact ⟨congrArg _ placed, ⟨accepted, resolves⟩, free, admits⟩
      · intro holds
        rcases holds with ⟨rfl, ⟨accepted, resolves⟩, free, admits⟩
        exact ⟨_, resolveWithin_eq_ok_iff_lifetime.mpr ⟨accepted, rfl⟩, _,
          ⟨_, ⟨free, rfl⟩, rfl, resolves, admits⟩, rfl⟩

theorem variantFields_eq_iff {limit : Int} {container : Lifetime} {i : Nat} {siblings : Siblings}
    {fs : List Field} {ps : List Placement} :
    variantFields limit container i siblings fs = ⟨ps, .ok ()⟩ ↔
      (fieldItems container .field i fs).map Item.placement = ps ∧
      (∀ item ∈ fieldItems container .field i fs, item.ResolvesWithin limit) ∧
      siblings.Admits (fieldSiblings container fs) := by
  induction fs generalizing i siblings ps with
  | nil => simp [variantFields, done, fieldItems, fieldSiblings]
  | cons f rest ih =>
      simp only [variantFields, check_bind_eq_iff, place_bind_eq_iff, Siblings.add_eq_ok_iff, ih,
        fieldItems, fieldSiblings, List.zipIdx_cons, List.map_cons, List.forall_mem_cons,
        Siblings.admits_cons]
      constructor
      · intro walked
        rcases walked with ⟨l, resolved, after, ⟨free, rfl⟩, rs, ⟨placed, resolves, admits⟩, rfl⟩
        obtain ⟨accepted, rfl⟩ := resolveWithin_eq_ok_iff_lifetime.mp resolved
        exact ⟨congrArg _ placed, ⟨accepted, resolves⟩, free, admits⟩
      · intro holds
        rcases holds with ⟨rfl, ⟨accepted, resolves⟩, free, admits⟩
        exact ⟨_, resolveWithin_eq_ok_iff_lifetime.mpr ⟨accepted, rfl⟩, _, ⟨free, rfl⟩, _,
          ⟨rfl, resolves, admits⟩, rfl⟩

def InnerApart (container : Lifetime) (v : Variant) : Prop :=
  Siblings.Apart (fieldSiblings (v.lifetime container) v.payload.fields)

theorem variants_eq_iff {limit : Int} {enumName : Json} {container : Lifetime} {i : Nat}
    {style : Option Style} {siblings : Siblings} {vs : List Variant} {ps : List Placement} :
    variants limit enumName container i style siblings vs = ⟨ps, .ok ()⟩ ↔
      ((vs.zipIdx i).flatMap fun e => variantItems container e.1 e.2).map Item.placement = ps ∧
      (∀ item ∈ (vs.zipIdx i).flatMap fun e => variantItems container e.1 e.2,
        item.ResolvesWithin limit) ∧
      (∃ last, vs.foldlM (Style.step enumName) style = .ok last) ∧
      siblings.Admits (variantSiblings container vs) ∧
      ∀ v ∈ vs, InnerApart container v := by
  induction vs generalizing i style siblings ps with
  | nil => simp [variants, done, variantSiblings, pure, Except.pure]
  | cons v rest ih =>
      simp only [variants, check_bind_eq_iff, place_bind_eq_iff, Siblings.add_eq_ok_iff]
      simp only [then_eq_iff, variantFields_eq_iff, ih, variantSiblings, variantItems,
        List.zipIdx_cons, List.flatMap_cons, List.map_cons, List.map_append, List.forall_mem_cons,
        List.forall_mem_append, Siblings.admits_cons, List.foldlM_cons,
        SchemaHistory.bind_eq_ok_iff, Siblings.nil_admits, List.cons_append]
      constructor
      · rintro ⟨next, step, l, resolved, rs, ⟨after, ⟨free, rfl⟩, qs, ts,
          ⟨rfl, innerResolves, innerApart⟩, ⟨rfl, resolves, styles, admits, inner⟩, rfl⟩, rfl⟩
        obtain ⟨accepted, rfl⟩ := resolveWithin_eq_ok_iff_lifetime.mp resolved
        obtain ⟨last, run⟩ := styles
        exact ⟨rfl, ⟨accepted, innerResolves, resolves⟩, ⟨last, next, step, run⟩,
          ⟨free, admits⟩, innerApart, inner⟩
      · rintro ⟨rfl, ⟨accepted, innerResolves, resolves⟩, ⟨last, next, step, run⟩,
          ⟨free, admits⟩, innerApart, inner⟩
        exact ⟨next, step, _, resolveWithin_eq_ok_iff_lifetime.mpr ⟨accepted, rfl⟩, _,
          ⟨_, ⟨free, rfl⟩, _, _, ⟨rfl, innerResolves, innerApart⟩,
            ⟨rfl, resolves, ⟨last, run⟩, admits, inner⟩, rfl⟩, rfl⟩

structure MembersAccepted (d : Decl) : Prop where
  style : ∃ last, d.variants.foldlM (Style.step d.name) none = .ok last
  fields : Siblings.Apart (fieldSiblings d.lifetime d.fields)
  variants : Siblings.Apart (variantSiblings d.lifetime d.variants)
  inner : ∀ v ∈ d.variants, InnerApart d.lifetime v

theorem members_eq_iff {limit : Int} {d : Decl} {ps : List Placement} :
    members limit d.lifetime d = ⟨ps, .ok ()⟩ ↔
      (memberItems d).map Item.placement = ps ∧
      (∀ item ∈ memberItems d, item.ResolvesWithin limit) ∧ MembersAccepted d := by
  obtain ⟨name, body, header, position⟩ := d
  cases body with
  | record node fs =>
      simp only [members, fields_eq_iff, Siblings.nil_admits, memberItems, Decl.fields,
        Decl.variants, List.zipIdx_nil, List.flatMap_nil, List.append_nil]
      refine and_congr_right fun _ => and_congr_right fun _ => ?_
      constructor
      · intro apart
        exact ⟨⟨none, rfl⟩, apart, List.Pairwise.nil,
          fun _ member => absurd member List.not_mem_nil⟩
      · exact fun accepted => accepted.fields
  | enum vs =>
      simp only [members, variants_eq_iff, Siblings.nil_admits, memberItems, Decl.fields,
        Decl.variants, fieldItems, List.zipIdx_nil, List.map_nil, List.nil_append]
      refine and_congr_right fun _ => and_congr_right fun _ => ?_
      constructor
      · intro accepted
        rcases accepted with ⟨style, apart, inner⟩
        exact ⟨style, List.Pairwise.nil, apart, inner⟩
      · exact fun accepted => ⟨accepted.style, accepted.variants, accepted.inner⟩

theorem types_eq_iff {limit : Int} {i : Nat} {siblings : Siblings} {decls : List Decl}
    {ps : List Placement} :
    types limit i siblings decls = ⟨ps, .ok ()⟩ ↔
      ((decls.zipIdx i).flatMap fun e => declItems e.1 e.2).map Item.placement = ps ∧
      (∀ item ∈ (decls.zipIdx i).flatMap fun e => declItems e.1 e.2,
        item.ResolvesWithin limit) ∧
      siblings.Admits (typeSiblings decls) ∧ ∀ d ∈ decls, MembersAccepted d := by
  induction decls generalizing i siblings ps with
  | nil => simp [types, done, typeSiblings]
  | cons d rest ih =>
      simp only [types, check_bind_eq_iff, place_bind_eq_iff]
      simp only [then_eq_iff, check_bind_eq_iff, Siblings.add_eq_ok_iff, ih, typeSiblings,
        declItems, List.zipIdx_cons, List.flatMap_cons, List.map_cons, List.map_append,
        List.forall_mem_cons, List.forall_mem_append, Siblings.admits_cons, List.cons_append]
      constructor
      · rintro ⟨l, resolved, rs, ⟨qs, ts, inside, ⟨after, ⟨free, rfl⟩,
          rfl, resolves, admits, accepted⟩, rfl⟩, rfl⟩
        obtain ⟨own, rfl⟩ := resolveWithin_eq_ok_iff_lifetime.mp resolved
        obtain ⟨rfl, innerResolves, innerAccepted⟩ := members_eq_iff.mp inside
        exact ⟨rfl, ⟨own, innerResolves, resolves⟩, ⟨free, admits⟩, innerAccepted, accepted⟩
      · intro holds
        rcases holds with
          ⟨rfl, ⟨own, innerResolves, resolves⟩, ⟨free, admits⟩, innerAccepted, accepted⟩
        exact ⟨_, resolveWithin_eq_ok_iff_lifetime.mpr ⟨own, rfl⟩, _,
          ⟨_, _, members_eq_iff.mpr ⟨rfl, innerResolves, innerAccepted⟩,
            ⟨_, ⟨free, rfl⟩, rfl, resolves, admits, accepted⟩, rfl⟩, rfl⟩

end Walk

/-- All that the walk checks: headers, styles of enums, and names among siblings. -/
structure Accepted (limit : Int) (decls : List Decl) : Prop where
  resolves : ∀ item ∈ items decls, item.ResolvesWithin limit
  apart : Siblings.Apart (Walk.typeSiblings decls)
  members : ∀ d ∈ decls, Walk.MembersAccepted d

theorem walk_eq_iff {limit : Int} {decls : List Decl} {ps : List Placement} :
    History.walk limit decls = ⟨ps, .ok ()⟩ ↔ placements decls = ps ∧ Accepted limit decls := by
  simp only [History.walk, Walk.types_eq_iff, Siblings.nil_admits]
  constructor
  · intro walked
    rcases walked with ⟨placed, resolves, apart, members⟩
    exact ⟨placed, resolves, apart, members⟩
  · intro accepted
    rcases accepted with ⟨placed, resolves, apart, members⟩
    exact ⟨placed, resolves, apart, members⟩

end SchemaHistory
