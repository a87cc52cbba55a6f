import SchemaHistory.Proofs.Arrangement.Checks
import SchemaHistory.Proofs.Compiled.Alone

/-! # The order of declarations does not decide what compiles

A schema compiles exactly when a rearranged one does, for every check of the walk and of each
version passes both or neither.  If they compile, they have the same number of versions, and what a
version shows is rearranged like the schema (`rearranged_compiles`).  Types must not be named by the
value that is no number: such names do not clash, so one definition could replace another, and then
the order would matter. -/
set_option autoImplicit false
namespace SchemaHistory

/-! ## The walk -/

theorem Decl.Rearranged.membersAccepted {d e : Decl} (rearranged : d.Rearranged e)
    (accepted : Walk.MembersAccepted d) : Walk.MembersAccepted e := by
  have living := rearranged.lifetime
  refine ⟨?_, ?_, ?_, ?_⟩
  · have uniform := (Style.stepAll_isOk_iff none d.variants).mp accepted.style
    refine (Style.stepAll_isOk_iff none e.variants).mpr ?_
    have styles : (d.variants.map fun v => Style.of? v.payload) =
        e.variants.map fun v => Style.of? v.payload :=
      map_eq_of_forall₂ rearranged.variants fun v w own => own.payload.style
    have among : Style.among d.variants = Style.among e.variants := by
      have met := congrArg (List.filterMap id) styles
      rwa [List.filterMap_map, List.filterMap_map] at met
    rwa [← among]
  · rw [← living]
    exact accepted.fields.perm (rearranged.fields.map _)
  · have siblings : Walk.variantSiblings d.lifetime d.variants =
        Walk.variantSiblings e.lifetime e.variants := by
      rw [Walk.variantSiblings, Walk.variantSiblings, living]
      refine map_eq_of_forall₂ rearranged.variants fun v w own => ?_
      rw [Walk.ofVariant, Walk.ofVariant, own.name, own.header, own.position, own.lifetime]
    exact siblings ▸ accepted.variants
  · intro w member
    obtain ⟨v, inside, own⟩ := exists_of_forall₂ rearranged.variants member
    have apart := accepted.inner v inside
    rw [Walk.InnerApart, ← living, ← own.lifetime]
    exact apart.perm (own.payload.fields.map _)

section
variable {decls others : List Decl} (rearranged : Rearranged decls others)
include rearranged

theorem Rearranged.exists_of_mem {e : Decl} (member : e ∈ others) :
    ∃ d ∈ decls, d.Rearranged e := by
  obtain ⟨between, inside, perm⟩ := rearranged
  exact exists_of_forall₂ inside (perm.mem_iff.mpr member)

theorem Rearranged.flatMap {α : Type} {f : Decl → List α}
    (each : ∀ d e, d.Rearranged e → (f d).Perm (f e)) :
    (decls.flatMap f).Perm (others.flatMap f) := by
  obtain ⟨between, inside, perm⟩ := rearranged
  exact (flatMap_perm_of_forall₂ inside each).trans (perm.flatMap_right f)

theorem Rearranged.map {α : Type} {f : Decl → α} (same : ∀ d e, d.Rearranged e → f d = f e) :
    (decls.map f).Perm (others.map f) := by
  obtain ⟨between, inside, perm⟩ := rearranged
  rw [map_eq_of_forall₂ inside same]
  exact perm.map f

theorem Rearranged.accepted {limit : Int} (accepted : Accepted limit decls) :
    Accepted limit others := by
  refine ⟨?_, ?_, ?_⟩
  -- headers are resolved item by item, and rearranging keeps every item with its container
  · let P (header : Option Header) (container : Option Lifetime) : Prop :=
      ∃ l, Lifetime.resolveWithin limit header container = .ok l
    have resolves := (forall_items_iff (P := P)).mp accepted.resolves
    refine (forall_items_iff (P := P)).mpr fun e member => ?_
    obtain ⟨d, inside, own⟩ := rearranged.exists_of_mem member
    obtain ⟨top, fields, variants⟩ := resolves d inside
    rw [← own.header, ← own.lifetime]
    refine ⟨top, fun f listed => fields f (own.fields.mem_iff.mpr listed), fun w listed => ?_⟩
    obtain ⟨v, carried, same⟩ := exists_of_forall₂ own.variants listed
    obtain ⟨header, inner⟩ := variants v carried
    rw [← same.header, ← same.lifetime]
    exact ⟨header, fun f found => inner f (same.payload.fields.mem_iff.mpr found)⟩
  · refine accepted.apart.perm (rearranged.map fun d e own => ?_)
    rw [Walk.ofDecl, Walk.ofDecl, own.name, own.header, own.position, own.lifetime]
  · intro e member
    obtain ⟨d, inside, own⟩ := rearranged.exists_of_mem member
    exact own.membersAccepted (accepted.members d inside)

/-! ## Versions -/

theorem Rearranged.mentioned : (mentioned decls).Perm (mentioned others) :=
  rearranged.flatMap fun _ _ => Decl.Rearranged.mentioned

theorem Rearranged.eq_nil_iff : decls = [] ↔ others = [] := by
  have count := (rearranged.map (f := fun _ => ()) fun _ _ _ => rfl).length_eq
  rw [List.length_map, List.length_map] at count
  rw [← List.length_eq_zero_iff, count, List.length_eq_zero_iff]

theorem Rearranged.lastVersion : lastVersion decls = lastVersion others := by
  have empty : decls.isEmpty = others.isEmpty := by
    rw [Bool.eq_iff_iff, List.isEmpty_iff, List.isEmpty_iff]
    exact rearranged.eq_nil_iff
  have greatest : (SchemaHistory.mentioned decls).max? = (SchemaHistory.mentioned others).max? := by
    have perm := rearranged.mentioned
    cases found : (SchemaHistory.mentioned others).max? with
    | none =>
        rw [List.max?_eq_none_iff] at found ⊢
        exact (found ▸ perm).eq_nil
    | some n =>
        obtain ⟨member, bound⟩ := List.max?_eq_some_iff.mp found
        exact List.max?_eq_some_iff.mpr
          ⟨perm.mem_iff.mpr member, fun m listed => bound m (perm.mem_iff.mp listed)⟩
  rw [SchemaHistory.lastVersion, SchemaHistory.lastVersion, greatest, empty]

theorem Rearranged.excerpt (version : Int) :
    Rearranged (excerpt version decls) (excerpt version others) := by
  obtain ⟨a, rfl⟩ := rearranged_iff_exists.mp rearranged
  exact rearranged_iff_exists.mpr ⟨a.among version decls, (excerpt_act version a decls).symm⟩

theorem Rearranged.passes {version : Int} (numbers : ∀ d ∈ decls, d.name ≠ .real .nan)
    (unlike : Siblings.Unlike (decls.map Decl.name)) (passes : Passes version decls) :
    Passes version others := by
  obtain ⟨ordered, resolve⟩ := (resolve_facts_iff version).mp passes.resolve
  have plain := rearranged.flatMap fun _ _ => Decl.Rearranged.plainFacts
  refine ⟨mt rearranged.eq_nil_iff.mpr passes.inhabited,
    (resolve_facts_iff version).mpr ⟨fun e member => ?_, ?_⟩,
    List.all_eq_true.mpr fun e member => ?_⟩
  · obtain ⟨d, inside, own⟩ := rearranged.exists_of_mem member
    exact Numbering.ordered_of_forall₂ own.variants (ordered d inside)
  · exact References.resolve_of_perm (distinct_of_unlike numbers unlike) plain resolve
  · obtain ⟨d, inside, own⟩ := rearranged.exists_of_mem member
    exact own.isExportable (List.all_eq_true.mp passes.exportable d inside)

end

namespace Compiled
variable {limit : Int} {decls others : List Decl}

theorem compiles_of_rearranged (numbers : ∀ d ∈ decls, d.name ≠ .real .nan)
    (rearranged : Rearranged decls others) (compiled : ∃ c, ofDeclarations limit decls = .ok c) :
    ∃ c, ofDeclarations limit others = .ok c := by
  obtain ⟨c, compiled⟩ := compiled
  obtain ⟨accepted, passes, -⟩ := ofDeclarations_eq_ok_iff.mp compiled
  refine ⟨_, ofDeclarations_eq_ok_iff.mpr ⟨rearranged.accepted accepted, ?_, rfl⟩⟩
  intro version first last
  rw [← rearranged.lastVersion] at last
  have unlike := accepted.apart.unlike version
  rw [Walk.livingNames_types] at unlike
  refine (rearranged.excerpt version).passes ?_ unlike (passes version first last)
  intro e member
  obtain ⟨d, inside, -, rfl⟩ := mem_excerpt.mp member
  exact numbers d inside

def shownAs (version : Int) (schema : List Decl) : Json :=
  .obj [("version", .int version), ("types", .arr (schema.map Decl.shown))]

/-- A schema compiles exactly when a rearranged one does.  Then both have the same versions, and in
each of them the rearranged schema shows the same types, rearranged in the same way as far as they
live. -/
theorem rearranged_compiles (numbers : ∀ d ∈ decls, d.name ≠ .real .nan)
    (rearranged : Rearranged decls others) :
    ((∃ c, ofDeclarations limit decls = .ok c) ↔ ∃ e, ofDeclarations limit others = .ok e) ∧
    (∃ a : SchemaArrangement, a.act decls = others) ∧
    ∀ a : SchemaArrangement, a.act decls = others → ∀ c e, ofDeclarations limit decls = .ok c →
      ofDeclarations limit others = .ok e →
      c.versions = e.versions ∧ ∀ version s t, c.snapshot? version = .ok s →
        e.snapshot? version = .ok t →
        s.exported decls = .ok (shownAs version (excerpt version decls)) ∧
          t.exported others =
            .ok (shownAs version ((a.among version decls).act (excerpt version decls))) := by
  refine ⟨⟨compiles_of_rearranged numbers rearranged, ?_⟩, rearranged_iff_exists.mp rearranged, ?_⟩
  · apply compiles_of_rearranged _ rearranged.symm
    intro e member
    obtain ⟨d, inside, own⟩ := rearranged.exists_of_mem member
    rw [← own.name]
    exact numbers d inside
  · rintro a rfl c e compiled again
    obtain ⟨-, passes, rfl⟩ := ofDeclarations_eq_ok_iff.mp compiled
    obtain ⟨-, passesAgain, rfl⟩ := ofDeclarations_eq_ok_iff.mp again
    constructor
    · simp only [versions, History.layouts, List.length_map, List.length_range,
        rearranged.lastVersion]
    · intro version s t found foundAgain
      obtain ⟨first, last, rfl⟩ := snapshot?_eq_ok_iff.mp found
      obtain ⟨-, lastAgain, rfl⟩ := snapshot?_eq_ok_iff.mp foundAgain
      have own := (passes version first last).exportable
      have other := (passesAgain version first lastAgain).exportable
      rw [Snapshot.exported_layout, Snapshot.exported_layout, if_pos own, if_pos other, excerpt_act]
      exact ⟨rfl, rfl⟩

def ordersTurned : SchemaArrangement := ⟨.swap, [⟨.behind .swap, []⟩, ⟨.keep, [.swap]⟩]⟩

theorem rearranged_compiles_orders :
    ∃ c e s t, ofDeclarations 3 History.orders = .ok c ∧
      ofDeclarations 3 (ordersTurned.act History.orders) = .ok e ∧
      c.snapshot? 3 = .ok s ∧ e.snapshot? 3 = .ok t ∧ c.versions = e.versions ∧
      s.exported History.orders = .ok (shownAs 3 (excerpt 3 History.orders)) ∧
      t.exported (ordersTurned.act History.orders) =
        .ok (shownAs 3 ((ordersTurned.among 3 History.orders).act (excerpt 3 History.orders))) := by
  have numbers : ∀ d ∈ History.orders, d.name ≠ .real .nan := by decide
  have rearranged : Rearranged History.orders (ordersTurned.act History.orders) :=
    rearranged_iff_exists.mpr ⟨ordersTurned, rfl⟩
  obtain ⟨⟨compiles, -⟩, -, alike⟩ := @rearranged_compiles 3 _ _ numbers rearranged
  have compiled : ofDeclarations 3 History.orders =
      .ok ⟨History.orders, History.ordersSnapshots⟩ := rfl
  obtain ⟨e, again⟩ := compiles ⟨_, compiled⟩
  obtain ⟨versions, shows⟩ := alike ordersTurned rfl _ e compiled again
  have found : e.snapshot? 3 = .ok (History.layout 3 (ordersTurned.act History.orders)) := by
    obtain ⟨-, -, rfl⟩ := ofDeclarations_eq_ok_iff.mp again
    rfl
  exact ⟨_, e, _, _, compiled, again, rfl, found, versions, shows 3 _ _ rfl found⟩

end Compiled
end SchemaHistory
