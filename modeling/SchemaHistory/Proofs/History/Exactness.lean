import SchemaHistory.Proofs.History.Acceptance
import SchemaHistory.Proofs.History.Layout

/-! # The history is exact

A built history has as many versions as the greatest version that some header mentions, and every
version holds what its layout says: the items whose lifetimes contain the version, each in its
place. -/
set_option autoImplicit false
namespace SchemaHistory

namespace Accepted
variable {limit : Int} {decls : List Decl}

theorem itemsResolve (accepted : Accepted limit decls) : ∀ item ∈ items decls, item.Resolves :=
  fun item member => (Item.resolvesWithin_iff.mp (accepted.resolves item member)).2

theorem mentioned_le_needed (accepted : Accepted limit decls) :
    ∀ m ∈ mentioned decls, m ≤ History.needed (placements decls) := by
  intro m member
  obtain ⟨item, listed, mentions⟩ := mem_mentioned_iff.mp member
  obtain ⟨home, own⟩ := proper_of_resolves accepted.itemsResolve item listed
  have resolved := Item.resolve_home (accepted.itemsResolve item listed)
  have reached := Lifetime.le_reach_of_mentioned home resolved mentions
  have placed : History.lastNeeded item.lifetime ≤ History.needed (placements decls) :=
    History.le_needed (List.mem_map_of_mem (f := Item.placement) listed)
  have last := Lifetime.lastNeeded_eq_reach own
  omega

theorem needed_le (accepted : Accepted limit decls) (count : Nat) (first : 1 ≤ count)
    (bounded : ∀ m ∈ mentioned decls, m ≤ count) : History.needed (placements decls) ≤ count := by
  rw [History.needed_le_iff]
  intro p member
  obtain ⟨item, listed, rfl⟩ := List.mem_map.mp member
  have own := (proper_of_resolves accepted.itemsResolve item listed).2
  have reach := (reach_le_of_mentioned accepted.itemsResolve (↑count)
    (by exact_mod_cast first) bounded item listed).2
  have last := Lifetime.lastNeeded_eq_reach own
  simp only [Item.placement]
  omega

theorem one_le_needed (accepted : Accepted limit decls) (some : decls ≠ []) :
    1 ≤ History.needed (placements decls) := by
  obtain ⟨d, rest, rfl⟩ := List.exists_cons_of_ne_nil some
  have listed : (⟨d.header, none, .type 0⟩ : Item) ∈ items (d :: rest) :=
    List.mem_flatMap.mpr ⟨(d, 0), List.mem_cons_self, List.mem_cons_self⟩
  have own := (proper_of_resolves accepted.itemsResolve _ listed).2
  have placed := History.le_needed (List.mem_map_of_mem (f := Item.placement) listed)
  have reached : 1 ≤ (History.lastNeeded (Item.lifetime ⟨d.header, none, .type 0⟩) : Int) := by
    rw [Lifetime.lastNeeded_eq_reach own]
    exact le_trans own.1 (Lifetime.added_le_reach own)
  exact le_trans (by exact_mod_cast reached) placed

theorem needed_eq_lastVersion (accepted : Accepted limit decls) :
    (History.needed (placements decls) : Int) = lastVersion decls := by
  unfold lastVersion
  cases greatest : (mentioned decls).max? with
  | none =>
      have silent : mentioned decls = [] := List.max?_eq_none_iff.mp greatest
      cases decls with
      | nil => rfl
      | cons d rest =>
          have upper := accepted.needed_le 1 (le_refl 1) (by simp [silent])
          have lower := accepted.one_le_needed (List.cons_ne_nil d rest)
          simp only [Option.getD_none, List.isEmpty_cons, Bool.false_eq_true, if_false]
          omega
  | some m =>
      obtain ⟨member, bound⟩ := List.max?_eq_some_iff.mp greatest
      have first := one_le_mentioned accepted.itemsResolve member
      have lower := accepted.mentioned_le_needed m member
      have upper := accepted.needed_le m.toNat (by omega) (by
        intro other mentioned
        have below := bound other mentioned
        omega)
      simp only [Option.getD_some]
      omega

end Accepted

namespace History

def layouts (decls : List Decl) : List Snapshot :=
  (List.range (lastVersion decls).toNat).map fun i : Nat =>
    ⟨(i : Int) + 1, Layout.types ((i : Int) + 1) decls⟩

/-- A history is built when everything is accepted, and then its snapshots are the layouts. -/
theorem ofDeclarations_eq_ok_iff {limit : Int} {decls : List Decl} {snapshots : List Snapshot} :
    ofDeclarations limit decls = .ok snapshots ↔
      Accepted limit decls ∧ layouts decls = snapshots := by
  have walked : ∀ ps, walk limit decls = ⟨ps, .ok ()⟩ →
      Accepted limit decls ∧ (empty.placeAll ps).snapshots = layouts decls := by
    intro ps run
    obtain ⟨rfl, accepted⟩ := walk_eq_iff.mp run
    refine ⟨accepted, ?_⟩
    rw [snapshots_placeAll, layouts, ← accepted.needed_eq_lastVersion, Int.toNat_natCast]
    simp only [written_placements]
  unfold ofDeclarations
  constructor
  · intro built
    cases run : walk limit decls with
    | mk ps result =>
        rw [run] at built
        cases result with
        | error d => cases built
        | ok u =>
            obtain ⟨accepted, same⟩ := walked ps run
            cases built
            exact ⟨accepted, same.symm⟩
  · intro exact
    rcases exact with ⟨accepted, rfl⟩
    have run := walk_eq_iff.mpr ⟨rfl, accepted⟩
    rw [run]
    exact congrArg Except.ok (walked _ run).2

/-- The timeline is exact: there is one snapshot for every version up to the last one that the
schema mentions, in their order, and each holds exactly the items that live in its version. -/
theorem snapshots_exact {limit : Int} {decls : List Decl} {snapshots : List Snapshot}
    (built : ofDeclarations limit decls = .ok snapshots) :
    (snapshots.length : Int) = lastVersion decls ∧
      ∀ version : Int, 1 ≤ version → version ≤ lastVersion decls →
        snapshots[(version - 1).toNat]? = some ⟨version, Layout.types version decls⟩ := by
  obtain ⟨accepted, rfl⟩ := ofDeclarations_eq_ok_iff.mp built
  have counted := accepted.needed_eq_lastVersion
  refine ⟨?_, ?_⟩
  · simp only [layouts, List.length_map, List.length_range]
    omega
  · intro version first last
    have place : (version - 1).toNat < (lastVersion decls).toNat := by omega
    have number : (((version - 1).toNat : Nat) : Int) + 1 = version := by omega
    simp only [layouts, List.getElem?_map, List.getElem?_range place, Option.map_some, number]

/-! ## A schema of three versions -/

def addedIn (version : Int) : Option Header := some (.adding ⟨version, none⟩ none none)

def removedIn (version : Int) : Option Header := some (.removing ⟨version, none⟩ none)

def orders : List Decl :=
  [⟨.str "Order", .record false
      [⟨.str "id", .primitive .u32 none, none, none⟩,
       ⟨.str "note", .primitive .str none, some (.adding ⟨2, none⟩ (some ⟨3, none⟩) none), none⟩,
       ⟨.str "status", .named (.str "Status") none, addedIn 2, none⟩], none, none⟩,
   ⟨.str "Status", .enum
      [⟨.str "Open", .struct
          [⟨.str "since", .primitive .u64 none, none, none⟩,
           ⟨.str "clerk", .primitive .str none, addedIn 3, none⟩], none, none⟩,
       ⟨.str "Draft", .unit, removedIn 3, none⟩], addedIn 2, none⟩]

def ordersSnapshots : List Snapshot :=
  [⟨1, [⟨0, [.plain 0]⟩]⟩,
   ⟨2, [⟨0, [.plain 0, .plain 1, .plain 2]⟩, ⟨1, [.struct 0 [0], .plain 1]⟩]⟩,
   ⟨3, [⟨0, [.plain 0, .plain 2]⟩, ⟨1, [.struct 0 [0, 1]]⟩]⟩]

theorem snapshots_exact_orders :
    ofDeclarations 1024 orders = .ok ordersSnapshots ∧
      (ordersSnapshots.length : Int) = lastVersion orders ∧
      ordersSnapshots[((3 : Int) - 1).toNat]? = some ⟨3, Layout.types 3 orders⟩ := by
  have built : ofDeclarations 1024 orders = .ok ordersSnapshots := by decide
  obtain ⟨count, each⟩ := snapshots_exact built
  exact ⟨built, count, each 3 (by decide) (by decide)⟩

end History
end SchemaHistory
