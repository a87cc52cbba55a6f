import SchemaHistory.Proofs.History.Exactness
import SchemaHistory.Proofs.History.Visited

/-! # The limit of a walk

The limit is compared with the versions that headers mention, while versions are created from
lifetimes, whose ends may come from a container.  Still no history on the way of a walk, not even of
one that is rejected, has more versions than the limit, or more than one if the limit is below that.
Apart from this the limit decides only which headers are accepted: two limits above everything that
a schema mentions are as good as each other, and what a smaller one accepts comes to the same. -/
set_option autoImplicit false
namespace SchemaHistory.History

/-- The histories on the way of a walk: some of the items are placed, and maybe a part of the
versions that the next one needs is there already. -/
inductive Passes (limit : Int) (decls : List Decl) : History → Prop
  | placed {ps : List Placement} (front : ps <+: (walk limit decls).placements) :
      Passes limit decls (empty.placeAll ps)
  | creating {ps : List Placement} {p : Placement} {count : Nat}
      (front : ps ++ [p] <+: (walk limit decls).placements) (part : count ≤ lastNeeded p.lifetime) :
      Passes limit decls ((empty.placeAll ps).upTo count)

section
variable {limit : Int} {decls : List Decl}

theorem lastNeeded_le_limit {p : Placement} (placed : p ∈ (walk limit decls).placements) :
    (lastNeeded p.lifetime : Int) ≤ max 1 limit := by
  obtain ⟨reached, -, same, -, each⟩ := walk_visits limit decls
  rw [same] at placed
  obtain ⟨item, member, rfl⟩ := List.mem_map.mp placed
  obtain ⟨proper, bounded⟩ := Item.reachesBy_of_resolved (each item member)
  have last := Lifetime.lastNeeded_eq_reach proper
  exact last.trans_le bounded

theorem needed_le_limit {ps : List Placement} (front : ps <+: (walk limit decls).placements) :
    (needed ps : Int) ≤ max 1 limit := by
  have bounded : needed ps ≤ (max 1 limit).toNat := by
    rw [needed_le_iff]
    intro p member
    have last := lastNeeded_le_limit (front.subset member)
    omega
  omega

theorem length_le_limit {h : History} (passes : Passes limit decls h) :
    (h.released.length : Int) ≤ max 1 limit := by
  cases passes with
  | placed front =>
      rw [length_placeAll]
      exact needed_le_limit front
  | creating front part =>
      have bounded := needed_le_limit front
      rw [needed_concat] at bounded
      rw [length_upTo, length_placeAll]
      omega

/-- Of two limits the smaller one accepts what the other one does, as far as it is mentioned. -/
theorem accepted_iff_of_mentioned {high : Int} (above : ∀ n ∈ mentioned decls, n ≤ high) :
    Accepted limit decls ↔ Accepted high decls ∧ ∀ n ∈ mentioned decls, n ≤ limit := by
  constructor
  · intro accepted
    obtain ⟨resolves, within⟩ := resolvesWithin_all_iff.mp accepted.resolves
    exact ⟨⟨resolvesWithin_all_iff.mpr ⟨resolves, above⟩, accepted.apart, accepted.members⟩, within⟩
  · intro both
    rcases both with ⟨accepted, within⟩
    exact ⟨resolvesWithin_all_iff.mpr ⟨accepted.itemsResolve, within⟩, accepted.apart,
      accepted.members⟩

def Builds (limit : Int) (decls : List Decl) : Prop :=
  ∃ snapshots, ofDeclarations limit decls = .ok snapshots

theorem builds_iff_accepted : Builds limit decls ↔ Accepted limit decls := by
  simp only [Builds, ofDeclarations_eq_ok_iff, exists_and_left, exists_eq', and_true]

end

/-- The limit bounds the number of versions all along the walk, and otherwise changes nothing: it
accepts what any limit above all mentioned versions does, unless a version above it is mentioned,
and a history that is built under it is the one that is built under every higher limit. -/
theorem limit_bounds (limit : Int) (decls : List Decl) :
    (∀ h, Passes limit decls h → (h.released.length : Int) ≤ max 1 limit) ∧
    (∀ high, (∀ n ∈ mentioned decls, n ≤ high) →
      (Builds limit decls ↔ Builds high decls ∧ ∀ n ∈ mentioned decls, n ≤ limit)) ∧
    ∀ snapshots high, ofDeclarations limit decls = .ok snapshots → limit ≤ high →
      ofDeclarations high decls = .ok snapshots := by
  refine ⟨fun h passes => length_le_limit passes, ?_, ?_⟩
  · intro high above
    simp only [builds_iff_accepted]
    exact accepted_iff_of_mentioned above
  · intro snapshots high built le
    obtain ⟨accepted, exact⟩ := ofDeclarations_eq_ok_iff.mp built
    have within := (resolvesWithin_all_iff.mp accepted.resolves).2
    have above : ∀ n ∈ mentioned decls, n ≤ high := fun n member => le_trans (within n member) le
    have higher := ((accepted_iff_of_mentioned above).mp accepted).1
    exact ofDeclarations_eq_ok_iff.mpr ⟨higher, exact⟩

/-- Under the limit 2 the walk through the orders ends at the note, which is removed in version 3;
the limit 3 is as good as any higher one. -/
theorem limit_bounds_orders :
    (Passes 2 orders (empty.placeAll (walk 2 orders).placements) ∧
      ((empty.placeAll (walk 2 orders).placements).released.length : Int) ≤ max 1 2) ∧
    ((∀ n ∈ mentioned orders, n ≤ 1024) ∧
      (Builds 2 orders ↔ Builds 1024 orders ∧ ∀ n ∈ mentioned orders, n ≤ 2)) ∧
    ofDeclarations 3 orders = .ok ordersSnapshots ∧ (3 : Int) ≤ 1024 ∧
      ofDeclarations 1024 orders = .ok ordersSnapshots := by
  have ended : Passes 2 orders (empty.placeAll (walk 2 orders).placements) :=
    .placed List.prefix_rfl
  have above : ∀ n ∈ mentioned orders, n ≤ 1024 := by decide
  have built : ofDeclarations 3 orders = .ok ordersSnapshots := by decide
  have higher : (3 : Int) ≤ 1024 := by decide
  obtain ⟨bounded, admits, -⟩ := limit_bounds 2 orders
  obtain ⟨-, -, same⟩ := limit_bounds 3 orders
  exact ⟨⟨ended, bounded _ ended⟩, ⟨above, admits 1024 above⟩, built, higher,
    same _ 1024 built higher⟩

end SchemaHistory.History
