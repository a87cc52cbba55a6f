import SchemaHistory.Proofs.History.Exactness
import SchemaHistory.Proofs.History.Owners

/-! # Every item is written into its owner

Placing an item never fails: where there is nothing to write behind, nothing is written, and
whatever stands last is taken for the owner.  `placeChecked` places an item like `place`, but
fails where a version of the lifetime is missing, where nothing or something else stands in the
place of the owner, and where an item without an end has no owner in what is upcoming.

`Ready` says that none of this is so.  It holds of every history into which a walk writes an item,
however the walk ends, so the checked placing gives the same history (`writes_into_owner`). -/
set_option autoImplicit false
namespace SchemaHistory

inductive PlacingFault
  | missingVersion
  | nothingThere
  | otherThere
  | notUpcoming
  deriving DecidableEq, Repr

/-! ## Writing into an owner -/

def changeLast {α : Type} (f : α → Except PlacingFault α) :
    List α → Except PlacingFault (List α)
  | [] => .error .nothingThere
  | [x] => (f x).map fun y => [y]
  | x :: y :: rest => (changeLast f (y :: rest)).map (x :: ·)

theorem changeLast_concat {α : Type} {f : α → Except PlacingFault α} {x y : α} (xs : List α)
    (changed : f x = .ok y) : changeLast f (xs ++ [x]) = .ok (xs ++ [y]) := by
  induction xs with
  | nil =>
      rw [List.nil_append, changeLast, changed]
      rfl
  | cons z zs ih =>
      cases zs with
      | nil =>
          rw [List.nil_append] at ih
          rw [List.cons_append, List.nil_append, changeLast, ih]
          rfl
      | cons u us =>
          rw [List.cons_append] at ih
          rw [List.cons_append, List.cons_append, changeLast, ih]
          rfl

namespace Owner

def changeType (i : Nat) (f : TypeSlot → Except PlacingFault TypeSlot) (t : TypeSlot) :
    Except PlacingFault TypeSlot :=
  if t.index = i then f t else .error .otherThere

/-- Only a struct variant has fields of its own. -/
def changeVariant (j k : Nat) : MemberSlot → Except PlacingFault MemberSlot
  | .plain _ => .error .nothingThere
  | .struct i fields =>
    if i = j then .ok (.struct i (fields ++ [k])) else .error .otherThere

def put (types : List TypeSlot) : Owner → Slot → Except PlacingFault (List TypeSlot)
  | .version, .type index => .ok (types ++ [⟨index, []⟩])
  | .type i, .member slot => changeLast (changeType i fun t => .ok (Slot.addMember slot t)) types
  | .variant i j, .field k =>
    changeLast (changeType i fun t =>
      (changeLast (changeVariant j k) t.members).map fun members => { t with members }) types
  | _, _ => .error .otherThere

theorem put_eq_ok {owner : Owner} {slot : Slot} {types : List TypeSlot} (takes : owner.Takes slot)
    (stands : owner.StandsLast types) : owner.put types slot = .ok (slot.putInto types) := by
  cases owner with
  | version =>
      cases slot with
      | type index => rfl
      | _ => cases takes
  | type i =>
      cases slot with
      | member slot =>
          obtain ⟨earlier, members, rfl⟩ := stands
          rw [Slot.putInto, onLast_concat]
          exact changeLast_concat earlier (if_pos rfl)
      | _ => cases takes
  | variant i j =>
      cases slot with
      | field k =>
          obtain ⟨earlier, members, fields, rfl⟩ := stands
          have inner : changeLast (changeVariant j k) (members ++ [.struct j fields]) =
              .ok (members ++ [.struct j (fields ++ [k])]) :=
            changeLast_concat members (if_pos rfl)
          have added : onLast (Slot.addField k) (members ++ [.struct j fields]) =
              members ++ [.struct j (fields ++ [k])] := onLast_concat _ _ _
          rw [Slot.putInto, onLast_concat, Slot.onLastMember, added]
          refine changeLast_concat earlier ?_
          rw [changeType, if_pos rfl, inner]
          rfl
      | _ => cases takes

end Owner

namespace History

/-! ## Placing with checks -/

def writeInto (s : Site) (version : Int) (types : List TypeSlot) :
    Except PlacingFault (List TypeSlot) :=
  if version ∈ s.lifetime then s.owner.put types s.item.slot else .ok types

/-- What is upcoming has a place for an item without an end. -/
def writeUpcoming (s : Site) (types : List TypeSlot) : Except PlacingFault (List TypeSlot) :=
  if s.lifetime.closed then .ok types
  else (s.owner.put types s.item.slot).mapError fun _ => .notUpcoming

/-- Like `place`, but nothing that is needed may be missing. -/
def placeChecked (h : History) (s : Site) : Except PlacingFault History := do
  let grown := h.upTo (lastNeeded s.lifetime)
  if s.lifetime.added < 1 ∨ (grown.released.length : Int) < s.lifetime.reach - 1 then
    .error .missingVersion
  else do
    let released ← grown.released.zipIdx.mapM fun e => writeInto s ((e.2 : Int) + 1) e.1
    let upcoming ← writeUpcoming s grown.upcoming
    .ok ⟨released, upcoming⟩

/-- A history into which an item can be written: every version of the lifetime that is written into
is there and ends with the owner, and so does what is upcoming if the item has no end; its container
has none either then. -/
structure Ready (s : Site) (h : History) : Prop where
  starts : 1 ≤ s.lifetime.added
  reached : s.lifetime.reach ≤ h.released.length
  released : ∀ version ∈ s.lifetime,
    s.lifetime.closed = true ∨ version ≤ h.released.length →
      1 ≤ version ∧ ∃ types, h.released[(version - 1).toNat]? = some types ∧
        s.owner.StandsLast types
  upcoming : s.lifetime.closed = false →
    s.owner.StandsLast h.upcoming ∧ ∀ container ∈ s.item.container, container.closed = false

section
variable {h : History} {s : Site}

theorem writeInto_eq_ok (takes : s.owner.Takes s.item.slot) {version : Int} {types : List TypeSlot}
    (stands : version ∈ s.lifetime → s.owner.StandsLast types) :
    writeInto s version types =
      .ok (if version ∈ s.lifetime then s.item.slot.putInto types else types) := by
  unfold writeInto
  split_ifs with inside
  · exact Owner.put_eq_ok takes (stands inside)
  · rfl

theorem writeUpcoming_eq_ok (takes : s.owner.Takes s.item.slot) {types : List TypeSlot}
    (stands : s.lifetime.closed = false → s.owner.StandsLast types) :
    writeUpcoming s types =
      .ok (if s.lifetime.closed then types else s.item.slot.putInto types) := by
  unfold writeUpcoming
  split_ifs with closed
  · rfl
  · rw [Owner.put_eq_ok takes (stands (Bool.eq_false_iff.mpr closed))]
    rfl

/-- Into a history that is ready for an item the checked placing writes what `place` does. -/
theorem placeChecked_eq_ok (takes : s.owner.Takes s.item.slot)
    (ready : Ready s (h.upTo (lastNeeded s.lifetime))) :
    placeChecked h s = .ok (h.place s.placement) := by
  have inRange : ¬(s.lifetime.added < 1 ∨
      ((h.upTo (lastNeeded s.lifetime)).released.length : Int) < s.lifetime.reach - 1) := by
    have starts := ready.starts
    have reached := ready.reached
    omega
  have each : ∀ e ∈ (h.upTo (lastNeeded s.lifetime)).released.zipIdx,
      writeInto s ((e.2 : Int) + 1) e.1 = .ok (putWhere s.placement e.2 e.1) := by
    intro e member
    refine writeInto_eq_ok takes fun inside => ?_
    obtain ⟨types, index⟩ := e
    have found := List.mem_zipIdx_iff_getElem?.mp member
    have there := (List.getElem?_eq_some_iff.mp found).1
    obtain ⟨-, others, same, stands⟩ := ready.released _ inside (.inr (by push_cast; omega))
    have place : ((index : Int) + 1 - 1).toNat = index := by omega
    rw [place, found] at same
    cases same
    exact stands
  have released := mapM_eq_ok_of_forall
    (f := fun e : List TypeSlot × Nat => writeInto s ((e.2 : Int) + 1) e.1)
    (g := fun e : List TypeSlot × Nat => putWhere s.placement e.2 e.1) each
  rw [List.map_id', ← List.mapIdx_eq_zipIdx_map] at released
  have upcoming := writeUpcoming_eq_ok takes fun isOpen => (ready.upcoming isOpen).1
  unfold placeChecked
  simp only [if_neg inRange, released, upcoming]
  rfl

end

/-! ## The items of a walk -/

def visited (limit : Int) (decls : List Decl) : List Site :=
  (sites decls).take (walk limit decls).placements.length

section
variable {limit : Int} {decls : List Decl}

theorem visited_isPrefix (limit : Int) (decls : List Decl) : visited limit decls <+: sites decls :=
  List.take_prefix _ _

/-- What was placed are the sites in their order, each resolved within the limit. -/
theorem visited_walk :
    (visited limit decls).map Site.placement = (walk limit decls).placements ∧
      ∀ s ∈ visited limit decls,
        Walk.ResolvedIn limit (Lifetime.ReachesBy (max 1 limit)) s.item := by
  obtain ⟨reached, front, placed, -, each⟩ := walk_visits limit decls
  have same : (visited limit decls).map Site.item = reached := by
    rw [visited, List.map_take, map_item_sites, placed, List.length_map]
    exact (List.prefix_iff_eq_take.mp front).symm
  refine ⟨by rw [map_placement, same, placed], ?_⟩
  intro s member
  exact each _ (same ▸ List.mem_map_of_mem member)

theorem container_isOpen {item : Item} (proper : item.home.Proper) (resolves : item.Resolves)
    (isOpen : item.lifetime.closed = false) : ∀ container ∈ item.container,
      container.closed = false := by
  intro container inside
  obtain ⟨-, own, inHome⟩ := (Lifetime.resolve_eq_ok_iff proper).mp (Item.resolve_home resolves)
  have ends := ((Lifetime.subset_iff own).mp inHome).2
  have home : item.home = container := by rw [Item.home, Option.mem_def.mp inside, Option.getD_some]
  rw [home] at ends
  rw [Lifetime.closed, Option.isSome_eq_false_iff, Option.isNone_iff_eq_none] at isOpen ⊢
  cases bound : container.removed with
  | none => rfl
  | some b =>
      rw [bound] at ends
      obtain ⟨m, removed, -⟩ := ends
      rw [isOpen] at removed
      cases removed

/-- When a walk comes to an item, the history is ready for it as soon as the versions that it needs
are there. -/
theorem ready_of_visited {before after : List Site} {s : Site}
    (split : visited limit decls = before ++ s :: after) :
    Ready s ((empty.placeAll (before.map Site.placement)).upTo (lastNeeded s.lifetime)) := by
  have member : s ∈ visited limit decls := split ▸ List.mem_append_right _ List.mem_cons_self
  obtain ⟨⟨home, -⟩, within⟩ := visited_walk.2 s member
  obtain ⟨proper, -⟩ := Item.reachesBy_of_resolved (visited_walk.2 s member)
  have last : (lastNeeded s.lifetime : Int) = s.lifetime.reach :=
    Lifetime.lastNeeded_eq_reach proper
  have faithful := placeAll_faithful (before.map Site.placement)
  have count := length_upTo (lastNeeded s.lifetime) (empty.placeAll (before.map Site.placement))
  rw [length_placeAll] at count
  obtain ⟨later, whole⟩ := visited_isPrefix limit decls
  rw [split, List.append_assoc, List.cons_append] at whole
  have stands : ∀ version ∈ s.lifetime,
      s.owner.StandsLast (written version (before.map Site.placement)) :=
    fun version inside => standsLast_of_site whole.symm inside
  refine ⟨proper.1, by omega, ?_, ?_⟩
  · intro version inside writable
    have first : 1 ≤ version := le_trans proper.1 inside.1
    have created : version ≤
        (max (needed (before.map Site.placement)) (lastNeeded s.lifetime) : Nat) := by
      rcases writable with closed | there
      · by_contra late
        rw [(mem_iff_open (by omega)).mp inside] at closed
        cases closed
      · omega
    refine ⟨first, _, ?_, stands version inside⟩
    have place : (version - 1).toNat <
        max (needed (before.map Site.placement)) (lastNeeded s.lifetime) := by omega
    have number : (((version - 1).toNat : Nat) : Int) + 1 = version := by omega
    rw [released_upTo faithful, List.getElem?_map, List.getElem?_range place, Option.map_some,
      number]
  · intro isOpen
    refine ⟨?_, container_isOpen home (Item.resolvesWithin_iff.mp within).2 isOpen⟩
    -- what is upcoming is what any version holds that is late enough
    obtain ⟨version, beyond, late⟩ : ∃ version : Int,
        (needed (before.map Site.placement) : Int) < version ∧ lastNeeded s.lifetime < version :=
      ⟨max (needed (before.map Site.placement)) (lastNeeded s.lifetime) + 1, by omega, by omega⟩
    have same := faithful.upcoming version beyond
    exact same ▸ stands version ((mem_iff_open late).mpr isOpen)

/-- All items of a walk can be placed with checks, and this changes nothing. -/
theorem foldlM_placeChecked {before after : List Site}
    (split : visited limit decls = before ++ after) :
    before.foldlM placeChecked empty = .ok (empty.placeAll (before.map Site.placement)) := by
  induction before using List.reverseRecOn generalizing after with
  | nil => rfl
  | append_singleton before s ih =>
      rw [List.append_assoc, List.singleton_append] at split
      have member : s ∈ visited limit decls := split ▸ List.mem_append_right _ List.mem_cons_self
      have takes := takes_of_mem_sites ((visited_isPrefix limit decls).subset member)
      have placed := placeChecked_eq_ok takes (ready_of_visited split)
      have next : empty.placeAll ((before ++ [s]).map Site.placement) =
          (empty.placeAll (before.map Site.placement)).place s.placement := by
        simp only [placeAll, List.map_append, List.map_singleton, List.foldl_append,
          List.foldl_cons, List.foldl_nil]
      rw [List.foldlM_append, ih split, next, ← placed]
      exact bind_pure (placeChecked _ s)

end

/-- Whatever the headers say, and however the walk ends, every item is written into its owner: into
versions that exist and in which the owner stands last, and without an end also into what is
upcoming, where it stands last as well.  So nothing is missed when items are placed with checks. -/
theorem writes_into_owner (limit : Int) (decls : List Decl) :
    (visited limit decls).map Site.placement = (walk limit decls).placements ∧
    (∀ before s after, visited limit decls = before ++ s :: after →
      Ready s ((empty.placeAll (before.map Site.placement)).upTo (lastNeeded s.lifetime))) ∧
    (visited limit decls).foldlM placeChecked empty =
      .ok (empty.placeAll (walk limit decls).placements) := by
  refine ⟨visited_walk.1, fun before s after split => ready_of_visited split, ?_⟩
  rw [← visited_walk.1]
  exact foldlM_placeChecked (List.append_nil _).symm

/-- The clerk, who comes to the open orders in version 3. -/
theorem writes_into_owner_orders :
    visited 1024 orders = (sites orders).take 7 ++
      ⟨.variant 1 0, ⟨addedIn 3, some ⟨2, none⟩, .field 1⟩⟩ :: (sites orders).drop 8 ∧
    Ready ⟨.variant 1 0, ⟨addedIn 3, some ⟨2, none⟩, .field 1⟩⟩
      ((empty.placeAll (((sites orders).take 7).map Site.placement)).upTo
        (lastNeeded (Site.lifetime ⟨.variant 1 0, ⟨addedIn 3, some ⟨2, none⟩, .field 1⟩⟩))) := by
  have split : visited 1024 orders = (sites orders).take 7 ++
      ⟨.variant 1 0, ⟨addedIn 3, some ⟨2, none⟩, .field 1⟩⟩ :: (sites orders).drop 8 := rfl
  exact ⟨split, (writes_into_owner 1024 orders).2.1 _ _ _ split⟩

end History
end SchemaHistory
