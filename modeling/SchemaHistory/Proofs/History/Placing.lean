import Mathlib.Data.List.Induction
import SchemaHistory.Proofs.Lifetime.OfHeader

/-! # What a history holds after its placements

A history never looks at one version alone: it writes into several versions at once, copies what is
upcoming into the versions that it creates, and changes what is upcoming.  `History.written` follows
one single version instead, through all the placements in their order, and writes just those that
live in it.  `placeAll_faithful` says that both come to the same, for all versions and for every
list of placements. -/
set_option autoImplicit false
namespace SchemaHistory.History

def putAt (version : Int) (types : List TypeSlot) (p : Placement) : List TypeSlot :=
  if version ∈ p.lifetime then p.slot.putInto types else types

def written (version : Int) (ps : List Placement) : List TypeSlot := ps.foldl (putAt version) []

def needed (ps : List Placement) : Nat := (ps.map fun p => lastNeeded p.lifetime).foldl max 0

theorem putAt_of_mem {version : Int} {types : List TypeSlot} {p : Placement}
    (inside : version ∈ p.lifetime) : putAt version types p = p.slot.putInto types := if_pos inside

theorem putAt_of_not_mem {version : Int} {types : List TypeSlot} {p : Placement}
    (outside : version ∉ p.lifetime) : putAt version types p = types := if_neg outside

@[simp] theorem written_nil (version : Int) : written version [] = [] := rfl

theorem written_concat (version : Int) (ps : List Placement) (p : Placement) :
    written version (ps ++ [p]) = putAt version (written version ps) p := by
  simp [written]

@[simp] theorem needed_nil : needed [] = 0 := rfl

theorem needed_concat (ps : List Placement) (p : Placement) :
    needed (ps ++ [p]) = max (needed ps) (lastNeeded p.lifetime) := by
  simp [needed]

theorem needed_le_iff {ps : List Placement} {count : Nat} :
    needed ps ≤ count ↔ ∀ p ∈ ps, lastNeeded p.lifetime ≤ count := by
  induction ps using List.reverseRecOn with
  | nil => simp
  | append_singleton ps p ih =>
      simp only [needed_concat, Nat.max_le, ih, List.forall_mem_append, List.forall_mem_singleton]

theorem le_needed {ps : List Placement} {p : Placement} (member : p ∈ ps) :
    lastNeeded p.lifetime ≤ needed ps :=
  needed_le_iff.mp (le_refl _) p member

/-- Behind its last needed version an item lives everywhere or nowhere. -/
theorem mem_iff_open {l : Lifetime} {version : Int} (late : (lastNeeded l : Int) < version) :
    version ∈ l ↔ l.closed = false := by
  obtain ⟨added, removed⟩ := l
  have reached : (Option.getD removed added : Int) < version := by
    simp only [lastNeeded] at late
    omega
  cases removed with
  | none =>
      simp only [Option.getD_none] at reached
      simp [Lifetime.closed, Lifetime.mem_iff, le_of_lt reached]
  | some m =>
      simp only [Option.getD_some] at reached
      simp only [Lifetime.closed, Lifetime.mem_iff, Option.isSome_some, Option.some.injEq,
        forall_eq', reduceCtorEq, iff_false, not_and, not_lt]
      exact fun _ => le_of_lt reached

/-- A history agrees with following every version on its own: the released versions are there in
their order, and what is upcoming is what every later version would hold. -/
structure Faithful (ps : List Placement) (h : History) : Prop where
  released : h.released = (List.range (needed ps)).map fun i : Nat => written ((i : Int) + 1) ps
  upcoming : ∀ version : Int, (needed ps : Int) < version → written version ps = h.upcoming

theorem empty_faithful : Faithful [] empty where
  released := rfl
  upcoming := fun _ _ => rfl

/-- Creating versions goes on with what each of them would hold. -/
theorem released_upTo {ps : List Placement} {h : History} (faithful : Faithful ps h) (count : Nat) :
    (h.upTo count).released =
      (List.range (max (needed ps) count)).map fun i : Nat => written ((i : Int) + 1) ps := by
  have total : max (needed ps) count = needed ps + (count - needed ps) := by omega
  have seeded : ((List.range (count - needed ps)).map fun i => needed ps + i).map
      (fun i : Nat => written ((i : Int) + 1) ps) =
        List.replicate (count - needed ps) h.upcoming := by
    rw [List.eq_replicate_iff]
    refine ⟨by simp, ?_⟩
    intro types member
    obtain ⟨i, inside, rfl⟩ := List.mem_map.mp member
    obtain ⟨j, -, rfl⟩ := List.mem_map.mp inside
    exact faithful.upcoming _ (by push_cast; omega)
  rw [total, List.range_add, List.map_append, seeded]
  simp only [upTo, faithful.released, List.length_map, List.length_range]

theorem mapIdx_putWhere (p : Placement) (count : Nat) (f : Int → List TypeSlot) :
    ((List.range count).map fun i : Nat => f ((i : Int) + 1)).mapIdx (putWhere p) =
      (List.range count).map fun i : Nat => putAt ((i : Int) + 1) (f ((i : Int) + 1)) p := by
  apply List.ext_getElem
  · simp
  · intro i left right
    simp [putWhere, putAt]

theorem place_faithful {ps : List Placement} {h : History} (p : Placement)
    (faithful : Faithful ps h) : Faithful (ps ++ [p]) (h.place p) where
  released := by
    simp only [place, write, released_upTo faithful, needed_concat, written_concat]
    exact mapIdx_putWhere p _ fun version => written version ps
  upcoming := by
    intro version late
    rw [needed_concat] at late
    have seeded := faithful.upcoming version (by omega)
    have always : version ∈ p.lifetime ↔ p.lifetime.closed = false := mem_iff_open (by omega)
    rw [written_concat, seeded]
    simp only [place, write, upTo, putAt, always]
    cases p.lifetime.closed <;> simp

/-- After any placements the history is what following every version on its own gives. -/
theorem placeAll_faithful (ps : List Placement) : Faithful ps (empty.placeAll ps) := by
  induction ps using List.reverseRecOn with
  | nil => exact empty_faithful
  | append_singleton ps p ih =>
      have step := place_faithful p ih
      simpa only [placeAll, List.foldl_append, List.foldl_cons, List.foldl_nil] using step

theorem length_placeAll (ps : List Placement) :
    (empty.placeAll ps).released.length = needed ps := by
  rw [(placeAll_faithful ps).released, List.length_map, List.length_range]

theorem length_upTo (count : Nat) (h : History) :
    (h.upTo count).released.length = max h.released.length count := by
  simp only [upTo, List.length_append, List.length_replicate]
  omega

theorem snapshots_placeAll (ps : List Placement) :
    (empty.placeAll ps).snapshots =
      (List.range (needed ps)).map fun i : Nat => ⟨(i : Int) + 1, written ((i : Int) + 1) ps⟩ := by
  rw [snapshots, (placeAll_faithful ps).released]
  apply List.ext_getElem
  · simp
  · intro i left right
    simp

/-! ## Placements of which none lives in a version -/

theorem foldl_putAt_of_not_mem {version : Int} {ps : List Placement} (types : List TypeSlot)
    (outside : ∀ p ∈ ps, version ∉ p.lifetime) : ps.foldl (putAt version) types = types := by
  induction ps with
  | nil => rfl
  | cons p rest ih =>
      rw [List.foldl_cons, putAt_of_not_mem (outside p List.mem_cons_self)]
      exact ih fun q member => outside q (List.mem_cons_of_mem p member)

end SchemaHistory.History
