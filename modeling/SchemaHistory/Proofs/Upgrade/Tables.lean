import SchemaHistory.Proofs.Excerpt.Snapshot
import SchemaHistory.Proofs.Json.Keys
import SchemaHistory.Proofs.Table
import SchemaHistory.Upgrade.Diff

/-! # Comparing scopes with distinct names

When the items of a scope have distinct names that are texts, their table has one entry for each of
them, under its own name.  The comparison of two such scopes finds no breaking change exactly when
every old item has a namesake that is the same declaration and has no breaking change inside
(`safe_compare_iff`), and two such scopes can be compared when their items can
(`comparable_entries`). -/
set_option autoImplicit false
namespace SchemaHistory.Upgrade

def Safe (changes : List Change) : Prop := ∀ c ∈ changes, c.isBreaking = false

theorem safe_nil : Safe [] := fun _ member => absurd member List.not_mem_nil

theorem safe_append {cs ds : List Change} : Safe (cs ++ ds) ↔ Safe cs ∧ Safe ds :=
  List.forall_mem_append

section
variable {α : Type} {view : View α}

/-- Items that can be told apart by their names, which are texts. -/
structure Named (view : View α) (items : List α) : Prop where
  texts : ∀ x ∈ items, (view.name x).isText = true
  distinct : (items.map view.name).Nodup

def entry (view : View α) (x : α) : Json × Entry α := (view.name x, ⟨view.name x, x⟩)

section
variable {items : List α} (named : Named view items)
include named

theorem Named.eq_of_name {x y : α} (left : x ∈ items) (right : y ∈ items)
    (same : view.name x = view.name y) : x = y :=
  List.inj_on_of_nodup_map named.distinct left right same

theorem nameAmong_eq {x : α} (member : x ∈ items) : nameAmong view items x = view.name x := by
  unfold nameAmong
  cases found : items.find? fun other => decide ((view.name other).key = (view.name x).key) with
  | none => rfl
  | some first =>
      have same := List.find?_some found
      rw [decide_eq_true_eq,
        Json.key_of_isText (named.texts first (List.mem_of_find?_eq_some found)),
        Json.key_of_isText (named.texts x member)] at same
      exact same

theorem keyed_entries : Table.Keyed (items.map (entry view)) := by
  rw [Table.Keyed, List.map_map]
  exact named.distinct

/-- The table of a scope has one entry for each item, in the order of the items. -/
theorem entriesOf_eq : entriesOf view items = items.map (entry view) := by
  have own : (items.map fun x =>
      ((view.name x).key, (⟨nameAmong view items x, x⟩ : Entry α))) = items.map (entry view) := by
    apply List.map_congr_left
    intro x member
    rw [nameAmong_eq named member, Json.key_of_isText (named.texts x member)]
    rfl
  rw [entriesOf, own]
  exact Table.ofList_of_keyed (keyed_entries named)

theorem find?_entry {x : α} (member : x ∈ items) :
    Table.find? (view.name x) (items.map (entry view)) = some ⟨view.name x, x⟩ :=
  Table.find?_of_mem (keyed_entries named) (List.mem_map.mpr ⟨x, member, rfl⟩)

end

theorem find?_entry_none {items : List α} {key : Json} (absent : ∀ x ∈ items, view.name x ≠ key) :
    Table.find? key (items.map (entry view)) = none := by
  rw [Table.find?_eq_none_iff, List.map_map]
  intro member
  obtain ⟨x, inside, same⟩ := List.mem_map.mp member
  exact absent x inside same

section
variable {scope : Scope} {inside : Json → α → α → List Change} {old new : List α}

def goneChanges (scope : Scope) (view : View α) (new : Entries α) (x : α) : Option Change :=
  match Table.find? (view.name x) new with
  | some _ => none
  | none => some ⟨scope, view.name x, .removed (view.form x)⟩

/-- What is reported of a new item: that it was added or redefined, or the changes inside of it. -/
def newChanges (scope : Scope) (view : View α) (inside : Json → α → α → List Change)
    (old : Entries α) (y : α) : List Change :=
  match Table.find? (view.name y) old with
  | none => [⟨scope, view.name y, .added (view.form y)⟩]
  | some before =>
    if view.same before.item y then inside (view.name y) before.item y
    else [⟨scope, view.name y, .redefined (view.form before.item) (view.form y)⟩]

theorem compare_entries (scope : Scope) (inside : Json → α → α → List Change) (old new : List α) :
    compare scope view inside (old.map (entry view)) (new.map (entry view)) =
      old.filterMap (goneChanges scope view (new.map (entry view))) ++
        new.flatMap (newChanges scope view inside (old.map (entry view))) := by
  simp only [compare, List.filterMap_map, List.flatMap_map]
  rfl

theorem safe_gone_iff (named : Named view new) :
    Safe (old.filterMap (goneChanges scope view (new.map (entry view)))) ↔
      ∀ x ∈ old, ∃ y ∈ new, view.name y = view.name x := by
  constructor
  · intro safe x member
    by_contra alone
    have absent : ∀ y ∈ new, view.name y ≠ view.name x :=
      fun y inside same => alone ⟨y, inside, same⟩
    have gone : goneChanges scope view (new.map (entry view)) x =
        some ⟨scope, view.name x, .removed (view.form x)⟩ := by
      rw [goneChanges, find?_entry_none absent]
    have kept := safe _ (List.mem_filterMap.mpr ⟨x, member, gone⟩)
    cases kept
  · intro all c member
    obtain ⟨x, inside, gone⟩ := List.mem_filterMap.mp member
    obtain ⟨y, listed, same⟩ := all x inside
    rw [goneChanges, ← same, find?_entry named listed] at gone
    cases gone

theorem safe_newChanges_iff (named : Named view old) (y : α) :
    Safe (newChanges scope view inside (old.map (entry view)) y) ↔
      ∀ x ∈ old, view.name x = view.name y →
        view.same x y = true ∧ Safe (inside (view.name y) x y) := by
  by_cases shared : ∃ x ∈ old, view.name x = view.name y
  · obtain ⟨x, member, same⟩ := shared
    have unique : ∀ other ∈ old, view.name other = view.name y → other = x :=
      fun other inside own => named.eq_of_name inside member (own.trans same.symm)
    rw [newChanges, ← same, find?_entry named member]
    dsimp only
    constructor
    · intro safe other inside own
      obtain rfl := unique other inside (own.trans same)
      split_ifs at safe with declared
      · exact ⟨declared, safe⟩
      · cases safe _ List.mem_cons_self
    · intro all
      obtain ⟨declared, safe⟩ := all x member rfl
      rw [if_pos declared]
      exact safe
  · have absent : ∀ x ∈ old, view.name x ≠ view.name y :=
      fun x member same => shared ⟨x, member, same⟩
    rw [newChanges, find?_entry_none absent]
    refine iff_of_true ?_ fun x member same => absurd same (absent x member)
    intro c member
    rw [List.mem_singleton.mp member]
    rfl

/-- A scope loses nothing exactly when every old item is still there. -/
theorem safe_compare_iff (oldNamed : Named view old) (newNamed : Named view new) :
    Safe (compare scope view inside (entriesOf view old) (entriesOf view new)) ↔
      ∀ x ∈ old, ∃ y ∈ new, view.name y = view.name x ∧ view.same x y = true ∧
        Safe (inside (view.name y) x y) := by
  rw [entriesOf_eq oldNamed, entriesOf_eq newNamed, compare_entries, safe_append,
    safe_gone_iff newNamed]
  have rest : Safe (new.flatMap (newChanges scope view inside (old.map (entry view)))) ↔
      ∀ y ∈ new, ∀ x ∈ old, view.name x = view.name y →
        view.same x y = true ∧ Safe (inside (view.name y) x y) := by
    simp only [Safe, List.forall_mem_flatMap]
    exact forall₂_congr fun y _ => safe_newChanges_iff oldNamed y
  rw [rest]
  constructor
  · intro stays x member
    rcases stays with ⟨kept, still⟩
    obtain ⟨y, listed, same⟩ := kept x member
    exact ⟨y, listed, same, still y listed x member same.symm⟩
  · intro all
    refine ⟨fun x member => ?_, fun y listed x member same => ?_⟩
    · obtain ⟨y, listed, same, -⟩ := all x member
      exact ⟨y, listed, same⟩
    · obtain ⟨z, there, own, still⟩ := all x member
      obtain rfl := newNamed.eq_of_name there listed (own.trans same)
      exact still

def newComparable (view : View α) (inside : α → α → Bool) (old : Entries α) (y : α) : Bool :=
  match Table.find? (view.name y) old with
  | none => view.isWritable y
  | some before =>
    if view.same before.item y then inside before.item y
    else view.isWritable before.item && view.isWritable y

theorem comparable_eq (inside : α → α → Bool) (old new : List α) :
    comparable view inside (old.map (entry view)) (new.map (entry view)) =
      (((old ++ new).all fun x => (view.name x).canBeLookedUp) &&
        (old.all fun x => (Table.find? (view.name x) (new.map (entry view))).isSome ||
          view.isWritable x) &&
        new.all (newComparable view inside (old.map (entry view)))) := by
  simp only [comparable, ← List.map_append, List.all_map]
  rfl

theorem newComparable_of_writable {inside : α → α → Bool} (named : Named view old) {y : α}
    (own : view.isWritable y = true) (writable : ∀ x ∈ old, view.isWritable x = true)
    (within : ∀ x ∈ old, view.same x y = true → inside x y = true) :
    newComparable view inside (old.map (entry view)) y = true := by
  by_cases shared : ∃ x ∈ old, view.name x = view.name y
  · obtain ⟨x, listed, same⟩ := shared
    rw [newComparable, ← same, find?_entry named listed]
    dsimp only
    split_ifs with declared
    · exact within x listed declared
    · rw [writable x listed, own]
      rfl
  · have absent : ∀ x ∈ old, view.name x ≠ view.name y :=
      fun x listed same => shared ⟨x, listed, same⟩
    rw [newComparable, find?_entry_none absent]
    exact own

/-- Two scopes can be compared when all items can be written and, inside of those that are in both,
nothing prevents it. -/
theorem comparable_entries {inside : α → α → Bool} (oldNamed : Named view old)
    (newNamed : Named view new) (oldWritable : ∀ x ∈ old, view.isWritable x = true)
    (newWritable : ∀ y ∈ new, view.isWritable y = true)
    (within : ∀ x ∈ old, ∀ y ∈ new, view.same x y = true → inside x y = true) :
    comparable view inside (entriesOf view old) (entriesOf view new) = true := by
  rw [entriesOf_eq oldNamed, entriesOf_eq newNamed, comparable_eq]
  simp only [Bool.and_eq_true, List.all_eq_true, List.forall_mem_append]
  refine ⟨⟨⟨?_, ?_⟩, ?_⟩, ?_⟩
  · exact fun x member => Json.canBeLookedUp_of_isText (oldNamed.texts x member)
  · exact fun y member => Json.canBeLookedUp_of_isText (newNamed.texts y member)
  · intro x member
    exact Bool.or_eq_true_iff.mpr (.inr (oldWritable x member))
  · intro y member
    exact newComparable_of_writable oldNamed (newWritable y member) oldWritable
      fun x listed => within x listed y member

end

/-! ## Scopes of one list of declarations -/

def living {β : Type} (lives : β → Bool) (item : β × Nat → α) (xs : List β) : List α :=
  (xs.zipIdx.filter fun e => lives e.1).map item

section
variable {β : Type} {xs : List β}

theorem named_living (name : β → Json) {lives : β → Bool} {item : β × Nat → α}
    (names : ∀ e, view.name (item e) = name e.1) (texts : ∀ x ∈ xs, (name x).isText = true)
    (distinct : ((xs.filter lives).map name).Nodup) : Named view (living lives item xs) := by
  refine ⟨?_, ?_⟩
  · intro x member
    obtain ⟨e, listed, rfl⟩ := List.mem_map.mp member
    rw [names]
    exact texts e.1 (List.fst_mem_of_mem_zipIdx (List.mem_of_mem_filter listed))
  · have shown : (living lives item xs).map view.name = (xs.filter lives).map name := by
      rw [living, List.map_map, ← map_without_places xs]
      exact List.map_congr_left fun e _ => names e
    rw [shown]
    exact distinct

theorem eq_of_place {e f : β × Nat} (left : e ∈ xs.zipIdx) (right : f ∈ xs.zipIdx)
    (same : e.2 = f.2) : e = f := by
  have first := List.mem_zipIdx_iff_getElem?.mp left
  have second := List.mem_zipIdx_iff_getElem?.mp right
  rw [same, second] at first
  exact Prod.ext (Option.some.inj first).symm same

variable {old new : β → Bool} {oldItem newItem : β × Nat → α}

/-- Between two versions of one scope nothing is lost exactly when every declaration that lives in
the old version lives in the new one, with no loss inside. -/
theorem safe_living_iff (name : β → Json) {scope : Scope} {inside : Json → α → α → List Change}
    (oldNames : ∀ e, view.name (oldItem e) = name e.1)
    (newNames : ∀ e, view.name (newItem e) = name e.1)
    (places : ∀ e f, view.same (oldItem e) (newItem f) = (e.2 == f.2))
    (oldNamed : Named view (living old oldItem xs))
    (newNamed : Named view (living new newItem xs)) :
    Safe (compare scope view inside (entriesOf view (living old oldItem xs))
        (entriesOf view (living new newItem xs))) ↔
      ∀ e ∈ xs.zipIdx, old e.1 = true →
        new e.1 = true ∧ Safe (inside (name e.1) (oldItem e) (newItem e)) := by
  rw [safe_compare_iff oldNamed newNamed]
  constructor
  · intro all e member lives
    have listed : oldItem e ∈ living old oldItem xs :=
      List.mem_map.mpr ⟨e, List.mem_filter.mpr ⟨member, lives⟩, rfl⟩
    obtain ⟨y, there, -, same, safe⟩ := all _ listed
    obtain ⟨f, inside, rfl⟩ := List.mem_map.mp there
    obtain ⟨second, still⟩ := List.mem_filter.mp inside
    rw [places, beq_iff_eq] at same
    obtain rfl := eq_of_place member second same
    rw [newNames] at safe
    exact ⟨still, safe⟩
  · intro all x member
    obtain ⟨e, listed, rfl⟩ := List.mem_map.mp member
    obtain ⟨own, lives⟩ := List.mem_filter.mp listed
    obtain ⟨still, safe⟩ := all e own lives
    refine ⟨newItem e, List.mem_map.mpr ⟨e, List.mem_filter.mpr ⟨own, still⟩, rfl⟩, ?_, ?_, ?_⟩
    · rw [oldNames, newNames]
    · rw [places, beq_iff_eq]
    · rw [newNames]
      exact safe

theorem comparable_living {inside : α → α → Bool}
    (places : ∀ e f, view.same (oldItem e) (newItem f) = (e.2 == f.2))
    (oldNamed : Named view (living old oldItem xs)) (newNamed : Named view (living new newItem xs))
    (oldWritable : ∀ e ∈ xs.zipIdx, view.isWritable (oldItem e) = true)
    (newWritable : ∀ e ∈ xs.zipIdx, view.isWritable (newItem e) = true)
    (within : ∀ e ∈ xs.zipIdx, old e.1 = true → new e.1 = true →
      inside (oldItem e) (newItem e) = true) :
    comparable view inside (entriesOf view (living old oldItem xs))
      (entriesOf view (living new newItem xs)) = true := by
  apply comparable_entries oldNamed newNamed
  · intro x member
    obtain ⟨e, listed, rfl⟩ := List.mem_map.mp member
    exact oldWritable e (List.mem_of_mem_filter listed)
  · intro y member
    obtain ⟨e, listed, rfl⟩ := List.mem_map.mp member
    exact newWritable e (List.mem_of_mem_filter listed)
  · intro x left y right same
    obtain ⟨e, listed, rfl⟩ := List.mem_map.mp left
    obtain ⟨f, there, rfl⟩ := List.mem_map.mp right
    obtain ⟨own, lives⟩ := List.mem_filter.mp listed
    obtain ⟨other, still⟩ := List.mem_filter.mp there
    rw [places, beq_iff_eq] at same
    obtain rfl := eq_of_place own other same
    exact within e own lives still

end
end
end SchemaHistory.Upgrade
