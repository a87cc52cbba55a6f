import Mathlib.Data.List.Perm.Basic
import SchemaHistory.Proofs.Upgrade.Differences

/-! # Comparing backwards

The changes from the new version to the old one are the changes from the old version to the new one,
each one undone: what was removed is added, what was added is removed, and what was redefined is
redefined the other way round (`diff_mirrored`).  They come in another order, since either
comparison starts with its own removals and then follows its own new version.

In one scope this is seen from the items that live in only one of the two versions, those that leave
and those that come: `turnover` tells from their names what is removed, added and redefined, and it
treats both sides alike.  Whatever lives in both versions only has changes inside. -/
set_option autoImplicit false
namespace SchemaHistory

def Edit.mirrored : Edit → Edit
  | .removed old => .added old
  | .added new => .removed new
  | .redefined old new => .redefined new old

def Change.mirrored (c : Change) : Change := { c with edit := c.edit.mirrored }

@[simp] theorem Change.mirrored_mirrored (c : Change) : c.mirrored.mirrored = c := by
  obtain ⟨scope, name, edit⟩ := c
  cases edit <;> rfl

namespace Upgrade

structure Row where
  kind : String
  path : Json
  old : Option Json
  new : Option Json
  deriving DecidableEq, Repr

def rowOf (c : Change) : Row := ⟨c.kind, c.path, c.edit.old?, c.edit.new?⟩

/-- Additions and removals are exchanged, and redefinitions stay what they are. -/
def counterKind : String → String
  | "TYPE_ADDED" => "TYPE_REMOVED"
  | "FIELD_ADDED" => "FIELD_REMOVED"
  | "VARIANT_ADDED" => "VARIANT_REMOVED"
  | "TYPE_REMOVED" => "TYPE_ADDED"
  | "FIELD_REMOVED" => "FIELD_ADDED"
  | "VARIANT_REMOVED" => "VARIANT_ADDED"
  | kind => kind

def Row.mirrored (r : Row) : Row := ⟨counterKind r.kind, r.path, r.new, r.old⟩

theorem rowOf_mirrored (c : Change) : rowOf c.mirrored = (rowOf c).mirrored := by
  obtain ⟨scope, name, edit⟩ := c
  cases scope <;> cases edit <;> rfl

/-! ## Lists in another order -/

section
variable {α β γ : Type}

theorem flatMap_swap_perm (f : α → β → List γ) (xs : List α) (ys : List β) :
    (xs.flatMap fun x => ys.flatMap (f x)).Perm
      (ys.flatMap fun y => xs.flatMap fun x => f x y) := by
  induction xs with
  | nil => simp
  | cons x xs ih =>
      simp only [List.flatMap_cons]
      exact (ih.append_left _).trans (List.flatMap_append_perm ys _ _)

theorem flatMap_if (p : α → Prop) [DecidablePred p] (f : α → β) (xs : List α) :
    (xs.flatMap fun x => if p x then [f x] else []) = (xs.filter fun x => decide (p x)).map f := by
  induction xs with
  | nil => rfl
  | cons x xs ih => by_cases own : p x <;> simp [own, ih]

end

/-! ## Names that leave and names that come -/

abbrev Face := Json × Json

def Member.face (m : Member) : Face := (m.name, m.form)

def leaving (ms : List Member) : List Face :=
  (ms.filter fun m => !m.inNew && m.inOld).map Member.face

def coming (ms : List Member) : List Face :=
  (ms.filter fun m => !m.inOld && m.inNew).map Member.face

def staying (ms : List Member) : List Member := ms.filter fun m => m.inOld && m.inNew

def removed (scope : Scope) (x : Face) : Change := ⟨scope, x.1, .removed x.2⟩

def added (scope : Scope) (y : Face) : Change := ⟨scope, y.1, .added y.2⟩

def isAlone (others : List Face) (x : Face) : Bool := others.all fun y => decide (y.1 ≠ x.1)

def redefinition (scope : Scope) (x y : Face) : List Change :=
  if x.1 = y.1 then [⟨scope, y.1, .redefined x.2 y.2⟩] else []

/-- What becomes of the names: those that leave for good are removed, those that had not been there
are added, and those that leave and come are redefined. -/
def turnover (scope : Scope) (xs ys : List Face) : List Change :=
  (xs.filter (isAlone ys)).map (removed scope) ++ ((ys.filter (isAlone xs)).map (added scope) ++
    ys.flatMap fun y => xs.flatMap fun x => redefinition scope x y)

section
variable {scope : Scope}

theorem redefinition_mirrored (x y : Face) :
    (redefinition scope x y).map Change.mirrored = redefinition scope y x := by
  unfold redefinition
  by_cases same : x.1 = y.1
  · rw [if_pos same, if_pos same.symm, ← same]
    rfl
  · rw [if_neg same, if_neg (Ne.symm same)]
    rfl

theorem turnover_mirrored (xs ys : List Face) :
    (turnover scope ys xs).Perm ((turnover scope xs ys).map Change.mirrored) := by
  simp only [turnover, List.map_append, List.map_map, List.map_flatMap, redefinition_mirrored]
  refine (List.perm_append_comm_assoc _ _ _).trans ?_
  refine List.Perm.append_left _ (List.Perm.append_left _ ?_)
  exact flatMap_swap_perm (fun x y => redefinition scope y x) xs ys

section
variable {ms : List Member}

theorem isAlone_iff {others : List Face} {x : Face} :
    isAlone others x = true ↔ ∀ y ∈ others, y.1 ≠ x.1 := by
  simp only [isAlone, List.all_eq_true, decide_eq_true_eq]

theorem mem_leaving {x : Face} :
    x ∈ leaving ms ↔ ∃ m ∈ ms, m.inNew = false ∧ m.inOld = true ∧ m.face = x := by
  simp only [leaving, List.mem_map, List.mem_filter, Bool.and_eq_true, Bool.not_eq_true', and_assoc]

theorem mem_coming {x : Face} :
    x ∈ coming ms ↔ ∃ m ∈ ms, m.inOld = false ∧ m.inNew = true ∧ m.face = x := by
  simp only [coming, List.mem_map, List.mem_filter, Bool.and_eq_true, Bool.not_eq_true', and_assoc]

theorem arrivals_of_staying :
    (staying ms).flatMap (arrival scope ms) = (staying ms).flatMap Member.inner := by
  refine List.flatMap_congr fun y member => ?_
  have both := (List.mem_filter.mp member).2
  exact if_pos (Bool.and_eq_true_iff.mp both).1

/-- What lives in the new version either comes or stays. -/
theorem coming_append_staying_perm (ms : List Member) :
    ((ms.filter fun m => !m.inOld && m.inNew) ++ staying ms).Perm (ms.filter Member.inNew) := by
  have split := List.filter_append_perm Member.inOld (ms.filter Member.inNew)
  rw [List.filter_filter, List.filter_filter] at split
  exact List.perm_append_comm.trans split

variable (apart : Apart ms)
include apart

/-- An item is gone when it leaves and nothing comes under its name. -/
theorem isGone_eq {m : Member} (member : m ∈ ms) :
    isGone ms m = (isAlone (coming ms) m.face && (!m.inNew && m.inOld)) := by
  rw [Bool.eq_iff_iff, isGone_iff, Bool.and_eq_true, Bool.and_eq_true, Bool.not_eq_true',
    isAlone_iff]
  constructor
  · rintro ⟨old, vacant⟩
    refine ⟨fun y comes => ?_, ?_, old⟩
    · obtain ⟨other, listed, -, new, rfl⟩ := mem_coming.mp comes
      exact vacant other listed new
    · rw [Bool.eq_false_iff]
      exact fun new => vacant m member new rfl
  · rintro ⟨alone, absent, old⟩
    refine ⟨old, fun y listed new same => ?_⟩
    cases stays : y.inOld with
    | false => exact alone y.face (mem_coming.mpr ⟨y, listed, stays, new, rfl⟩) same
    | true =>
        obtain rfl := eq_of_distinct apart.old listed member stays old same
        rw [new] at absent
        cases absent

theorem redefinitions_of_leaving {x : Member} (member : x ∈ ms) (old : x.inOld = true)
    (left : x.inNew = false) {y : Face} (same : x.name = y.1) :
    ((leaving ms).flatMap fun x => redefinition scope x y) =
      [⟨scope, y.1, .redefined x.form y.2⟩] := by
  have sub : (ms.filter fun m => !m.inNew && m.inOld).Sublist (ms.filter Member.inOld) :=
    List.monotone_filter_right ms fun m both => (Bool.and_eq_true_iff.mp both).2
  have one : (leaving ms).filter (fun x => decide (x.1 = y.1)) = [x.face] := by
    rw [leaving, List.filter_map, ← same]
    exact congrArg (List.map Member.face)
      (filter_of_distinct (apart.old.sublist (sub.map _)) member (by rw [old, left]; rfl))
  refine (flatMap_if (fun x : Face => x.1 = y.1) _ _).trans ?_
  rw [one]
  rfl

/-- What comes is added when nothing leaves under its name, and redefined otherwise. -/
theorem arrival_of_coming {y : Member} (member : y ∈ ms) (new : y.inNew = true)
    (absent : y.inOld = false) :
    arrival scope ms y =
      (if isAlone (leaving ms) y.face then [added scope y.face] else []) ++
        (leaving ms).flatMap fun x => redefinition scope x y.face := by
  rw [arrival, if_neg (Bool.not_eq_true _ ▸ absent)]
  cases found : ms.find? fun other => other.inOld && decide (other.name = y.name) with
  | none =>
      have none : ∀ x ∈ leaving ms, x.1 ≠ y.name := by
        intro x leaves same
        obtain ⟨m, listed, -, old, rfl⟩ := mem_leaving.mp leaves
        have stranger := List.find?_eq_none.mp found m listed
        rw [old, Bool.true_and, decide_eq_true_eq] at stranger
        exact stranger same
      have nothing : ((leaving ms).flatMap fun x => redefinition scope x y.face) = [] :=
        List.flatMap_eq_nil_iff.mpr fun x leaves => if_neg (none x leaves)
      rw [if_pos (isAlone_iff.mpr none), nothing]
      rfl
  | some other =>
      have listed := List.mem_of_find?_eq_some found
      have both := List.find?_some found
      rw [Bool.and_eq_true, decide_eq_true_eq] at both
      obtain ⟨old, same⟩ := both
      have left : other.inNew = false := by
        rw [Bool.eq_false_iff]
        intro stays
        obtain rfl := eq_of_distinct apart.new listed member stays new same
        rw [old] at absent
        cases absent
      have leaves : other.face ∈ leaving ms := mem_leaving.mpr ⟨other, listed, left, old, rfl⟩
      have accompanied : ¬isAlone (leaving ms) y.face = true :=
        fun alone => isAlone_iff.mp alone other.face leaves same
      rw [if_neg accompanied, redefinitions_of_leaving apart listed old left same]
      rfl

theorem removals_eq : (ms.filter (isGone ms)).map (removal scope) =
    ((leaving ms).filter (isAlone (coming ms))).map (removed scope) := by
  rw [List.filter_congr fun m => isGone_eq apart, leaving, List.filter_map, List.filter_filter,
    List.map_map]
  rfl

theorem arrivals_of_coming :
    ((ms.filter fun m => !m.inOld && m.inNew).flatMap (arrival scope ms)).Perm
      (((coming ms).filter (isAlone (leaving ms))).map (added scope) ++
        (coming ms).flatMap fun y => (leaving ms).flatMap fun x => redefinition scope x y) := by
  have each : (ms.filter fun m => !m.inOld && m.inNew).flatMap (arrival scope ms) =
      (coming ms).flatMap fun y => (if isAlone (leaving ms) y then [added scope y] else []) ++
        (leaving ms).flatMap fun x => redefinition scope x y := by
    rw [coming, List.flatMap_map]
    refine List.flatMap_congr fun y member => ?_
    obtain ⟨listed, comes⟩ := List.mem_filter.mp member
    rw [Bool.and_eq_true, Bool.not_eq_true'] at comes
    exact arrival_of_coming apart listed comes.2 comes.1
  have additions : ((coming ms).flatMap fun y =>
      if isAlone (leaving ms) y then [added scope y] else []) =
        ((coming ms).filter (isAlone (leaving ms))).map (added scope) := by
    simpa only [Bool.decide_eq_true] using
      flatMap_if (fun y => isAlone (leaving ms) y = true) (added scope) (coming ms)
  rw [each, ← additions]
  exact (List.flatMap_append_perm _ _ _).symm

/-- The changes of a scope are its turnover and what changes inside of the items that stay. -/
theorem report_perm :
    (report scope ms).Perm
      (turnover scope (leaving ms) (coming ms) ++ (staying ms).flatMap Member.inner) := by
  have arrivals := (coming_append_staying_perm ms).symm.flatMap_right (arrival scope ms)
  rw [List.flatMap_append, arrivals_of_staying] at arrivals
  rw [report, removals_eq apart, turnover, List.append_assoc]
  exact (arrivals.trans ((arrivals_of_coming apart).append_right _)).append_left _

end

/-! ## Scopes seen from both sides -/

structure Member.Mirrors (m m' : Member) : Prop where
  name : m'.name = m.name
  form : m'.form = m.form
  inOld : m'.inOld = m.inNew
  inNew : m'.inNew = m.inOld
  inner : m'.inner.Perm (m.inner.map Change.mirrored)

namespace Member.Mirrors
variable {m m' : Member} (mirrors : m.Mirrors m')
include mirrors

theorem face : m'.face = m.face := congrArg₂ Prod.mk mirrors.name mirrors.form

theorem symm : m'.Mirrors m where
  name := mirrors.name.symm
  form := mirrors.form.symm
  inOld := mirrors.inNew.symm
  inNew := mirrors.inOld.symm
  inner := by
    have undone := (mirrors.inner.map Change.mirrored).symm
    simpa only [List.map_map, Function.comp_def, Change.mirrored_mirrored,
      List.map_id'] using undone

end Member.Mirrors

section
variable {β : Type} {xs : List β} {m m' : β → Member}

theorem leaving_mirrored (mirrors : ∀ x ∈ xs, (m x).Mirrors (m' x)) :
    leaving (xs.map m') = coming (xs.map m) := by
  rw [leaving, coming, List.filter_map, List.filter_map, List.map_map, List.map_map]
  have kept : xs.filter ((fun y => !y.inNew && y.inOld) ∘ m') =
      xs.filter ((fun y => !y.inOld && y.inNew) ∘ m) := by
    refine List.filter_congr fun x member => ?_
    rw [Function.comp, (mirrors x member).inOld, (mirrors x member).inNew]
    rfl
  rw [kept]
  exact List.map_congr_left fun x member => (mirrors x (List.mem_of_mem_filter member)).face

theorem coming_mirrored (mirrors : ∀ x ∈ xs, (m x).Mirrors (m' x)) :
    coming (xs.map m') = leaving (xs.map m) :=
  (leaving_mirrored fun x member => (mirrors x member).symm).symm

theorem staying_mirrored (mirrors : ∀ x ∈ xs, (m x).Mirrors (m' x)) :
    ((staying (xs.map m')).flatMap Member.inner).Perm
      (((staying (xs.map m)).flatMap Member.inner).map Change.mirrored) := by
  rw [staying, staying, List.filter_map, List.filter_map, List.flatMap_map, List.flatMap_map,
    List.map_flatMap]
  have kept : xs.filter ((fun y => y.inOld && y.inNew) ∘ m') =
      xs.filter ((fun y => y.inOld && y.inNew) ∘ m) := by
    refine List.filter_congr fun x member => ?_
    rw [Function.comp, (mirrors x member).inOld, (mirrors x member).inNew, Bool.and_comm]
    rfl
  rw [kept]
  exact List.Perm.flatMap_left _ fun x member => (mirrors x (List.mem_of_mem_filter member)).inner

/-- The changes of a scope in one direction are those in the other direction, undone. -/
theorem report_mirrored (mirrors : ∀ x ∈ xs, (m x).Mirrors (m' x)) (apart : Apart (xs.map m))
    (counterpart : Apart (xs.map m')) :
    (report scope (xs.map m')).Perm ((report scope (xs.map m)).map Change.mirrored) := by
  have back : (report scope (xs.map m')).Perm _ := report_perm counterpart
  have forth : ((report scope (xs.map m)).map Change.mirrored).Perm _ :=
    (report_perm apart).map Change.mirrored
  rw [leaving_mirrored mirrors, coming_mirrored mirrors] at back
  rw [List.map_append] at forth
  exact back.trans (((turnover_mirrored _ _).append (staying_mirrored mirrors)).trans forth.symm)

end
end

/-! ## The scopes of a schema -/

section
variable {old new : Int}

theorem fieldReport_mirrored {owner : Text} {l : Lifetime} {fs : List Field}
    (oldDistinct : ((Field.excerpts old l fs).map Field.name).Nodup)
    (newDistinct : ((Field.excerpts new l fs).map Field.name).Nodup) :
    (fieldReport new old owner l fs).Perm ((fieldReport old new owner l fs).map Change.mirrored) :=
  report_mirrored (fun _ _ => ⟨rfl, rfl, rfl, rfl, .refl _⟩)
    (apart_fieldMembers oldDistinct newDistinct) (apart_fieldMembers newDistinct oldDistinct)

section
variable {d : Decl} (oldDistinct : d.DistinctIn old) (newDistinct : d.DistinctIn new)
include oldDistinct newDistinct

theorem variantReport_mirrored (enumName : Text) :
    (variantReport new old enumName d.lifetime d.variants).Perm
      ((variantReport old new enumName d.lifetime d.variants).map Change.mirrored) := by
  refine report_mirrored (fun v member => ⟨rfl, rfl, rfl, rfl, ?_⟩)
    (apart_variantMembers enumName oldDistinct newDistinct)
    (apart_variantMembers enumName newDistinct oldDistinct)
  exact fieldReport_mirrored (oldDistinct.inner v member) (newDistinct.inner v member)

theorem innerReport_mirrored :
    (innerReport new old d).Perm ((innerReport old new d).map Change.mirrored) := by
  obtain ⟨name, body, header, position⟩ := d
  cases body with
  | record node fs => exact fieldReport_mirrored oldDistinct.fields newDistinct.fields
  | enum vs => exact variantReport_mirrored oldDistinct newDistinct name.shown

end

theorem schemaReport_mirrored {decls : List Decl} (oldDistinct : DistinctIn old decls)
    (newDistinct : DistinctIn new decls) :
    (schemaReport new old decls).Perm ((schemaReport old new decls).map Change.mirrored) := by
  refine report_mirrored (fun d member => ⟨rfl, rfl, rfl, rfl, ?_⟩)
    (apart_typeMembers oldDistinct newDistinct) (apart_typeMembers newDistinct oldDistinct)
  exact innerReport_mirrored (oldDistinct.members d member) (newDistinct.members d member)

end

/-! ## Both directions -/

section
variable {limit old new : Int} {decls : List Decl} {c : Compiled} {before after : Snapshot}

/-- Between any two versions of a compiled schema whose names are texts the changes in one direction
are the changes in the other direction undone: in each of them additions and removals are exchanged
in the kind, the path stays, and the old and the new value change places. -/
theorem diff_mirrored (texts : HasTextNames decls)
    (compiled : Compiled.ofDeclarations limit decls = .ok c)
    (oldExists : c.snapshot? old = .ok before) (newExists : c.snapshot? new = .ok after) :
    ∃ forth back, diff c old new = .ok forth ∧ diff c new old = .ok back ∧
      (back.map rowOf).Perm ((forth.map rowOf).map Row.mirrored) := by
  obtain ⟨accepted, -, shape⟩ := Compiled.ofDeclarations_eq_ok_iff.mp compiled
  rw [← shape] at oldExists newExists
  obtain ⟨oldFirst, oldLast, -⟩ := Compiled.snapshot?_eq_ok_iff.mp oldExists
  obtain ⟨newFirst, newLast, -⟩ := Compiled.snapshot?_eq_ok_iff.mp newExists
  have oldDistinct := distinctIn_of_accepted texts accepted oldFirst oldLast
  have newDistinct := distinctIn_of_accepted texts accepted newFirst newLast
  have forth := diff_eq_ok texts compiled oldFirst oldLast newFirst newLast
  have back := diff_eq_ok texts compiled newFirst newLast oldFirst oldLast
  rw [snapshotChanges_eq texts oldDistinct newDistinct] at forth
  rw [snapshotChanges_eq texts newDistinct oldDistinct] at back
  refine ⟨_, _, forth, back, ?_⟩
  have rows := (schemaReport_mirrored oldDistinct newDistinct).map rowOf
  simpa only [List.map_map, Function.comp_def, rowOf_mirrored] using rows

def prices : List Decl :=
  [⟨.str "Price", .record false
      [⟨.str "amount", .primitive .u32 none, History.removedIn 3, none⟩,
       ⟨.str "amount", .primitive .u64 none, History.addedIn 3, none⟩,
       ⟨.str "unit", .named (.str "Unit") none, History.addedIn 2, none⟩], none, none⟩,
   ⟨.str "Unit", .record false [⟨.str "code", .primitive .str none, none, none⟩],
      some (.adding ⟨2, none⟩ (some ⟨3, none⟩) none), none⟩,
   ⟨.str "Unit", .enum
      [⟨.str "Cent", .int ⟨1, none⟩, none, none⟩,
       ⟨.str "Euro", .int ⟨2, none⟩, History.removedIn 4, none⟩,
       ⟨.str "Euro", .int ⟨100, none⟩, History.addedIn 4, none⟩], History.addedIn 3, none⟩]

def pricesSnapshots : List Snapshot :=
  [⟨1, [⟨0, [.plain 0]⟩]⟩,
   ⟨2, [⟨0, [.plain 0, .plain 2]⟩, ⟨1, [.plain 0]⟩]⟩,
   ⟨3, [⟨0, [.plain 1, .plain 2]⟩, ⟨2, [.plain 0, .plain 1]⟩]⟩,
   ⟨4, [⟨0, [.plain 1, .plain 2]⟩, ⟨2, [.plain 0, .plain 2]⟩]⟩]

/-- On the way back from version 3 to version 1 the amount gets narrower and the unit goes. -/
theorem diff_mirrored_prices :
    ∃ back, diff ⟨prices, pricesSnapshots⟩ 3 1 = .ok back ∧
      (back.map rowOf).Perm
        [⟨"FIELD_REDEFINED", .str "Price.amount", some (.str "u64"), some (.str "u32")⟩,
          ⟨"FIELD_REMOVED", .str "Price.unit", some (.str "Unit"), none⟩,
          ⟨"TYPE_REMOVED", .str "Unit", some (.str "enum"), none⟩] := by
  have texts : HasTextNames prices := by decide
  have compiled : Compiled.ofDeclarations 1024 prices = .ok ⟨prices, pricesSnapshots⟩ := rfl
  have first : Compiled.snapshot? ⟨prices, pricesSnapshots⟩ 1 = .ok (History.layout 1 prices) := by
    rfl
  have third : Compiled.snapshot? ⟨prices, pricesSnapshots⟩ 3 = .ok (History.layout 3 prices) := by
    rfl
  have forward : diff ⟨prices, pricesSnapshots⟩ 1 3 =
      .ok [⟨.field "Price", .str "amount", .redefined (.str "u32") (.str "u64")⟩,
        ⟨.field "Price", .str "unit", .added (.str "Unit")⟩,
        ⟨.type, .str "Unit", .added (.str "enum")⟩] := by rfl
  obtain ⟨forth, back, changes, undone, perm⟩ := diff_mirrored texts compiled first third
  rw [forward] at changes
  cases changes
  exact ⟨back, undone, perm⟩

end
end Upgrade
end SchemaHistory
