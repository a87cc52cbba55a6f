import Mathlib.Order.Lattice
import SchemaHistory.Lifetime.Siblings
import SchemaHistory.Proofs.Json.Keys
import SchemaHistory.Proofs.Lifetime.OfHeader

/-! # Siblings and the versions that they share

The rule on names looks at headers and at the ends of two lifetimes.  For siblings that live in one
container it amounts to the question whether some version belongs to both lifetimes
(`disjoint_iff`); if one does, then so does the version in which the later of the two is added.
`Siblings.Admits` is what adding items one after the other asks for. -/
set_option autoImplicit false
namespace SchemaHistory

namespace Lifetime

def firstCommon (l m : Lifetime) : Int := max l.added m.added

theorem before_of_le {version later : Int} {removed : Option Int} (le : version ≤ later)
    (before : Before later removed) : Before version removed := by
  cases removed with
  | none => trivial
  | some m => exact lt_of_le_of_lt le before

theorem firstCommon_mem {l m : Lifetime} {version : Int} (left : version ∈ l)
    (right : version ∈ m) : firstCommon l m ∈ l ∧ firstCommon l m ∈ m := by
  have early : firstCommon l m ≤ version := max_le left.1 right.1
  exact ⟨⟨le_max_left _ _, before_of_le early left.2⟩,
    ⟨le_max_right _ _, before_of_le early right.2⟩⟩

theorem added_mem_of_le {first later : Lifetime} (le : first.added ≤ later.added)
    (ends : Sibling.endsBefore first later = false) : later.added ∈ first := by
  refine ⟨le, ?_⟩
  unfold Sibling.endsBefore at ends
  cases removed : first.removed with
  | none => trivial
  | some m =>
      rw [removed] at ends
      exact not_le.mp (of_decide_eq_false ends)

theorem not_mem_of_endsBefore {first later : Lifetime} {version : Int}
    (ends : Sibling.endsBefore first later = true) (inside : version ∈ first) :
    version ∉ later := by
  intro member
  have before := inside.2
  unfold Sibling.endsBefore at ends
  cases removed : first.removed with
  | none => rw [removed] at ends; cases ends
  | some m =>
      rw [removed] at ends before
      have ended : m ≤ later.added := of_decide_eq_true ends
      exact absurd before (not_lt.mpr (le_trans ended member.1))

end Lifetime

namespace Sibling

structure AtHome (container : Lifetime) (s : Sibling) : Prop where
  proper : s.lifetime.Proper
  inside : s.lifetime ⊆ container
  whole : s.hasHeader = false → s.lifetime = container

theorem not_mem_of_disjoint {left right : Sibling} {version : Int}
    (disjoint : left.disjoint right = true) (inside : version ∈ left.lifetime) :
    version ∉ right.lifetime := by
  unfold Sibling.disjoint at disjoint
  split_ifs at disjoint with headers same before
  · exact Lifetime.not_mem_of_endsBefore disjoint inside
  · intro member
    exact Lifetime.not_mem_of_endsBefore disjoint member inside

/-- Siblings in one container that do not count as disjoint share a version. -/
theorem share_of_not_disjoint {container : Lifetime} {left right : Sibling}
    (leftHome : left.AtHome container) (rightHome : right.AtHome container)
    (meet : left.disjoint right = false) :
    ∃ version, version ∈ left.lifetime ∧ version ∈ right.lifetime := by
  have leftStart := Lifetime.added_mem leftHome.proper
  have rightStart := Lifetime.added_mem rightHome.proper
  unfold Sibling.disjoint at meet
  split_ifs at meet with headers same before
  · -- an item without a header lives as long as the container of both
    rcases Bool.or_eq_true_iff.mp headers with left | right
    · have whole := leftHome.whole (by simpa using left)
      exact ⟨_, whole ▸ rightHome.inside _ rightStart, rightStart⟩
    · have whole := rightHome.whole (by simpa using right)
      exact ⟨_, leftStart, whole ▸ leftHome.inside _ leftStart⟩
  · exact ⟨_, leftStart, same ▸ rightStart⟩
  · exact ⟨_, Lifetime.added_mem_of_le (le_of_lt before) meet, rightStart⟩
  · exact ⟨_, leftStart, Lifetime.added_mem_of_le (not_lt.mp before) meet⟩

/-- For siblings in one container the rule on headers and ends says that no version is shared. -/
theorem disjoint_iff {container : Lifetime} {left right : Sibling}
    (leftHome : left.AtHome container) (rightHome : right.AtHome container) :
    left.disjoint right = true ↔ ∀ version, version ∈ left.lifetime → version ∉ right.lifetime := by
  constructor
  · intro disjoint version inside
    exact not_mem_of_disjoint disjoint inside
  · intro apart
    by_contra meet
    obtain ⟨version, inside, member⟩ :=
      share_of_not_disjoint leftHome rightHome (Bool.eq_false_iff.mpr meet)
    exact apart version inside member

theorem disjoint_comm (a b : Sibling) : a.disjoint b = b.disjoint a := by
  unfold Sibling.disjoint
  rw [Bool.or_comm]
  rcases lt_trichotomy a.lifetime.added b.lifetime.added with before | same | after
  · rw [if_neg before.ne, if_pos before, if_neg before.ne', if_neg before.asymm]
  · rw [if_pos same, if_pos same.symm]
  · rw [if_neg after.ne', if_neg after.asymm, if_neg after.ne, if_pos after]

theorem clashes_comm (a b : Sibling) : a.clashes b = b.clashes a := by
  rw [clashes, clashes, Json.equals_comm, disjoint_comm]

end Sibling

namespace Siblings

theorem add_eq_ok_iff {siblings after : Siblings} {item : Sibling} :
    siblings.add item = .ok after ↔
      (∀ earlier ∈ siblings, earlier.clashes item = false) ∧ siblings ++ [item] = after := by
  unfold Siblings.add
  split_ifs with clash
  · obtain ⟨earlier, member, clashes⟩ := List.any_eq_true.mp clash
    simp only [false_iff, not_and]
    intro free
    rw [free earlier member] at clashes
    cases clashes
  · simp only [Except.ok.injEq]
    refine (and_iff_right ?_).symm
    intro earlier member
    rw [Bool.eq_false_iff]
    exact fun clashes => clash (List.any_eq_true.mpr ⟨earlier, member, clashes⟩)

/-- No item clashes with one in front of it. -/
def Apart (items : List Sibling) : Prop :=
  items.Pairwise fun earlier item => earlier.clashes item = false

theorem Apart.perm {items others : List Sibling} (apart : Apart items)
    (perm : items.Perm others) : Apart others :=
  (perm.pairwise_iff fun {a b} free => (Sibling.clashes_comm b a).trans free).mp apart

def Admits (siblings : Siblings) (items : List Sibling) : Prop :=
  (∀ earlier ∈ siblings, ∀ item ∈ items, earlier.clashes item = false) ∧ Apart items

@[simp] theorem admits_none (siblings : Siblings) : Admits siblings [] :=
  ⟨fun _ _ _ member => absurd member List.not_mem_nil, List.Pairwise.nil⟩

@[simp] theorem nil_admits {items : List Sibling} : Admits [] items ↔ Apart items := by
  simp [Admits]

theorem admits_cons {siblings : Siblings} {item : Sibling} {items : List Sibling} :
    Admits siblings (item :: items) ↔
      (∀ earlier ∈ siblings, earlier.clashes item = false) ∧ Admits (siblings ++ [item]) items := by
  simp only [Admits, Apart, List.pairwise_cons, List.mem_append, List.mem_singleton,
    List.forall_mem_cons]
  constructor
  · intro admits
    rcases admits with ⟨before, own, rest⟩
    refine ⟨fun earlier member => (before earlier member).1, ?_, rest⟩
    rintro earlier (member | rfl)
    · exact (before earlier member).2
    · exact own
  · intro admits
    rcases admits with ⟨first, before, rest⟩
    exact ⟨fun earlier member => ⟨first earlier member, before earlier (.inl member)⟩,
      before item (.inr rfl), rest⟩

/-! ## Names in each version -/

def Unlike (names : List Json) : Prop := names.Pairwise fun a b => Json.equals a b = false

def livingNames (version : Int) (siblings : List Sibling) : List Json :=
  (siblings.filter fun s => decide (version ∈ s.lifetime)).map Sibling.name

theorem unlike_livingNames_iff {version : Int} {siblings : List Sibling} :
    Unlike (livingNames version siblings) ↔ siblings.Pairwise fun a b =>
      version ∈ a.lifetime → version ∈ b.lifetime → Json.equals a.name b.name = false := by
  simp only [Unlike, livingNames, List.pairwise_map, List.pairwise_filter, decide_eq_true_eq]

/-- In no version do siblings that do not clash share a name. -/
theorem Apart.unlike {siblings : List Sibling} (apart : Apart siblings) (version : Int) :
    Unlike (livingNames version siblings) := by
  rw [unlike_livingNames_iff]
  refine apart.imp ?_
  intro a b free left right
  simp only [Sibling.clashes, Bool.and_eq_false_iff, Bool.not_eq_false'] at free
  rcases free with unlike | disjoint
  · exact unlike
  · exact absurd right (Sibling.not_mem_of_disjoint disjoint left)

/-- Siblings that never share a name do not clash, whatever their lifetimes are. -/
theorem apart_of_names {siblings : List Sibling} (unlike : Unlike (siblings.map Sibling.name)) :
    Apart siblings := by
  refine (List.pairwise_map.mp unlike).imp ?_
  intro a b differ
  rw [Sibling.clashes, differ, Bool.false_and]

/-- Siblings in one container clash only if they share their name in some version, and in one up to
the last one that adds any of them. -/
theorem apart_of_unlike {container : Lifetime} {last : Int} {siblings : List Sibling}
    (home : ∀ s ∈ siblings, s.AtHome container) (added : ∀ s ∈ siblings, s.lifetime.added ≤ last)
    (unlike : ∀ version, 1 ≤ version → version ≤ last → Unlike (livingNames version siblings)) :
    Apart siblings := by
  have each : siblings.Pairwise fun a b => ∀ version, 1 ≤ version → version ≤ last →
      version ∈ a.lifetime → version ∈ b.lifetime → Json.equals a.name b.name = false := by
    rw [List.pairwise_iff_getElem]
    intro i j hi hj before version first final
    have pairs := unlike_livingNames_iff.mp (unlike version first final)
    exact List.pairwise_iff_getElem.mp pairs i j hi hj before
  refine each.imp_of_mem ?_
  intro a b inA inB apart
  simp only [Sibling.clashes, Bool.and_eq_false_iff, Bool.not_eq_false']
  by_cases disjoint : a.disjoint b = true
  · exact .inr disjoint
  · have meet := Sibling.share_of_not_disjoint (home a inA) (home b inB)
      (Bool.eq_false_iff.mpr disjoint)
    obtain ⟨version, left, right⟩ := meet
    obtain ⟨left, right⟩ := Lifetime.firstCommon_mem left right
    have first : 1 ≤ Lifetime.firstCommon a.lifetime b.lifetime :=
      le_trans (home a inA).proper.1 (le_max_left _ _)
    have final : Lifetime.firstCommon a.lifetime b.lifetime ≤ last :=
      max_le (added a inA) (added b inB)
    exact .inl (apart _ first final left right)

end Siblings
end SchemaHistory
