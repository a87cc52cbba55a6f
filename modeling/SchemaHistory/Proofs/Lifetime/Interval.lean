import Mathlib.Order.Lattice
import SchemaHistory.Lifetime.Basic
import SchemaHistory.Proofs.Results

/-! # The interval law of lifetimes

A header asks for an interval of versions: from its own `add`, or else from where its container
starts, up to its own `rem`, or else up to where its container ends.  In a proper container the
header is accepted exactly when the interval has a version and lies inside the container, and then
the interval is the lifetime (`resolve_eq_ok_iff`).  A type is resolved like an item of the
container `unbounded` (`resolve_top_eq_ok_iff`). -/
set_option autoImplicit false
namespace SchemaHistory

namespace Lifetime

def Proper (l : Lifetime) : Prop := 1 ≤ l.added ∧ Before l.added l.removed

instance : HasSubset Lifetime :=
  ⟨fun inner outer => ∀ version : Int, version ∈ inner → version ∈ outer⟩

theorem subset_refl (l : Lifetime) : l ⊆ l := fun _ inside => inside

theorem proper_unbounded : unbounded.Proper := ⟨le_refl 1, trivial⟩

theorem added_mem {l : Lifetime} (proper : l.Proper) : l.added ∈ l := ⟨le_refl _, proper.2⟩

/-- Where an end of a lifetime stands, `none` being the farthest. -/
def EndsBy (removed : Option Int) : Option Int → Prop
  | none => True
  | some bound => ∃ m, removed = some m ∧ m ≤ bound

theorem endsBy_refl (removed : Option Int) : EndsBy removed removed := by
  cases removed with
  | none => trivial
  | some m => exact ⟨m, rfl, le_refl m⟩

theorem before_of_endsBy {version : Int} {removed bound : Option Int} (ends : EndsBy removed bound)
    (before : Before version removed) : Before version bound := by
  cases bound with
  | none => trivial
  | some b =>
      obtain ⟨m, rfl, le⟩ := ends
      exact lt_of_lt_of_le before le

theorem subset_of_ends {inner outer : Lifetime} (starts : outer.added ≤ inner.added)
    (ends : EndsBy inner.removed outer.removed) : inner ⊆ outer := by
  intro version inside
  exact ⟨le_trans starts inside.1, before_of_endsBy ends inside.2⟩

theorem subset_iff {inner outer : Lifetime} (proper : inner.Proper) :
    inner ⊆ outer ↔ outer.added ≤ inner.added ∧ EndsBy inner.removed outer.removed := by
  constructor
  · intro inside
    have first := inside inner.added (added_mem proper)
    refine ⟨first.1, ?_⟩
    cases bound : outer.removed with
    | none => trivial
    | some b =>
        cases removed : inner.removed with
        | none =>
            -- the version `max inner.added b` would still be inside
            have late : max inner.added b ∈ inner := ⟨le_max_left _ _, by rw [removed]; trivial⟩
            have early := (inside _ late).2
            rw [bound] at early
            exact absurd early (not_lt.mpr (le_max_right _ _))
        | some m =>
            have proper := proper.2
            rw [removed] at proper
            have last : m - 1 ∈ inner := by
              refine ⟨Int.le_sub_one_of_lt proper, ?_⟩
              rw [removed]
              exact Int.sub_one_lt_of_le (le_refl m)
            have early := (inside _ last).2
            rw [bound] at early
            exact ⟨m, rfl, Int.le_of_sub_one_lt early⟩
  · intro ends
    exact subset_of_ends ends.1 ends.2

/-! ## What a header asks for -/

def requestedAdded (container : Lifetime) (added : Option Literal) : Int :=
  (added.map Located.value).getD container.added

def requestedRemoved (container : Lifetime) (removed : Option Literal) : Option Int :=
  (removed.map Located.value).or container.removed

def requested (header : Option Header) (container : Lifetime) : Lifetime :=
  ⟨requestedAdded container (header.bind Header.added),
    requestedRemoved container (header.bind Header.removed)⟩

@[simp] theorem requested_none (container : Lifetime) : requested none container = container := rfl

theorem innerAdded_eq_ok_iff {container : Lifetime} {added : Option Literal} {a : Int}
    (proper : container.Proper) :
    innerAdded container added = .ok a ↔
      a = requestedAdded container added ∧ container.added ≤ a ∧ Before a container.removed := by
  cases added with
  | none =>
      simp only [innerAdded, requestedAdded, Option.map_none, Option.getD_none, Except.ok.injEq]
      constructor
      · rintro rfl
        exact ⟨rfl, le_refl _, proper.2⟩
      · intro bounds
        rcases bounds with ⟨rfl, -, -⟩
        rfl
  | some n =>
      have start := proper.1
      simp only [innerAdded, requestedAdded, Option.map_some, Option.getD_some]
      split_ifs with below outside before
      · simp only [false_iff]
        omega
      · simp only [false_iff]
        omega
      · simp only [Except.ok.injEq]
        constructor
        · rintro rfl
          exact ⟨rfl, not_lt.mp outside, before⟩
        · exact fun asked => asked.1.symm
      · simp only [false_iff]
        intro bounds
        rcases bounds with ⟨rfl, -, inside⟩
        exact before inside

theorem before_pred_iff (n : Int) (removed : Option Int) :
    Before (n - 1) removed ↔ EndsBy (some n) removed := by
  cases removed with
  | none => simp [Before, EndsBy]
  | some m =>
      simp only [Before, EndsBy, Option.some.injEq, exists_eq_left']
      omega

theorem innerRemoved_eq_ok_iff {container : Lifetime} {removed : Option Literal} {a : Int}
    {r : Option Int} (start : 1 ≤ a) (inside : Before a container.removed) :
    innerRemoved container a removed = .ok r ↔
      r = requestedRemoved container removed ∧ Before a r ∧ EndsBy r container.removed := by
  cases removed with
  | none =>
      simp only [innerRemoved, requestedRemoved, Option.map_none, Option.none_or, Except.ok.injEq]
      constructor
      · rintro rfl
        exact ⟨rfl, inside, endsBy_refl _⟩
      · exact fun asked => asked.1.symm
  | some n =>
      simp only [innerRemoved, requestedRemoved, Option.map_some, Option.some_or]
      split_ifs with below early before
      · simp only [false_iff]
        intro bounds
        rcases bounds with ⟨rfl, after, -⟩
        simp only [Before] at after
        omega
      · simp only [false_iff]
        intro bounds
        rcases bounds with ⟨rfl, after, -⟩
        exact absurd early (not_le.mpr after)
      · simp only [Except.ok.injEq]
        constructor
        · rintro rfl
          exact ⟨rfl, not_le.mp early, (before_pred_iff _ _).mp before⟩
        · exact fun asked => asked.1.symm
      · simp only [false_iff]
        intro bounds
        rcases bounds with ⟨rfl, -, ends⟩
        exact before ((before_pred_iff _ _).mpr ends)

/-- In a proper container a header is accepted when the interval it asks for has a version and lies
inside the container. -/
theorem resolve_eq_ok_iff {header : Option Header} {container l : Lifetime}
    (proper : container.Proper) :
    resolve header (some container) = .ok l ↔
      l = requested header container ∧ l.Proper ∧ l ⊆ container := by
  cases header with
  | none =>
      simp only [resolve, requested_none, Except.ok.injEq]
      constructor
      · rintro rfl
        exact ⟨rfl, proper, subset_refl _⟩
      · exact fun asked => asked.1.symm
  | some h =>
      simp only [resolve, bind_eq_ok_iff, innerAdded_eq_ok_iff proper, Except.ok.injEq]
      constructor
      · intro resolved
        rcases resolved with ⟨a, ⟨asked, starts, inside⟩, r, removed, rfl⟩
        have start : 1 ≤ a := le_trans proper.1 starts
        obtain ⟨rfl, after, ends⟩ := (innerRemoved_eq_ok_iff start inside).mp removed
        subst asked
        exact ⟨rfl, ⟨start, after⟩, subset_of_ends starts ends⟩
      · intro accepted
        rcases accepted with ⟨asked, own, inside⟩
        obtain ⟨starts, ends⟩ := (subset_iff own).mp inside
        have bounded : Before l.added container.removed := before_of_endsBy ends own.2
        refine ⟨l.added, ⟨congrArg Lifetime.added asked, starts, bounded⟩, l.removed, ?_, rfl⟩
        exact (innerRemoved_eq_ok_iff own.1 bounded).mpr
          ⟨congrArg Lifetime.removed asked, own.2, ends⟩

theorem topAdded_eq_ok_iff {added : Option Literal} {a : Int} :
    topAdded added = .ok a ↔ innerAdded unbounded added = .ok a := by
  cases added with
  | none => rfl
  | some n =>
      by_cases below : n.value < 1
      · simp [topAdded, innerAdded, below]
      · simp [topAdded, innerAdded, below, unbounded, Before]

theorem topRemoved_eq_ok_iff {removed : Option Literal} {a : Int} {r : Option Int}
    (start : 1 ≤ a) :
    topRemoved a removed = .ok r ↔ innerRemoved unbounded a removed = .ok r := by
  cases removed with
  | none => rfl
  | some n =>
      by_cases early : n.value ≤ a
      · simp only [topRemoved, innerRemoved, early, if_true]
        split_ifs <;> simp
      · have large : ¬ n.value < 2 := by omega
        simp [topRemoved, innerRemoved, early, large, unbounded, Before]

/-- A type is resolved like an item of a container that lives in all versions. -/
theorem resolve_top_eq_ok_iff {header : Option Header} {l : Lifetime} :
    resolve header none = .ok l ↔ resolve header (some unbounded) = .ok l := by
  cases header with
  | none => rfl
  | some h =>
      simp only [resolve, bind_eq_ok_iff, topAdded_eq_ok_iff]
      refine exists_congr fun a => and_congr_right fun added => ?_
      have start : 1 ≤ a := ((innerAdded_eq_ok_iff proper_unbounded).mp added).2.1
      simp only [topRemoved_eq_ok_iff start]

end Lifetime
end SchemaHistory
