import SchemaHistory.History.Basic
import SchemaHistory.Proofs.Lifetime.Interval

/-! # The lifetime that a header gives

`Lifetime.ofHeader` reads the lifetime of an item off its header and its container; an item whose
header is refused lives in no version.  Whatever is given so lies inside its container, and every
version that an accepted header mentions is an end of the lifetime or comes before its end. -/
set_option autoImplicit false
namespace SchemaHistory

def Header.versions (h : Header) : List Int :=
  (h.added.toList ++ h.removed.toList).map Located.value

def mentionedBy (header : Option Header) : List Int := header.toList.flatMap Header.versions

namespace Lifetime

def never : Lifetime := ⟨1, some 1⟩

theorem not_mem_never (version : Int) : version ∉ never := by
  intro inside
  have starts : 1 ≤ version := inside.1
  have ends : version < 1 := inside.2
  omega

/-- The lifetime of an item; an item whose header is refused lives in no version. -/
def ofHeader (header : Option Header) (container : Option Lifetime) : Lifetime :=
  match resolve header container with
  | .ok l => l
  | .error _ => never

theorem ofHeader_of_resolve {header : Option Header} {container : Option Lifetime} {l : Lifetime}
    (resolved : resolve header container = .ok l) : ofHeader header container = l := by
  rw [ofHeader, resolved]

@[simp] theorem ofHeader_none (container : Lifetime) : ofHeader none (some container) = container :=
  rfl

@[simp] theorem ofHeader_top_none : ofHeader none none = unbounded := rfl

theorem mem_ofHeader_iff {header : Option Header} {container : Option Lifetime} {version : Int} :
    version ∈ ofHeader header container ↔
      ∃ l, resolve header container = .ok l ∧ version ∈ l := by
  unfold ofHeader
  cases resolved : resolve header container with
  | ok l => simp
  | error d => simp [not_mem_never]

theorem innerAdded_bounds {container : Lifetime} {added : Option Literal} {a : Int}
    (accepted : innerAdded container added = .ok a) : container.added ≤ a := by
  cases added with
  | none =>
      simp only [innerAdded, Except.ok.injEq] at accepted
      exact le_of_eq accepted
  | some n =>
      simp only [innerAdded] at accepted
      split_ifs at accepted with below outside before
      cases accepted
      exact not_lt.mp outside

theorem innerRemoved_bounds {container : Lifetime} {removed : Option Literal} {a : Int}
    {r : Option Int} (accepted : innerRemoved container a removed = .ok r) :
    EndsBy r container.removed := by
  cases removed with
  | none =>
      simp only [innerRemoved, Except.ok.injEq] at accepted
      exact accepted ▸ endsBy_refl _
  | some n =>
      simp only [innerRemoved] at accepted
      split_ifs at accepted with below early before
      cases accepted
      exact (before_pred_iff _ _).mp before

theorem resolve_subset {header : Option Header} {container l : Lifetime}
    (resolved : resolve header (some container) = .ok l) : l ⊆ container := by
  cases header with
  | none =>
      simp only [resolve, Except.ok.injEq] at resolved
      exact resolved ▸ subset_refl _
  | some h =>
      simp only [resolve, bind_eq_ok_iff, Except.ok.injEq] at resolved
      obtain ⟨a, added, r, removed, rfl⟩ := resolved
      exact subset_of_ends (innerAdded_bounds added) (innerRemoved_bounds removed)

theorem ofHeader_subset (header : Option Header) (container : Lifetime) :
    ofHeader header (some container) ⊆ container := by
  intro version inside
  obtain ⟨l, resolved, member⟩ := mem_ofHeader_iff.mp inside
  exact resolve_subset resolved version member

theorem ofHeader_top (header : Option Header) :
    ofHeader header none = ofHeader header (some unbounded) := by
  cases resolved : resolve header none with
  | ok l =>
      have inner := resolve_top_eq_ok_iff.mp resolved
      rw [ofHeader_of_resolve resolved, ofHeader_of_resolve inner]
  | error d =>
      cases inner : resolve header (some unbounded) with
      | ok l => rw [resolve_top_eq_ok_iff.mpr inner] at resolved; cases resolved
      | error e => simp only [ofHeader, resolved, inner]

/-! ## The limit -/

theorem literalWithin_eq_ok_iff {limit : Int} {n : Option Literal} {u : Unit} :
    literalWithin limit n = .ok u ↔ ∀ m ∈ n.toList.map Located.value, m ≤ limit := by
  cases n with
  | none => simp [literalWithin]
  | some n =>
      simp only [literalWithin, Option.toList_some, List.map_cons, List.map_nil,
        List.mem_singleton, forall_eq]
      split_ifs with above
      · simp [above]
      · simpa using above

theorem within_eq_ok_iff {limit : Int} {header : Option Header} {u : Unit} :
    within limit header = .ok u ↔ ∀ m ∈ mentionedBy header, m ≤ limit := by
  cases header with
  | none => simp [within, mentionedBy]
  | some h =>
      simp only [within, bind_eq_ok_iff, literalWithin_eq_ok_iff, mentionedBy, Header.versions,
        Option.toList_some, List.flatMap_cons, List.flatMap_nil, List.append_nil, List.map_append,
        List.mem_append]
      constructor
      · rintro ⟨-, added, removed⟩ m (member | member)
        · exact added m member
        · exact removed m member
      · intro all
        exact ⟨(), fun m member => all m (.inl member), fun m member => all m (.inr member)⟩

theorem resolveWithin_eq_ok_iff {limit : Int} {header : Option Header}
    {container : Option Lifetime} {l : Lifetime} :
    resolveWithin limit header container = .ok l ↔
      (∀ m ∈ mentionedBy header, m ≤ limit) ∧ resolve header container = .ok l := by
  simp only [resolveWithin, bind_eq_ok_iff, within_eq_ok_iff]
  constructor
  · intro accepted
    rcases accepted with ⟨-, kept, resolved⟩
    exact ⟨kept, resolved⟩
  · intro within
    rcases within with ⟨kept, resolved⟩
    exact ⟨(), kept, resolved⟩

/-! ## How far a lifetime reaches -/

/-- The last version that has to exist for an item: where it ends, or else where it starts. -/
def reach (l : Lifetime) : Int := l.removed.getD l.added

@[simp] theorem reach_unbounded : unbounded.reach = 1 := rfl

theorem added_le_reach {l : Lifetime} (proper : l.Proper) : l.added ≤ l.reach := by
  unfold reach
  cases removed : l.removed with
  | none => simp
  | some m =>
      have after := proper.2
      rw [removed] at after
      exact le_of_lt after

theorem lastNeeded_eq_reach {l : Lifetime} (proper : l.Proper) :
    (History.lastNeeded l : Int) = l.reach := by
  have start : 0 ≤ l.reach := le_trans (by have := proper.1; omega) (added_le_reach proper)
  exact Int.toNat_of_nonneg start

theorem mem_mentionedBy_some {h : Header} {m : Int} :
    m ∈ mentionedBy (some h) ↔
      (∃ n, h.added = some n ∧ n.value = m) ∨ ∃ n, h.removed = some n ∧ n.value = m := by
  simp [mentionedBy, Header.versions]

/-- No end of a lifetime is beyond both what the header mentions and what the container reaches. -/
theorem reach_le {header : Option Header} {container l : Lifetime} {bound : Int}
    (proper : container.Proper) (resolved : resolve header (some container) = .ok l)
    (mentioned : ∀ m ∈ mentionedBy header, m ≤ bound) (outer : container.reach ≤ bound) :
    l.reach ≤ bound := by
  obtain ⟨rfl, own, -⟩ := (resolve_eq_ok_iff proper).mp resolved
  cases header with
  | none => exact outer
  | some h =>
      obtain ⟨added, removed, position, present⟩ := h
      have start :
          (requested (some ⟨added, removed, position, present⟩) container).added ≤ bound := by
        cases added with
        | none =>
            have start : container.added ≤ container.reach := added_le_reach proper
            exact le_trans start outer
        | some n => exact mentioned n.value (mem_mentionedBy_some.mpr (.inl ⟨n, rfl, rfl⟩))
      cases removed with
      | some n => exact mentioned n.value (mem_mentionedBy_some.mpr (.inr ⟨n, rfl, rfl⟩))
      | none =>
          cases ends : container.removed with
          | none => simpa [reach, requested, requestedRemoved, ends] using start
          | some m => simpa [reach, requested, requestedRemoved, ends] using outer

theorem le_reach_of_mentioned {header : Option Header} {container l : Lifetime} {m : Int}
    (proper : container.Proper) (resolved : resolve header (some container) = .ok l)
    (mentioned : m ∈ mentionedBy header) : m ≤ l.reach := by
  obtain ⟨rfl, own, -⟩ := (resolve_eq_ok_iff proper).mp resolved
  cases header with
  | none => simp [mentionedBy] at mentioned
  | some h =>
      rcases mem_mentionedBy_some.mp mentioned with ⟨n, added, rfl⟩ | ⟨n, removed, rfl⟩
      · have start := added_le_reach own
        simpa [requested, requestedAdded, added] using start
      · simp [reach, requested, requestedRemoved, removed]

theorem one_le_of_mentioned {header : Option Header} {container l : Lifetime} {m : Int}
    (proper : container.Proper) (resolved : resolve header (some container) = .ok l)
    (mentioned : m ∈ mentionedBy header) : 1 ≤ m := by
  obtain ⟨rfl, own, -⟩ := (resolve_eq_ok_iff proper).mp resolved
  cases header with
  | none => simp [mentionedBy] at mentioned
  | some h =>
      rcases mem_mentionedBy_some.mp mentioned with ⟨n, added, rfl⟩ | ⟨n, removed, rfl⟩
      · simpa [requested, requestedAdded, added] using own.1
      · have ends : (requested (some h) container).added < n.value := by
          simpa [requested, requestedRemoved, removed, Before] using own.2
        have starts := own.1
        omega

end Lifetime
end SchemaHistory
