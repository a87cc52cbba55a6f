import SchemaHistory.Proofs.Upgrade.Lifetimes
import SchemaHistory.Proofs.Upgrade.Mirrored

/-! # Upgrades in several steps

An upgrade asks that whatever lives in the old version lives in the new one.  So upgrades that pass
can be put together along any versions, and since every lifetime is an interval an upgrade that
passes can also be left half-way, in either direction.  A schema that cannot be upgraded from one
version to a later one fails at a single step from a version to the next (`upgrades_compose`). -/
set_option autoImplicit false
namespace SchemaHistory

theorem Lifetime.mem_of_between {l : Lifetime} {old new version : Int} (before : old ∈ l)
    (after : new ∈ l) (low : min old new ≤ version) (high : version ≤ max old new) :
    version ∈ l := by
  rw [mem_iff] at before after ⊢
  refine ⟨le_trans (le_min before.1 after.1) low, fun removed ends => ?_⟩
  exact lt_of_le_of_lt high (max_lt (before.2 removed ends) (after.2 removed ends))

namespace Upgrade

/-! ## What stays -/

section
variable {old middle new : Int} {decls : List Decl}

instance : Decidable (Covers old new decls) :=
  inferInstanceAs (Decidable (∀ item ∈ items decls, old ∈ item.lifetime → new ∈ item.lifetime))

theorem covers_refl (version : Int) (decls : List Decl) : Covers version version decls :=
  fun _ _ lives => lives

theorem Covers.trans (first : Covers old middle decls) (later : Covers middle new decls) :
    Covers old new decls :=
  fun item member lives => later item member (first item member lives)

theorem Covers.halfway (all : Covers old new decls) (low : min old new ≤ middle)
    (high : middle ≤ max old new) : Covers old middle decls :=
  fun item member lives => Lifetime.mem_of_between lives (all item member lives) low high

/-- Along a sequence of versions in which every step keeps what lives there, the whole way does. -/
theorem covers_of_steps {k : Nat} {v : Nat → Int}
    (steps : ∀ i < k, Covers (v i) (v (i + 1)) decls) : Covers (v 0) (v k) decls := by
  induction k with
  | zero => exact covers_refl (v 0) decls
  | succ k ih =>
      have front := ih fun i less => steps i (Nat.lt_succ_of_lt less)
      exact front.trans (steps k (Nat.lt_succ_self k))

end

/-! ## Checks -/

def HasVersion (c : Compiled) (version : Int) : Prop := ∃ s, c.snapshot? version = .ok s

def CanUpgrade (c : Compiled) (old new : Int) : Prop := ∃ changes, check c old new = .ok changes

def Breaks (c : Compiled) (old new : Int) : Prop :=
  ∃ breaking, check c old new = .error (.breaking breaking)

section
variable {limit old middle new : Int} {decls : List Decl} {c : Compiled}

theorem hasVersion_iff (compiled : Compiled.ofDeclarations limit decls = .ok c) {version : Int} :
    HasVersion c version ↔ 1 ≤ version ∧ version ≤ lastVersion decls := by
  obtain ⟨-, -, rfl⟩ := Compiled.ofDeclarations_eq_ok_iff.mp compiled
  constructor
  · rintro ⟨s, found⟩
    obtain ⟨first, last, -⟩ := Compiled.snapshot?_eq_ok_iff.mp found
    exact ⟨first, last⟩
  · rintro ⟨first, last⟩
    exact ⟨_, Compiled.snapshot?_eq_ok_iff.mpr ⟨first, last, rfl⟩⟩

theorem HasVersion.between (compiled : Compiled.ofDeclarations limit decls = .ok c)
    (oldExists : HasVersion c old) (newExists : HasVersion c new) (low : min old new ≤ middle)
    (high : middle ≤ max old new) : HasVersion c middle := by
  rw [hasVersion_iff compiled] at oldExists newExists ⊢
  exact ⟨le_trans (le_min oldExists.1 newExists.1) low,
    le_trans high (max_le oldExists.2 newExists.2)⟩

section
variable (texts : HasTextNames decls) (compiled : Compiled.ofDeclarations limit decls = .ok c)
include texts compiled

theorem canUpgrade_iff (oldExists : HasVersion c old) (newExists : HasVersion c new) :
    CanUpgrade c old new ↔ Covers old new decls := by
  obtain ⟨oldFirst, oldLast⟩ := (hasVersion_iff compiled).mp oldExists
  obtain ⟨newFirst, newLast⟩ := (hasVersion_iff compiled).mp newExists
  exact check_isOk_iff texts compiled oldFirst oldLast newFirst newLast

theorem breaks_iff (oldExists : HasVersion c old) (newExists : HasVersion c new) :
    Breaks c old new ↔ ¬CanUpgrade c old new := by
  obtain ⟨oldFirst, oldLast⟩ := (hasVersion_iff compiled).mp oldExists
  obtain ⟨newFirst, newLast⟩ := (hasVersion_iff compiled).mp newExists
  exact check_breaking_iff texts compiled oldFirst oldLast newFirst newLast

theorem CanUpgrade.halfway (whole : CanUpgrade c old new) (oldExists : HasVersion c old)
    (newExists : HasVersion c new) (low : min old new ≤ middle) (high : middle ≤ max old new) :
    CanUpgrade c old middle := by
  have middleExists := oldExists.between compiled newExists low high
  have all := (canUpgrade_iff texts compiled oldExists newExists).mp whole
  exact (canUpgrade_iff texts compiled oldExists middleExists).mpr (all.halfway low high)

/-- Safe upgrades along a sequence of versions are safe as one. -/
theorem canUpgrade_of_steps {k : Nat} {v : Nat → Int} (exist : ∀ i ≤ k, HasVersion c (v i))
    (steps : ∀ i < k, CanUpgrade c (v i) (v (i + 1))) : CanUpgrade c (v 0) (v k) := by
  refine (canUpgrade_iff texts compiled (exist 0 (Nat.zero_le k)) (exist k (le_refl k))).mpr ?_
  refine covers_of_steps fun i less => ?_
  exact (canUpgrade_iff texts compiled (exist i less.le) (exist (i + 1) less)).mp (steps i less)

/-- If no single step broke, the way along all of them would be safe. -/
theorem exists_breaking_step (oldExists : HasVersion c old) (newExists : HasVersion c new)
    (lt : old < new) (breaks : Breaks c old new) : ∃ v, old ≤ v ∧ v < new ∧ Breaks c v (v + 1) := by
  have notWhole := (breaks_iff texts compiled oldExists newExists).mp breaks
  by_contra none
  refine notWhole ?_
  obtain ⟨k, rfl⟩ := Int.le.dest lt.le
  have exist (i : Nat) (le : i ≤ k) : HasVersion c (old + i) :=
    oldExists.between compiled newExists (by omega) (by omega)
  have steps (i : Nat) (less : i < k) : CanUpgrade c (old + i) (old + (i + 1 : Nat)) := by
    by_contra broken
    refine none ⟨old + i, by omega, by omega, ?_⟩
    rw [show old + i + 1 = old + (i + 1 : Nat) by omega]
    exact (breaks_iff texts compiled (exist i less.le) (exist (i + 1) less)).mpr broken
  have whole := canUpgrade_of_steps texts compiled (v := fun i => old + i) exist steps
  rwa [Int.natCast_zero, Int.add_zero] at whole

end

/-- Upgrades of a compiled schema compose. -/
theorem upgrades_compose (texts : HasTextNames decls)
    (compiled : Compiled.ofDeclarations limit decls = .ok c) :
    (∀ (k : Nat) (v : Nat → Int), (∀ i ≤ k, HasVersion c (v i)) →
      (∀ i < k, CanUpgrade c (v i) (v (i + 1))) → CanUpgrade c (v 0) (v k)) ∧
    (∀ old middle new, HasVersion c old → HasVersion c new →
      min old new ≤ middle → middle ≤ max old new →
      CanUpgrade c old new → CanUpgrade c old middle) ∧
    ∀ old new, HasVersion c old → HasVersion c new → old < new →
      Breaks c old new → ∃ v, old ≤ v ∧ v < new ∧ Breaks c v (v + 1) := by
  refine ⟨fun k v exist steps => canUpgrade_of_steps texts compiled exist steps, ?_, ?_⟩
  · intro old middle new oldExists newExists low high whole
    exact whole.halfway texts compiled oldExists newExists low high
  · intro old new oldExists newExists lt breaks
    exact exists_breaking_step texts compiled oldExists newExists lt breaks

/-- The prices cannot be upgraded from the first version to the fourth; one of the steps breaks, but
not the first. -/
theorem upgrades_compose_prices :
    CanUpgrade ⟨prices, pricesSnapshots⟩ 1 2 ∧ Breaks ⟨prices, pricesSnapshots⟩ 1 4 ∧
    ∃ v, 1 ≤ v ∧ v < 4 ∧ Breaks ⟨prices, pricesSnapshots⟩ v (v + 1) := by
  have texts : HasTextNames prices := by decide
  have compiled : Compiled.ofDeclarations 1024 prices = .ok ⟨prices, pricesSnapshots⟩ := rfl
  have exist (version : Int) (within : 1 ≤ version ∧ version ≤ 4) :
      HasVersion ⟨prices, pricesSnapshots⟩ version := (hasVersion_iff compiled).mpr within
  have one := exist 1 (by decide)
  have two := exist 2 (by decide)
  have four := exist 4 (by decide)
  have breaks : Breaks ⟨prices, pricesSnapshots⟩ 1 4 := by
    rw [breaks_iff texts compiled one four, canUpgrade_iff texts compiled one four]
    decide
  refine ⟨(canUpgrade_iff texts compiled one two).mpr (by decide), breaks, ?_⟩
  exact (upgrades_compose texts compiled).2.2 1 4 one four (by decide) breaks

end
end Upgrade
end SchemaHistory
