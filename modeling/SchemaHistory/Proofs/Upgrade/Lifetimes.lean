import SchemaHistory.Proofs.Upgrade.Verdict

/-! # Upgrades read off the lifetimes

Whether an upgrade is safe can be read off the headers of a schema.  Towards a later version the
only thing that an item of the old version can do is to be removed on the way, and towards an
earlier one the only thing is to have been added after it (`upgrade_iff_lifetimes`). -/
set_option autoImplicit false
namespace SchemaHistory

namespace Lifetime
variable {l : Lifetime} {old new : Int}

/-- Going forward, what lives now is there later unless it is removed by then. -/
theorem stays_iff_of_le (le : old ≤ new) :
    (old ∈ l → new ∈ l) ↔ ¬(old ∈ l ∧ ∃ removed, l.removed = some removed ∧ removed ≤ new) := by
  constructor
  · intro stays
    rintro ⟨lives, removed, ends, early⟩
    have before := (mem_iff.mp (stays lives)).2 removed ends
    exact absurd early (not_le.mpr before)
  · intro kept lives
    have starts := (mem_iff.mp lives).1
    refine mem_iff.mpr ⟨le_trans starts le, fun removed ends => ?_⟩
    by_contra early
    exact kept ⟨lives, removed, ends, not_lt.mp early⟩

/-- Going back, what lives now was there before unless it was added since. -/
theorem stays_iff_of_lt (lt : new < old) :
    (old ∈ l → new ∈ l) ↔ ¬(old ∈ l ∧ new < l.added) := by
  constructor
  · intro stays
    rintro ⟨lives, late⟩
    have starts := (mem_iff.mp (stays lives)).1
    exact absurd late (not_lt.mpr starts)
  · intro kept lives
    refine mem_iff.mpr ⟨?_, fun removed ends => ?_⟩
    · by_contra late
      exact kept ⟨lives, not_le.mp late⟩
    · exact lt_trans lt ((mem_iff.mp lives).2 removed ends)

end Lifetime

namespace Upgrade
variable {limit old new : Int} {decls : List Decl} {c : Compiled}

theorem covers_iff_of_le (le : old ≤ new) :
    Covers old new decls ↔ ¬∃ item ∈ items decls, old ∈ item.lifetime ∧
      ∃ removed, item.lifetime.removed = some removed ∧ removed ≤ new := by
  simp only [Covers, Lifetime.stays_iff_of_le le, not_exists, not_and]

theorem covers_iff_of_lt (lt : new < old) :
    Covers old new decls ↔
      ¬∃ item ∈ items decls, old ∈ item.lifetime ∧ new < item.lifetime.added := by
  simp only [Covers, Lifetime.stays_iff_of_lt lt, not_exists, not_and]

/-- An upgrade is never refused for any other reason than breaking changes. -/
theorem check_breaking_iff (texts : HasTextNames decls)
    (compiled : Compiled.ofDeclarations limit decls = .ok c) (oldFirst : 1 ≤ old)
    (oldLast : old ≤ lastVersion decls) (newFirst : 1 ≤ new) (newLast : new ≤ lastVersion decls) :
    (∃ breaking, check c old new = .error (.breaking breaking)) ↔
      ¬∃ changes, check c old new = .ok changes := by
  have changes := diff_eq_ok texts compiled oldFirst oldLast newFirst newLast
  rw [check, changes]
  dsimp only
  split_ifs <;> simp

/-- The verdict on an upgrade between two versions of a compiled schema whose names are texts: it is
safe exactly when whatever lives in the old version lives in the new one, that is when nothing of
the old version is removed up to a later one, or was added after an earlier one. -/
theorem upgrade_iff_lifetimes {before after : Snapshot} (texts : HasTextNames decls)
    (compiled : Compiled.ofDeclarations limit decls = .ok c)
    (oldExists : c.snapshot? old = .ok before) (newExists : c.snapshot? new = .ok after) :
    ((∃ changes, check c old new = .ok changes) ↔
      ∀ item ∈ items decls, old ∈ item.lifetime → new ∈ item.lifetime) ∧
    ((∃ breaking, check c old new = .error (.breaking breaking)) ↔
      ¬∃ changes, check c old new = .ok changes) ∧
    (old ≤ new → ((∃ changes, check c old new = .ok changes) ↔
      ¬∃ item ∈ items decls, old ∈ item.lifetime ∧
        ∃ removed, item.lifetime.removed = some removed ∧ removed ≤ new)) ∧
    (new < old → ((∃ changes, check c old new = .ok changes) ↔
      ¬∃ item ∈ items decls, old ∈ item.lifetime ∧ new < item.lifetime.added)) := by
  obtain ⟨-, -, shape⟩ := Compiled.ofDeclarations_eq_ok_iff.mp compiled
  rw [← shape] at oldExists newExists
  obtain ⟨oldFirst, oldLast, -⟩ := Compiled.snapshot?_eq_ok_iff.mp oldExists
  obtain ⟨newFirst, newLast, -⟩ := Compiled.snapshot?_eq_ok_iff.mp newExists
  have verdict := check_isOk_iff texts compiled oldFirst oldLast newFirst newLast
  refine ⟨verdict, ?_, fun le => ?_, fun lt => ?_⟩
  · exact check_breaking_iff texts compiled oldFirst oldLast newFirst newLast
  · exact verdict.trans (covers_iff_of_le le)
  · exact verdict.trans (covers_iff_of_lt lt)

/-- The first upgrade of the orders is safe, the second one loses the note, and there is no way
back. -/
theorem upgrade_iff_lifetimes_orders :
    (∃ changes, check ⟨History.orders, History.ordersSnapshots⟩ 1 2 = .ok changes) ∧
    (∃ breaking,
      check ⟨History.orders, History.ordersSnapshots⟩ 2 3 = .error (.breaking breaking)) ∧
    ¬∃ changes, check ⟨History.orders, History.ordersSnapshots⟩ 3 1 = .ok changes := by
  have texts : HasTextNames History.orders := by decide
  have compiled : Compiled.ofDeclarations 1024 History.orders =
      .ok ⟨History.orders, History.ordersSnapshots⟩ := rfl
  have first : Compiled.snapshot? ⟨History.orders, History.ordersSnapshots⟩ 1 =
      .ok (History.layout 1 History.orders) := by rfl
  have second : Compiled.snapshot? ⟨History.orders, History.ordersSnapshots⟩ 2 =
      .ok (History.layout 2 History.orders) := by rfl
  have third : Compiled.snapshot? ⟨History.orders, History.ordersSnapshots⟩ 3 =
      .ok (History.layout 3 History.orders) := by rfl
  have forth := upgrade_iff_lifetimes texts compiled first second
  have further := upgrade_iff_lifetimes texts compiled second third
  have back := upgrade_iff_lifetimes texts compiled third first
  refine ⟨?_, ?_, ?_⟩
  · exact forth.1.mpr (by decide)
  · rw [further.2.1, further.1]
    decide
  · rw [back.1]
    decide

end Upgrade
end SchemaHistory
