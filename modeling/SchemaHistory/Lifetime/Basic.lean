import SchemaHistory.Declaration.Basic
import SchemaHistory.Diagnostic

/-! # Lifetimes

An item of a schema lives in the versions from the one that added it up to, but not including, the
one that removed it.  An item without a header lives as long as what contains it, and one with a
header must stay inside of that; a type is contained in the range of all versions, which starts
with version 1 and has no end. -/
set_option autoImplicit false
namespace SchemaHistory

structure Lifetime where
  added : Int
  removed : Option Int
  deriving DecidableEq, Repr

namespace Lifetime

def unbounded : Lifetime := ⟨1, none⟩

def Before (version : Int) : Option Int → Prop
  | none => True
  | some removed => version < removed

instance (version : Int) (removed : Option Int) : Decidable (Before version removed) :=
  match removed with
  | none => isTrue trivial
  | some m => inferInstanceAs (Decidable (version < m))

instance : Membership Int Lifetime where
  mem l version := l.added ≤ version ∧ Before version l.removed

instance (version : Int) (l : Lifetime) : Decidable (version ∈ l) :=
  inferInstanceAs (Decidable (l.added ≤ version ∧ Before version l.removed))

def closed (l : Lifetime) : Bool := l.removed.isSome

def text (l : Lifetime) : Text :=
  "[" ++ Text.ofInt l.added ++ ", " ++ ((l.removed.map Text.ofInt).getD "inf") ++ ")"

theorem mem_iff {version : Int} {l : Lifetime} :
    version ∈ l ↔
      l.added ≤ version ∧ ∀ removed, l.removed = some removed → version < removed := by
  obtain ⟨added, removed⟩ := l
  cases removed <;> simp [Membership.mem, Before]

def topAdded : Option Literal → Except Diagnostic Int
  | none => .ok 1
  | some n => if n.value < 1 then .error ⟨.addBelowOne, n.position⟩ else .ok n.value

def topRemoved (added : Int) : Option Literal → Except Diagnostic (Option Int)
  | none => .ok none
  | some n =>
    if n.value ≤ added then .error ⟨.remNotAfterAdd, n.position⟩ else .ok (some n.value)

def innerAdded (container : Lifetime) : Option Literal → Except Diagnostic Int
  | none => .ok container.added
  | some n =>
    if n.value < 1 then .error ⟨.addBelowOne, n.position⟩
    else if n.value < container.added then .error ⟨.addBeforeContainer, n.position⟩
    else if Before n.value container.removed then .ok n.value
    else .error ⟨.addAfterContainer, n.position⟩

def innerRemoved (container : Lifetime) (added : Int) :
    Option Literal → Except Diagnostic (Option Int)
  | none => .ok container.removed
  | some n =>
    if n.value < 2 then .error ⟨.remBelowTwo, n.position⟩
    else if n.value ≤ added then .error ⟨.remNotAfterAdd, n.position⟩
    else if Before (n.value - 1) container.removed then .ok (some n.value)
    else .error ⟨.remAfterContainer, n.position⟩

/-- The lifetime of an item in its container, or of a type when there is no container. -/
def resolve (header : Option Header) (container : Option Lifetime) :
    Except Diagnostic Lifetime :=
  match header, container with
  | none, none => .ok unbounded
  | none, some c => .ok c
  | some h, none => do
    let added ← topAdded h.added
    let removed ← topRemoved added h.removed
    .ok ⟨added, removed⟩
  | some h, some c => do
    let added ← innerAdded c h.added
    let removed ← innerRemoved c added h.removed
    .ok ⟨added, removed⟩

def literalWithin (limit : Int) : Option Literal → Except Diagnostic Unit
  | none => .ok ()
  | some n =>
    if limit < n.value then .error ⟨.aboveLimit n.value limit, n.position⟩ else .ok ()

/-- No version that a header mentions may exceed the limit. -/
def within (limit : Int) : Option Header → Except Diagnostic Unit
  | none => .ok ()
  | some h => do
    literalWithin limit h.added
    literalWithin limit h.removed

/-- `resolve` behind the check of the limit. -/
def resolveWithin (limit : Int) (header : Option Header) (container : Option Lifetime) :
    Except Diagnostic Lifetime := do
  within limit header
  resolve header container

end Lifetime
end SchemaHistory
