import SchemaHistory.History.Snapshot
import SchemaHistory.Lifetime.Basic

/-! # Histories in the making

A history is built by placing one item after the other, a container before its members.  It holds
the types of the versions that exist so far and, in `upcoming`, those that the next version will
start with.  Placing an item first creates the versions up to the end of its lifetime, or up to the
one that adds it when there is no end; then it goes to every existing version of its lifetime and,
if there is no end, to the upcoming one.  An item goes behind everything that was placed before it:
a member into the last type, a field of a struct variant into the last member of the last type. -/
set_option autoImplicit false
namespace SchemaHistory

/-- Changes the last element of a list. -/
def onLast {α : Type} (f : α → α) : List α → List α
  | [] => []
  | [x] => [f x]
  | x :: y :: rest => x :: onLast f (y :: rest)

@[simp] theorem onLast_concat {α : Type} (f : α → α) (xs : List α) (x : α) :
    onLast f (xs ++ [x]) = xs ++ [f x] := by
  induction xs with
  | nil => rfl
  | cons y ys ih =>
      cases ys with
      | nil => rfl
      | cons z zs => simpa [onLast] using ih

/-- What is written where an item is placed. -/
inductive Slot
  | type (index : Nat)
  | member (slot : MemberSlot)
  | field (index : Nat)
  deriving DecidableEq, Repr

namespace Slot

def addField (index : Nat) : MemberSlot → MemberSlot
  | .plain i => .plain i
  | .struct i fields => .struct i (fields ++ [index])

def addMember (slot : MemberSlot) (t : TypeSlot) : TypeSlot :=
  { t with members := t.members ++ [slot] }

def onLastMember (f : MemberSlot → MemberSlot) (t : TypeSlot) : TypeSlot :=
  { t with members := onLast f t.members }

def putInto (types : List TypeSlot) : Slot → List TypeSlot
  | .type index => types ++ [⟨index, []⟩]
  | .member slot => onLast (addMember slot) types
  | .field index => onLast (onLastMember (addField index)) types

end Slot

structure Placement where
  lifetime : Lifetime
  slot : Slot
  deriving DecidableEq, Repr

structure History where
  released : List (List TypeSlot)
  upcoming : List TypeSlot
  deriving DecidableEq, Repr

namespace History

def empty : History := ⟨[], []⟩

/-- Creates versions until there are `count` of them. -/
def upTo (count : Nat) (h : History) : History :=
  { h with released := h.released ++ List.replicate (count - h.released.length) h.upcoming }

/-- The last version that the placement of an item creates. -/
def lastNeeded (l : Lifetime) : Nat := (l.removed.getD l.added).toNat

def putWhere (p : Placement) (i : Nat) (types : List TypeSlot) : List TypeSlot :=
  if ((i : Int) + 1) ∈ p.lifetime then p.slot.putInto types else types

def write (p : Placement) (h : History) : History :=
  { released := h.released.mapIdx (putWhere p)
    upcoming := if p.lifetime.closed then h.upcoming else p.slot.putInto h.upcoming }

def place (h : History) (p : Placement) : History := (h.upTo (lastNeeded p.lifetime)).write p

def placeAll (h : History) (ps : List Placement) : History := ps.foldl place h

def snapshots (h : History) : List Snapshot :=
  h.released.mapIdx fun i types => ⟨(i : Int) + 1, types⟩

end History
end SchemaHistory
