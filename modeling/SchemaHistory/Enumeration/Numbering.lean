import SchemaHistory.Declaration.Basic
import SchemaHistory.Diagnostic
import SchemaHistory.Inspection

/-! # Discriminants in one version

Walking through the variants of an enum that live in a version, a unit variant behind a
discriminant takes the next number, so a discriminant must exceed the one before it by more than
the number of unit variants between them. -/
set_option autoImplicit false
namespace SchemaHistory

/-- The last discriminant, if any, and how many unit variants have followed it. -/
structure Numbering where
  last : Option Nat
  following : Nat
  deriving DecidableEq, Repr

namespace Numbering

def start : Numbering := ⟨none, 0⟩

/-- The number that a discriminant has to exceed, if any. -/
def taken? (n : Numbering) : Option Nat := n.last.map (· + n.following)

def exceeds (value : Nat) : Option Nat → Bool
  | none => true
  | some taken => decide (taken < value)

def step (enumName : Json) (version : Int) (n : Numbering) (v : Variant) :
    Except Diagnostic Numbering :=
  match v.payload with
  | .unit => .ok (if n.last.isSome then { n with following := n.following + 1 } else n)
  | .int discriminant =>
    if exceeds discriminant.value n.taken? then .ok ⟨some discriminant.value, 0⟩
    else .error ⟨.discriminantOrder enumName v.name version, discriminant.position⟩
  | _ => .ok n

/-- Holds the running number. -/
def inspector (enumName : Json) (version : Int) : Inspector Numbering Variant := fun v => do
  match v.payload with
  | .unit =>
    if (← get).last.isSome then modify fun n => { n with following := n.following + 1 }
  | .int discriminant =>
    if !exceeds discriminant.value (← get).taken? then
      throw ⟨.discriminantOrder enumName v.name version, discriminant.position⟩
    modify fun n => { n with last := some discriminant.value }
    modify fun n => { n with following := 0 }
  | _ => return

end Numbering
end SchemaHistory
