/-! # What a reader leaves behind

A reader takes a list of characters or tokens and returns a value together with what it did not
read.  `Parsed` also keeps the fact that the rest is shorter than some bound, usually the length of
the list that was read, so that recursion over the rest ends. -/
set_option autoImplicit false
namespace SchemaHistory

structure Parsed (τ α : Type) (bound : Nat) where
  value : α
  rest : List τ
  shorter : rest.length < bound

namespace Parsed
variable {τ α β : Type}

def map {n : Nat} (f : α → β) (p : Parsed τ α n) : Parsed τ β n :=
  ⟨f p.value, p.rest, p.shorter⟩

def weaken {n m : Nat} (le : n ≤ m) (p : Parsed τ α n) : Parsed τ α m :=
  ⟨p.value, p.rest, Nat.lt_of_lt_of_le p.shorter le⟩

/-- The value and the rest alone. -/
def pair {n : Nat} (p : Parsed τ α n) : α × List τ := (p.value, p.rest)

end Parsed
end SchemaHistory
