import SchemaHistory.Declaration.Basic
import SchemaHistory.Diagnostic
import SchemaHistory.Inspection

/-! # Styles of enums

The variants of an enum either have discriminants or carry payloads, never some of each, not even
when they live in different versions.  Unit variants go with both styles. -/
set_option autoImplicit false
namespace SchemaHistory

inductive Style
  | numbered
  | carrying
  deriving DecidableEq, Repr

namespace Style

def of? : Payload → Option Style
  | .unit => none
  | .int _ => some .numbered
  | .tuple _ => some .carrying
  | .struct _ => some .carrying

/-- The style after one more variant; `seen` is the style of the variants before it. -/
def step (enumName : Json) (seen : Option Style) (v : Variant) :
    Except Diagnostic (Option Style) :=
  match seen, of? v.payload with
  | seen, none => .ok seen
  | none, some style => .ok (some style)
  | some before, some style =>
    if before = style then .ok (some before)
    else .error ⟨.mixedShapes enumName v.name, v.position⟩

/-- Holds the first style that it meets. -/
def inspector (enumName : Json) : Inspector (Option Style) Variant := fun v => do
  let some style := of? v.payload | return
  match ← get with
  | none => set (some style)
  | some before =>
    if before ≠ style then throw ⟨.mixedShapes enumName v.name, v.position⟩

end Style
end SchemaHistory
