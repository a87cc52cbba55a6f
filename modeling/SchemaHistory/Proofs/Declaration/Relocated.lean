import SchemaHistory.Declaration.Basic
import SchemaHistory.Proofs.Grammar.Printed

/-! # Moving declarations to other places

Every part of a declaration carries the place where it was written.  `Decl.relocate` changes these
places and nothing else: dropping the names of files (`Decl.withoutFile`) and forgetting the places
altogether (`Decl.unplaced`) are instances.  An expression keeps its form. -/
set_option autoImplicit false
namespace SchemaHistory

theorem map_eq_self_of_forall {α : Type} {f : α → α} {xs : List α} (same : ∀ x ∈ xs, f x = x) :
    xs.map f = xs :=
  (List.map_congr_left same).trans (List.map_id' xs)

section
variable (f : Option Position → Option Position)

def Diagnostic.relocate (d : Diagnostic) : Diagnostic := ⟨d.cause, f d.position⟩

def Located.relocate {α : Type} (n : Located α) : Located α := ⟨n.value, f n.position⟩

def Header.relocate (h : Header) : Header where
  added := h.added.map (Located.relocate f)
  removed := h.removed.map (Located.relocate f)
  position := f h.position
  present := by simpa only [Option.isSome_map] using h.present

namespace TypeExpr

mutual

def relocate : TypeExpr → TypeExpr
  | .primitive kind p => .primitive kind (f p)
  | .named name p => .named name (f p)
  | .optional inner p => .optional (relocate inner) (f p)
  | .reference inner p => .reference (relocate inner) (f p)
  | .array inner size p => .array (relocate inner) size (f p)
  | .slice inner p => .slice (relocate inner) (f p)
  | .tuple items p => .tuple (relocateItems items) (f p)

def relocateItems : List TypeExpr → List TypeExpr
  | [] => []
  | item :: items => relocate item :: relocateItems items

end

@[simp] theorem relocateItems_eq_map (items : List TypeExpr) :
    relocateItems f items = items.map (relocate f) := by
  induction items with
  | nil => rfl
  | cons item items ih => simp only [relocateItems, ih, List.map_cons]

end TypeExpr

def Field.relocate (x : Field) : Field :=
  ⟨x.name, x.type.relocate f, x.header.map (Header.relocate f), f x.position⟩

def Payload.relocate : Payload → Payload
  | .unit => .unit
  | .int n => .int (n.relocate f)
  | .tuple types => .tuple (types.map (TypeExpr.relocate f))
  | .struct fields => .struct (fields.map (Field.relocate f))

def Variant.relocate (v : Variant) : Variant :=
  ⟨v.name, v.payload.relocate f, v.header.map (Header.relocate f), f v.position⟩

def Body.relocate : Body → Body
  | .record node fields => .record node (fields.map (Field.relocate f))
  | .enum variants => .enum (variants.map (Variant.relocate f))

def Decl.relocate (d : Decl) : Decl :=
  ⟨d.name, d.body.relocate f, d.header.map (Header.relocate f), f d.position⟩

end

abbrev fileless : Option Position → Option Position := Option.map Position.withoutFile

def Decl.withoutFile (d : Decl) : Decl := d.relocate fileless

def Decl.unplaced (d : Decl) : Decl := d.relocate fun _ => none

/-! ## Moving twice -/

section
variable (g f : Option Position → Option Position)

theorem Header.relocate_relocate (h : Header) : (h.relocate f).relocate g = h.relocate (g ∘ f) := by
  obtain ⟨added, removed, position, present⟩ := h
  cases added <;> cases removed <;> rfl

theorem Header.map_relocate_relocate (header : Option Header) :
    (header.map (Header.relocate f)).map (Header.relocate g) =
      header.map (Header.relocate (g ∘ f)) := by
  rw [Option.map_map]
  exact congrArg (header.map ·) (funext (Header.relocate_relocate g f))

mutual

theorem TypeExpr.relocate_relocate : (t : TypeExpr) →
    (t.relocate f).relocate g = t.relocate (g ∘ f)
  | .primitive _ _ => rfl
  | .named _ _ => rfl
  | .optional inner _ => by simp only [relocate, relocate_relocate inner, Function.comp]
  | .reference inner _ => by simp only [relocate, relocate_relocate inner, Function.comp]
  | .array inner _ _ => by simp only [relocate, relocate_relocate inner, Function.comp]
  | .slice inner _ => by simp only [relocate, relocate_relocate inner, Function.comp]
  | .tuple items _ => by simp only [relocate, relocateItems_relocateItems items, Function.comp]

theorem TypeExpr.relocateItems_relocateItems : (items : List TypeExpr) →
    relocateItems g (relocateItems f items) = relocateItems (g ∘ f) items
  | [] => rfl
  | item :: items => by
      simp only [relocateItems, relocate_relocate item, relocateItems_relocateItems items]

end

theorem Field.relocate_relocate (x : Field) : (x.relocate f).relocate g = x.relocate (g ∘ f) := by
  simp only [relocate, TypeExpr.relocate_relocate, Header.map_relocate_relocate, Function.comp]

theorem Payload.relocate_relocate (p : Payload) :
    (p.relocate f).relocate g = p.relocate (g ∘ f) := by
  cases p with
  | unit => rfl
  | int n => rfl
  | tuple types =>
      rw [relocate, relocate, relocate, List.map_map]
      exact congrArg tuple (List.map_congr_left fun t _ => t.relocate_relocate g f)
  | struct fields =>
      rw [relocate, relocate, relocate, List.map_map]
      exact congrArg struct (List.map_congr_left fun x _ => x.relocate_relocate g f)

theorem Variant.relocate_relocate (v : Variant) :
    (v.relocate f).relocate g = v.relocate (g ∘ f) := by
  simp only [relocate, Payload.relocate_relocate, Header.map_relocate_relocate, Function.comp]

theorem Body.relocate_relocate (b : Body) : (b.relocate f).relocate g = b.relocate (g ∘ f) := by
  cases b with
  | record node fields =>
      rw [relocate, relocate, relocate, List.map_map]
      exact congrArg (record node) (List.map_congr_left fun x _ => x.relocate_relocate g f)
  | enum variants =>
      rw [relocate, relocate, relocate, List.map_map]
      exact congrArg enum (List.map_congr_left fun v _ => v.relocate_relocate g f)

theorem Decl.relocate_relocate (d : Decl) : (d.relocate f).relocate g = d.relocate (g ∘ f) := by
  simp only [relocate, Body.relocate_relocate, Header.map_relocate_relocate, Function.comp]

@[simp] theorem Decl.unplaced_relocate (d : Decl) : (d.relocate f).unplaced = d.unplaced :=
  Decl.relocate_relocate (fun _ => none) f d

end

/-! ## Expressions without places -/

section
variable (f : Option Position → Option Position)

mutual

theorem TypeExpr.relocate_none : (t : TypeExpr) → t.relocate (fun _ => none) = t.unplaced
  | .primitive _ _ => rfl
  | .named _ _ => rfl
  | .optional inner _ => by simp only [relocate, unplaced, relocate_none inner]
  | .reference inner _ => by simp only [relocate, unplaced, relocate_none inner]
  | .array inner _ _ => by simp only [relocate, unplaced, relocate_none inner]
  | .slice inner _ => by simp only [relocate, unplaced, relocate_none inner]
  | .tuple items _ => by simp only [relocate, unplaced, relocateItems_none items]

theorem TypeExpr.relocateItems_none : (items : List TypeExpr) →
    relocateItems (fun _ => none) items = unplacedItems items
  | [] => rfl
  | item :: items => by
      simp only [relocateItems, unplacedItems, relocate_none item, relocateItems_none items]

end

mutual

@[simp] theorem TypeExpr.unplaced_relocate : (t : TypeExpr) → (t.relocate f).unplaced = t.unplaced
  | .primitive _ _ => rfl
  | .named _ _ => rfl
  | .optional inner _ => by simp only [relocate, unplaced, unplaced_relocate inner]
  | .reference inner _ => by simp only [relocate, unplaced, unplaced_relocate inner]
  | .array inner _ _ => by simp only [relocate, unplaced, unplaced_relocate inner]
  | .slice inner _ => by simp only [relocate, unplaced, unplaced_relocate inner]
  | .tuple items _ => by simp only [relocate, unplaced, unplacedItems_relocateItems items]

theorem TypeExpr.unplacedItems_relocateItems : (items : List TypeExpr) →
    unplacedItems (relocateItems f items) = unplacedItems items
  | [] => rfl
  | item :: items => by
      simp only [relocateItems, unplacedItems, unplaced_relocate item,
        unplacedItems_relocateItems items]

end

@[simp] theorem TypeExpr.form_relocate (t : TypeExpr) : (t.relocate f).form = t.form := by
  rw [← form_unplaced, unplaced_relocate, form_unplaced]

end
end SchemaHistory
