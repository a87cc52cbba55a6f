import SchemaHistory.Proofs.Excerpt.Basic

/-! # Growing a schema

Once the versions up to `last` are released, a schema may grow by two kinds of edits: an item is
inserted anywhere if its header adds it after `last`, and an item whose lifetime is open may be
closed by a header that removes it after `last` and keeps its `add`.  `SchemaGrowth` is any number
of such edits at once, on all levels of a schema.  For the versions up to `last` an edited item
lives where it has lived (`HeaderEdit.agrees`), although the header may change the lifetimes of
everything inside of it. -/
set_option autoImplicit false
namespace SchemaHistory

/-! ## The edits -/

/-- A list with insertions: every element is a kept one in its new form, or a fresh one. -/
inductive Grown {α : Type} (kept : α → α → Prop) (fresh : α → Prop) : List α → List α → Prop
  | nil : Grown kept fresh [] []
  | keep {x y : α} {xs ys : List α} (edit : kept x y) (rest : Grown kept fresh xs ys) :
    Grown kept fresh (x :: xs) (y :: ys)
  | insert {y : α} {xs ys : List α} (new : fresh y) (rest : Grown kept fresh xs ys) :
    Grown kept fresh xs (y :: ys)

def AddsAfter (last : Int) (header : Option Header) : Prop :=
  ∃ h n, header = some h ∧ h.added = some n ∧ last < n.value

inductive HeaderEdit (last : Int) (l : Lifetime) (header : Option Header) : Option Header → Prop
  | same : HeaderEdit last l header header
  | close (k : Literal) (position : Option Position) (opened : l.removed = none)
    (after : last < k.value) :
    HeaderEdit last l header (some ⟨header.bind Header.added, some k, position, .inr rfl⟩)

def FieldEdit (last : Int) (container : Lifetime) (f g : Field) : Prop :=
  HeaderEdit last (f.lifetime container) f.header g.header ∧ { f with header := g.header } = g

def FieldsGrowth (last : Int) (container : Lifetime) : List Field → List Field → Prop :=
  Grown (FieldEdit last container) fun f => AddsAfter last f.header

inductive PayloadEdit (last : Int) (l : Lifetime) : Payload → Payload → Prop
  | same (p : Payload) : PayloadEdit last l p p
  | struct {fs gs : List Field} (fields : FieldsGrowth last l fs gs) :
    PayloadEdit last l (.struct fs) (.struct gs)

def VariantEdit (last : Int) (container : Lifetime) (v w : Variant) : Prop :=
  HeaderEdit last (v.lifetime container) v.header w.header ∧
    PayloadEdit last (v.lifetime container) v.payload w.payload ∧
    { v with header := w.header, payload := w.payload } = w

def VariantsGrowth (last : Int) (container : Lifetime) : List Variant → List Variant → Prop :=
  Grown (VariantEdit last container) fun v => AddsAfter last v.header

inductive BodyEdit (last : Int) (l : Lifetime) : Body → Body → Prop
  | record (node : Bool) {fs gs : List Field} (fields : FieldsGrowth last l fs gs) :
    BodyEdit last l (.record node fs) (.record node gs)
  | enum {vs ws : List Variant} (variants : VariantsGrowth last l vs ws) :
    BodyEdit last l (.enum vs) (.enum ws)

def DeclEdit (last : Int) (d e : Decl) : Prop :=
  HeaderEdit last d.lifetime d.header e.header ∧ BodyEdit last d.lifetime d.body e.body ∧
    { d with header := e.header, body := e.body } = e

/-- The second schema comes from the first one by edits that leave the versions up to `last` alone.
-/
def SchemaGrowth (last : Int) : List Decl → List Decl → Prop :=
  Grown (DeclEdit last) fun d => AddsAfter last d.header

/-! ## Lists with insertions -/

namespace Grown
variable {α β : Type} {kept : α → α → Prop} {fresh : α → Prop} {xs ys : List α}

theorem refl (keeps : ∀ x, kept x x) (xs : List α) : Grown kept fresh xs xs := by
  induction xs with
  | nil => exact .nil
  | cons x xs ih => exact .keep (keeps x) ih

theorem imp {newKept : α → α → Prop} {newFresh : α → Prop} (grown : Grown kept fresh xs ys)
    (keeps : ∀ x ∈ xs, ∀ y ∈ ys, kept x y → newKept x y)
    (inserts : ∀ y ∈ ys, fresh y → newFresh y) : Grown newKept newFresh xs ys := by
  induction grown with
  | nil => exact .nil
  | keep edit rest ih =>
      rw [List.forall_mem_cons] at keeps inserts
      apply Grown.keep
      · exact keeps.1 _ List.mem_cons_self edit
      · apply ih
        · exact fun x inX y inY => keeps.2 x inX y (List.mem_cons_of_mem _ inY)
        · exact inserts.2
  | insert new rest ih =>
      rw [List.forall_mem_cons] at inserts
      apply Grown.insert
      · exact inserts.1 new
      · apply ih
        · exact fun x inX y inY => keeps x inX y (List.mem_cons_of_mem _ inY)
        · exact inserts.2

/-- Filtering out what is fresh leaves what was there. -/
theorem map_filter {p q : α → Bool} {f g : α → β}
    (grown : Grown (fun x y => q y = p x ∧ (p x = true → g y = f x)) (fun y => q y = false) xs ys) :
    (ys.filter q).map g = (xs.filter p).map f := by
  induction grown with
  | nil => rfl
  | @keep x y xs ys edit rest ih =>
      obtain ⟨same, shown⟩ := edit
      rw [List.filter_cons, List.filter_cons, same]
      by_cases lives : p x = true
      · simp only [lives, if_true, List.map_cons, shown lives, ih]
      · simp only [lives, Bool.false_eq_true, if_false, ih]
  | insert new rest ih =>
      rw [List.filter_cons, new]
      simpa using ih

theorem forall_iff {P Q : α → Prop} (grown : Grown (fun x y => Q y ↔ P x) Q xs ys) :
    (∀ y ∈ ys, Q y) ↔ ∀ x ∈ xs, P x := by
  induction grown with
  | nil => exact iff_of_true (fun _ => nofun) (fun _ => nofun)
  | keep edit rest ih => rw [List.forall_mem_cons, List.forall_mem_cons, ih, edit]
  | insert new rest ih =>
      rw [List.forall_mem_cons, ih]
      exact and_iff_right new

theorem flatMap_subset {f g : α → List β} (grown : Grown (fun x y => f x ⊆ g y) fresh xs ys) :
    xs.flatMap f ⊆ ys.flatMap g := by
  induction grown with
  | nil => exact List.Subset.refl _
  | keep edit rest ih =>
      intro b member
      rcases List.mem_append.mp member with own | inside
      · exact List.mem_append_left _ (edit own)
      · exact List.mem_append_right _ (ih inside)
  | insert new rest ih =>
      intro b member
      exact List.mem_append_right _ (ih member)

end Grown

/-! ## Lifetimes under edits -/

namespace Lifetime

/-- The second lifetime is the first one, or ends where the first one is still open, after `last`.
-/
structure AgreesUntil (last : Int) (l m : Lifetime) : Prop where
  added : m.added = l.added
  removed : m.removed = l.removed ∨ l.removed = none ∧ ∃ k, m.removed = some k ∧ last < k

theorem AgreesUntil.refl (last : Int) (l : Lifetime) : AgreesUntil last l l := ⟨rfl, .inl rfl⟩

theorem AgreesUntil.mem_iff {last version : Int} {l m : Lifetime} (agrees : AgreesUntil last l m)
    (released : version ≤ last) : version ∈ m ↔ version ∈ l := by
  rw [Lifetime.mem_iff, Lifetime.mem_iff, agrees.added]
  refine and_congr_right fun _ => ?_
  rcases agrees.removed with same | ⟨opened, k, closed, after⟩
  · rw [same]
  · rw [opened, closed]
    refine iff_of_true ?_ nofun
    rintro _ ⟨⟩
    exact lt_of_le_of_lt released after

theorem not_mem_of_addsAfter {last version : Int} {header : Option Header}
    {container : Option Lifetime} (adds : AddsAfter last header) (released : version ≤ last) :
    version ∉ ofHeader header container := by
  have inner : ∀ c, version ∉ ofHeader header (some c) := by
    intro c inside
    obtain ⟨h, n, rfl, added, after⟩ := adds
    obtain ⟨l, resolved, member⟩ := mem_ofHeader_iff.mp inside
    simp only [resolve, added, bind_eq_ok_iff, Except.ok.injEq] at resolved
    obtain ⟨a, starts, r, -, rfl⟩ := resolved
    simp only [innerAdded] at starts
    split_ifs at starts
    cases starts
    exact absurd (lt_of_le_of_lt released after) (not_lt.mpr member.1)
  cases container with
  | none => exact ofHeader_top header ▸ inner unbounded
  | some c => exact inner c

end Lifetime

namespace HeaderEdit
variable {last : Int} {header changed : Option Header} {container other : Lifetime}

theorem agrees (edit : HeaderEdit last (Lifetime.requested header container) header changed)
    (outer : container.AgreesUntil last other) :
    (Lifetime.requested header container).AgreesUntil last (Lifetime.requested changed other) := by
  have starts : Lifetime.requestedAdded other (header.bind Header.added) =
      Lifetime.requestedAdded container (header.bind Header.added) := by
    rw [Lifetime.requestedAdded, outer.added]
    rfl
  cases edit with
  | same =>
      refine ⟨starts, ?_⟩
      simp only [Lifetime.requested, Lifetime.requestedRemoved]
      cases header.bind Header.removed with
      | none => exact outer.removed
      | some k => exact .inl rfl
  | close k position opened after => exact ⟨starts, .inr ⟨opened, k.value, rfl, after⟩⟩

theorem mentionedBy_subset
    (edit : HeaderEdit last (Lifetime.requested header container) header changed) :
    mentionedBy header ⊆ mentionedBy changed := by
  cases edit with
  | same => exact List.Subset.refl _
  | close k position opened after =>
      intro m member
      cases header with
      | none => cases member
      | some h =>
          rcases Lifetime.mem_mentionedBy_some.mp member with added | ⟨n, removed, -⟩
          · exact Lifetime.mem_mentionedBy_some.mpr (.inl added)
          · simp [Lifetime.requested, Lifetime.requestedRemoved, removed] at opened

end HeaderEdit
end SchemaHistory
