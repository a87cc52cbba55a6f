import SchemaHistory.Proofs.History.Acceptance
import SchemaHistory.Proofs.Faults.Sequence

/-! # The checks of the walk

The walk runs its checks while it resolves lifetimes, remembers styles and siblings, and places
items.  `itemChecks` lists the same checks with nothing to remember: every one of them looks at the
declarations alone, at an item, at what contains it, and at the items in front of it.  The walk
reports the first fault that they find (`fault?_walk`). -/
set_option autoImplicit false
namespace SchemaHistory

/-! ## Single checks -/

def limitCheck (limit : Int) : Option Literal → Option Diagnostic
  | none => none
  | some n => if limit < n.value then some ⟨.aboveLimit n.value limit, n.position⟩ else none

/-- The checks of a header: its `add` and its `rem` against the limit, then its lifetime. -/
def headerChecks (limit : Int) (header : Option Header) (container : Option Lifetime) :
    List (Option Diagnostic) :=
  [limitCheck limit (header.bind Header.added), limitCheck limit (header.bind Header.removed),
    fault? (Lifetime.resolve header container)]

def nameCheck (earlier : List Sibling) (item : Sibling) : Option Diagnostic :=
  if ∃ other ∈ earlier, other.clashes item = true then some ⟨.sharedName item.name, item.position⟩
  else none

/-- One of the variants has a discriminant and the other one carries something. -/
def Style.conflict (u v : Variant) : Bool :=
  match u.payload, v.payload with
  | .int _, .tuple _ => true
  | .int _, .struct _ => true
  | .tuple _, .int _ => true
  | .struct _, .int _ => true
  | _, _ => false

def shapeCheck (enumName : Json) (earlier : List Variant) (v : Variant) : Option Diagnostic :=
  if ∃ u ∈ earlier, Style.conflict u v = true then some ⟨.mixedShapes enumName v.name, v.position⟩
  else none

/-! ## The checks of a schema in source order -/

namespace Walk

def fieldChecks (limit : Int) (container : Lifetime) (earlier : List Field) (f : Field) :
    List (Option Diagnostic) :=
  headerChecks limit f.header (some container) ++
    [nameCheck (fieldSiblings container earlier) (ofField f (f.lifetime container))]

/-- A variant: its style, its header, its name, and then the fields of a struct variant. -/
def variantChecks (limit : Int) (enumName : Json) (container : Lifetime) (earlier : List Variant)
    (v : Variant) : List (Option Diagnostic) :=
  shapeCheck enumName earlier v :: (headerChecks limit v.header (some container) ++
    nameCheck (variantSiblings container earlier) (ofVariant v (v.lifetime container)) ::
      checksAfter (fieldChecks limit (v.lifetime container)) [] v.payload.fields)

def memberChecks (limit : Int) (d : Decl) : List (Option Diagnostic) :=
  match d.body with
  | .record _ fs => checksAfter (fieldChecks limit d.lifetime) [] fs
  | .enum vs => checksAfter (variantChecks limit d.name d.lifetime) [] vs

def declChecks (limit : Int) (earlier : List Decl) (d : Decl) : List (Option Diagnostic) :=
  headerChecks limit d.header none ++
    (memberChecks limit d ++ [nameCheck (typeSiblings earlier) (ofDecl d d.lifetime)])

end Walk

def itemChecks (limit : Int) (decls : List Decl) : List (Option Diagnostic) :=
  checksAfter (Walk.declChecks limit) [] decls

/-! ## What the single checks stand for -/

theorem fault?_literalWithin (limit : Int) (n : Option Literal) :
    fault? (Lifetime.literalWithin limit n) = limitCheck limit n := by
  cases n with
  | none => rfl
  | some n =>
      simp only [Lifetime.literalWithin, limitCheck]
      split_ifs <;> rfl

theorem fault?_resolveWithin (limit : Int) (header : Option Header) (container : Option Lifetime) :
    fault? (Lifetime.resolveWithin limit header container) =
      firstFault (headerChecks limit header container) := by
  have within : fault? (Lifetime.within limit header) =
      firstFault [limitCheck limit (header.bind Header.added),
        limitCheck limit (header.bind Header.removed)] := by
    cases header with
    | none => rfl
    | some h =>
        have added := (fault?_literalWithin limit h.added).trans (firstFault_one _).symm
        have removed := (fault?_literalWithin limit h.removed).trans (firstFault_one _).symm
        have both := fault?_bind added fun _ _ => removed
        exact both
  exact fault?_bind within fun _ _ => (firstFault_one _).symm

theorem fault?_add (siblings : Siblings) (item : Sibling) :
    fault? (siblings.add item) = nameCheck siblings item := by
  unfold Siblings.add nameCheck
  simp only [List.any_eq_true]
  split_ifs <;> rfl

namespace Style

/-- The style that the check remembers is the one that all earlier variants with a style have. -/
def Remembers (seen : Option Style) (earlier : List Variant) : Prop :=
  ∀ style, seen = some style ↔ style ∈ among earlier

theorem remembers_none : Remembers none [] := fun style => by simp [among]

theorem conflict_iff {u v : Variant} : conflict u v = true ↔
    ∃ before style, of? u.payload = some before ∧ of? v.payload = some style ∧ before ≠ style := by
  unfold conflict
  cases u.payload <;> cases v.payload <;> simp [of?]

theorem exists_conflict_iff {seen : Option Style} {earlier : List Variant} {v : Variant}
    (remembers : Remembers seen earlier) :
    (∃ u ∈ earlier, conflict u v = true) ↔
      ∃ before ∈ seen, ∃ style ∈ of? v.payload, before ≠ style := by
  constructor
  · intro found
    rcases found with ⟨u, member, differ⟩
    obtain ⟨before, style, first, own, apart⟩ := conflict_iff.mp differ
    have met : before ∈ among earlier := List.mem_filterMap.mpr ⟨u, member, first⟩
    exact ⟨before, (remembers before).mpr met, style, own, apart⟩
  · intro found
    rcases found with ⟨before, met, style, own, differ⟩
    obtain ⟨u, member, first⟩ := List.mem_filterMap.mp ((remembers before).mp met)
    exact ⟨u, member, conflict_iff.mpr ⟨before, style, first, own, differ⟩⟩

theorem fault?_step {seen : Option Style} {earlier : List Variant} (enumName : Json) (v : Variant)
    (remembers : Remembers seen earlier) :
    fault? (step enumName seen v) = shapeCheck enumName earlier v := by
  rw [shapeCheck, if_congr (exists_conflict_iff remembers) rfl rfl]
  unfold step
  cases of? v.payload with
  | none => simp [fault?]
  | some style =>
      cases seen with
      | none => simp [fault?]
      | some before => by_cases same : before = style <;> simp [fault?, same]

theorem Remembers.step {seen next : Option Style} {earlier : List Variant} {enumName : Json}
    {v : Variant} (remembers : Remembers seen earlier)
    (passed : Style.step enumName seen v = .ok next) : Remembers next (earlier ++ [v]) := by
  obtain ⟨agree, rfl⟩ := step_eq_ok_iff.mp passed
  intro style
  have split : among (earlier ++ [v]) = among earlier ++ (of? v.payload).toList := by
    unfold among
    cases own : of? v.payload <;> simp [own]
  rw [split, List.mem_append, ← remembers, Option.mem_toList]
  cases seen with
  | none => simp
  | some before =>
      constructor
      · exact fun same => .inl same
      · intro met
        rcases met with same | own
        · exact same
        · rw [agree before rfl style own]
          rfl

end Style

/-! ## The walk -/

namespace Walk
variable {α β : Type}

@[simp] theorem result_bind (w : Walk α) (next : α → Walk β) :
    (w >>= next).result = w.result >>= fun a => (next a).result := by
  obtain ⟨placements, result⟩ := w
  cases result <;> rfl

@[simp] theorem result_check (result : Except Diagnostic α) : (check result).result = result := rfl

@[simp] theorem result_place (l : Lifetime) (slot : Slot) : (place l slot).result = .ok () := rfl

theorem ok_bind (a : α) (next : α → Except Diagnostic β) : (.ok a >>= next) = next a := rfl

theorem lifetime_of_resolveWithin {limit : Int} {header : Option Header}
    {container : Option Lifetime} {l : Lifetime}
    (resolved : Lifetime.resolveWithin limit header container = .ok l) :
    Lifetime.ofHeader header container = l :=
  (resolveWithin_eq_ok_iff_lifetime.mp resolved).2

section
variable {limit : Int} {container : Lifetime}

theorem fault?_fields (i : Nat) (earlier fs : List Field) :
    fault? (fields limit container i (fieldSiblings container earlier) fs).result =
      firstFault (checksAfter (fieldChecks limit container) earlier fs) := by
  induction fs generalizing i earlier with
  | nil => rfl
  | cons f rest ih =>
      simp only [fields, result_bind, result_check, result_place, ok_bind, checksAfter, fieldChecks,
        List.append_assoc]
      refine fault?_bind (fault?_resolveWithin limit f.header (some container)) fun l resolved => ?_
      obtain rfl := lifetime_of_resolveWithin resolved
      refine fault?_bind ((fault?_add _ _).trans (firstFault_one _).symm) fun siblings added => ?_
      obtain ⟨-, rfl⟩ := Siblings.add_eq_ok_iff.mp added
      have next := ih (i + 1) (earlier ++ [f])
      rw [fieldSiblings, List.map_append] at next
      exact next

theorem result_variantFields (i : Nat) (siblings : Siblings) (fs : List Field) :
    (variantFields limit container i siblings fs).result =
      (fields limit container i siblings fs).result := by
  induction fs generalizing i siblings with
  | nil => rfl
  | cons f rest ih =>
      simp only [variantFields, fields, result_bind, result_check, result_place, ok_bind, ih]

theorem fault?_variantFields (i : Nat) (fs : List Field) :
    fault? (variantFields limit container i [] fs).result =
      firstFault (checksAfter (fieldChecks limit container) [] fs) := by
  rw [result_variantFields]
  exact fault?_fields i [] fs

theorem fault?_variants {enumName : Json} (i : Nat) {style : Option Style}
    (earlier vs : List Variant) (remembers : Style.Remembers style earlier) :
    fault? (variants limit enumName container i style (variantSiblings container earlier)
        vs).result =
      firstFault (checksAfter (variantChecks limit enumName container) earlier vs) := by
  induction vs generalizing i style earlier with
  | nil => rfl
  | cons v rest ih =>
      simp only [variants, result_bind, result_check, result_place, ok_bind, checksAfter,
        variantChecks, List.cons_append, List.append_assoc]
      have shape := Style.fault?_step enumName v remembers
      refine fault?_bind (shape.trans (firstFault_one _).symm) fun next passed => ?_
      refine fault?_bind (fault?_resolveWithin limit v.header (some container)) fun l resolved => ?_
      obtain rfl := lifetime_of_resolveWithin resolved
      refine fault?_bind ((fault?_add _ _).trans (firstFault_one _).symm) fun siblings added => ?_
      obtain ⟨-, rfl⟩ := Siblings.add_eq_ok_iff.mp added
      refine fault?_bind (fault?_variantFields 0 v.payload.fields) fun _ _ => ?_
      have later := ih (i + 1) (earlier ++ [v]) (remembers.step passed)
      rw [variantSiblings, List.map_append] at later
      exact later

theorem fault?_members (d : Decl) :
    fault? (members limit d.lifetime d).result = firstFault (memberChecks limit d) := by
  unfold members memberChecks
  cases d.body with
  | record node fs => exact fault?_fields 0 [] fs
  | enum vs => exact fault?_variants 0 [] vs Style.remembers_none

theorem fault?_types (i : Nat) (earlier decls : List Decl) :
    fault? (types limit i (typeSiblings earlier) decls).result =
      firstFault (checksAfter (declChecks limit) earlier decls) := by
  induction decls generalizing i earlier with
  | nil => rfl
  | cons d rest ih =>
      simp only [types, result_bind, result_check, result_place, ok_bind, checksAfter, declChecks,
        List.append_assoc]
      refine fault?_bind (fault?_resolveWithin limit d.header none) fun l resolved => ?_
      obtain rfl := lifetime_of_resolveWithin resolved
      refine fault?_bind (fault?_members d) fun _ _ => ?_
      refine fault?_bind ((fault?_add _ _).trans (firstFault_one _).symm) fun siblings added => ?_
      obtain ⟨-, rfl⟩ := Siblings.add_eq_ok_iff.mp added
      have next := ih (i + 1) (earlier ++ [d])
      rw [typeSiblings, List.map_append] at next
      exact next

end
end Walk

/-- The walk reports the first fault of the checks in source order. -/
theorem fault?_walk (limit : Int) (decls : List Decl) :
    fault? (History.walk limit decls).result = firstFault (itemChecks limit decls) :=
  Walk.fault?_types 0 [] decls

end SchemaHistory
