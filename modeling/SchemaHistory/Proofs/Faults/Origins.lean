import SchemaHistory.Proofs.Compiled.WellFormed
import SchemaHistory.Proofs.Faults.First

/-! # Where the rejections of items come from

A check of an item that finds something points back into the schema: to a version in the header of
the item (`Header.Faulty`), or to an earlier sibling in its way (`HasEarlier`).  `ItemOrigin` lists
the ways, and `mem_itemChecks` says that there are no others. -/
set_option autoImplicit false
namespace SchemaHistory

section
variable {α β : Type}

theorem mem_checksAfter {checks : List α → α → List β} {before xs : List α} {check : β} :
    check ∈ checksAfter checks before xs ↔
      ∃ front x back, xs = front ++ x :: back ∧ check ∈ checks (before ++ front) x := by
  induction xs generalizing before with
  | nil => exact ⟨nofun, fun ⟨front, x, back, split, _⟩ => by cases front <;> cases split⟩
  | cons y rest ih =>
      rw [checksAfter, List.mem_append, ih]
      constructor
      · rintro (own | ⟨front, x, back, rfl, later⟩)
        · exact ⟨[], y, rest, rfl, by rwa [List.append_nil]⟩
        · exact ⟨y :: front, x, back, rfl, by rwa [List.append_assoc] at later⟩
      · rintro ⟨front, x, back, split, found⟩
        cases front with
        | nil =>
            cases split
            rw [List.append_nil] at found
            exact .inl found
        | cons z front =>
            cases split
            exact .inr ⟨front, x, back, rfl, by rwa [List.append_assoc]⟩

end

/-! ## Headers -/

namespace Header

def start (container : Option Lifetime) (h : Header) : Int :=
  (h.added.map Located.value).getD (container.elim 1 Lifetime.added)

/-- A version of the header with its keyword, and why it is rejected. -/
inductive Faulty (limit : Int) (container : Option Lifetime) (h : Header) :
    Text → Literal → Cause → Prop
  | addBelowOne {n : Literal} (own : h.added = some n) (low : n.value < 1) :
      Faulty limit container h "add" n .addBelowOne
  | addBeforeContainer {n : Literal} {c : Lifetime} (own : h.added = some n)
      (inside : container = some c) (early : n.value < c.added) :
      Faulty limit container h "add" n .addBeforeContainer
  | addAfterContainer {n : Literal} {c : Lifetime} {m : Int} (own : h.added = some n)
      (inside : container = some c) (ends : c.removed = some m) (late : m ≤ n.value) :
      Faulty limit container h "add" n .addAfterContainer
  | remBelowTwo {n : Literal} (own : h.removed = some n) (low : n.value < 2) :
      Faulty limit container h "rem" n .remBelowTwo
  | remNotAfterAdd {n : Literal} (own : h.removed = some n)
      (early : n.value ≤ h.start container) : Faulty limit container h "rem" n .remNotAfterAdd
  | remAfterContainer {n : Literal} {c : Lifetime} {m : Int} (own : h.removed = some n)
      (inside : container = some c) (ends : c.removed = some m) (late : m < n.value) :
      Faulty limit container h "rem" n .remAfterContainer
  | addAboveLimit {n : Literal} (own : h.added = some n) (above : limit < n.value) :
      Faulty limit container h "add" n (.aboveLimit n.value limit)
  | remAboveLimit {n : Literal} (own : h.removed = some n) (above : limit < n.value) :
      Faulty limit container h "rem" n (.aboveLimit n.value limit)

def Blames (limit : Int) (container : Option Lifetime) (h : Header) (d : Diagnostic) : Prop :=
  ∃ keyword n, h.Faulty limit container keyword n d.cause ∧ d.position = n.position

end Header

theorem exists_of_not_before {n : Int} {end_ : Option Int} (outside : ¬Lifetime.Before n end_) :
    ∃ m, end_ = some m ∧ m ≤ n := by
  cases end_ with
  | none => exact absurd trivial outside
  | some m => exact ⟨m, rfl, not_lt.mp outside⟩

section
variable {limit : Int} {d : Diagnostic}

namespace Lifetime

theorem innerAdded_eq_error {c : Lifetime} {h : Header}
    (rejected : innerAdded c h.added = .error d) : h.Blames limit (some c) d := by
  cases own : h.added with
  | none =>
      rw [own] at rejected
      cases rejected
  | some n =>
      rw [own, innerAdded] at rejected
      split_ifs at rejected with low early before <;> cases rejected
      · exact ⟨_, n, .addBelowOne own low, rfl⟩
      · exact ⟨_, n, .addBeforeContainer own rfl early, rfl⟩
      · obtain ⟨m, ends, late⟩ := exists_of_not_before before
        exact ⟨_, n, .addAfterContainer own rfl ends late, rfl⟩

theorem innerAdded_eq_start {c : Lifetime} {h : Header} {added : Int}
    (accepted : innerAdded c h.added = .ok added) : h.start (some c) = added := by
  cases own : h.added with
  | none =>
      rw [own] at accepted
      cases accepted
      rw [Header.start, own]
      rfl
  | some n =>
      rw [own, innerAdded] at accepted
      split_ifs at accepted
      cases accepted
      rw [Header.start, own]
      rfl

theorem innerRemoved_eq_error {c : Lifetime} {h : Header}
    (rejected : innerRemoved c (h.start (some c)) h.removed = .error d) :
    h.Blames limit (some c) d := by
  cases own : h.removed with
  | none =>
      rw [own] at rejected
      cases rejected
  | some n =>
      rw [own, innerRemoved] at rejected
      split_ifs at rejected with low early before <;> cases rejected
      · exact ⟨_, n, .remBelowTwo own low, rfl⟩
      · exact ⟨_, n, .remNotAfterAdd own early, rfl⟩
      · obtain ⟨m, ends, late⟩ := exists_of_not_before before
        exact ⟨_, n, .remAfterContainer own rfl ends (by omega), rfl⟩

theorem topAdded_eq_error {h : Header} (rejected : topAdded h.added = .error d) :
    h.Blames limit none d := by
  cases own : h.added with
  | none =>
      rw [own] at rejected
      cases rejected
  | some n =>
      rw [own, topAdded] at rejected
      split_ifs at rejected with low
      cases rejected
      exact ⟨_, n, .addBelowOne own low, rfl⟩

theorem topAdded_eq_start {h : Header} {added : Int} (accepted : topAdded h.added = .ok added) :
    h.start none = added := by
  cases own : h.added with
  | none =>
      rw [own] at accepted
      cases accepted
      rw [Header.start, own]
      rfl
  | some n =>
      rw [own, topAdded] at accepted
      split_ifs at accepted
      cases accepted
      rw [Header.start, own]
      rfl

theorem topRemoved_eq_error {h : Header}
    (rejected : topRemoved (h.start none) h.removed = .error d) : h.Blames limit none d := by
  cases own : h.removed with
  | none =>
      rw [own] at rejected
      cases rejected
  | some n =>
      rw [own, topRemoved] at rejected
      split_ifs at rejected with early
      cases rejected
      exact ⟨_, n, .remNotAfterAdd own early, rfl⟩

theorem resolve_eq_error {header : Option Header} {container : Option Lifetime}
    (rejected : resolve header container = .error d) :
    ∃ h, header = some h ∧ h.Blames limit container d := by
  cases header with
  | none => cases container <;> cases rejected
  | some h =>
      refine ⟨h, rfl, ?_⟩
      cases container with
      | none =>
          rcases bind_eq_error_iff.mp rejected with added | ⟨a, added, rejected⟩
          · exact topAdded_eq_error added
          · obtain rfl := topAdded_eq_start added
            rcases bind_eq_error_iff.mp rejected with removed | ⟨r, -, ⟨⟩⟩
            exact topRemoved_eq_error removed
      | some c =>
          rcases bind_eq_error_iff.mp rejected with added | ⟨a, added, rejected⟩
          · exact innerAdded_eq_error added
          · obtain rfl := innerAdded_eq_start added
            rcases bind_eq_error_iff.mp rejected with removed | ⟨r, -, ⟨⟩⟩
            exact innerRemoved_eq_error removed

end Lifetime

theorem limitCheck_eq_some {n : Option Literal} (found : limitCheck limit n = some d) :
    ∃ m, n = some m ∧ limit < m.value ∧ d = ⟨.aboveLimit m.value limit, m.position⟩ := by
  cases n with
  | none => cases found
  | some m =>
      rw [limitCheck] at found
      split_ifs at found with above
      cases found
      exact ⟨m, rfl, above, rfl⟩

theorem mem_headerChecks {header : Option Header} {container : Option Lifetime}
    (found : some d ∈ headerChecks limit header container) :
    ∃ h, header = some h ∧ h.Blames limit container d := by
  simp only [headerChecks, List.mem_cons, List.not_mem_nil, or_false] at found
  rcases found with added | removed | resolved
  · obtain ⟨m, own, above, rfl⟩ := limitCheck_eq_some added.symm
    obtain ⟨h, rfl, own⟩ := Option.bind_eq_some_iff.mp own
    exact ⟨h, rfl, _, m, .addAboveLimit own above, rfl⟩
  · obtain ⟨m, own, above, rfl⟩ := limitCheck_eq_some removed.symm
    obtain ⟨h, rfl, own⟩ := Option.bind_eq_some_iff.mp own
    exact ⟨h, rfl, _, m, .remAboveLimit own above, rfl⟩
  · exact Lifetime.resolve_eq_error (fault?_eq_some_iff.mp resolved.symm)

/-! ## Names and shapes -/

theorem nameCheck_eq_some {earlier : List Sibling} {item : Sibling}
    (found : nameCheck earlier item = some d) :
    (∃ other ∈ earlier, other.clashes item = true) ∧
      d = ⟨.sharedName item.name, item.position⟩ := by
  unfold nameCheck at found
  split_ifs at found with clash
  cases found
  exact ⟨clash, rfl⟩

theorem shapeCheck_eq_some {enumName : Json} {earlier : List Variant} {v : Variant}
    (found : shapeCheck enumName earlier v = some d) :
    (∃ u ∈ earlier, Style.conflict u v = true) ∧
      d = ⟨.mixedShapes enumName v.name, v.position⟩ := by
  unfold shapeCheck at found
  split_ifs at found with clash
  cases found
  exact ⟨clash, rfl⟩

/-- In front of `x` stands an element of the list that is in conflict with it. -/
def HasEarlier {α : Type} (conflict : α → α → Bool) (xs : List α) (x : α) : Prop :=
  ∃ before after, xs = before ++ x :: after ∧ ∃ other ∈ before, conflict other x = true

theorem HasEarlier.mem {α : Type} {conflict : α → α → Bool} {xs : List α} {x : α}
    (earlier : HasEarlier conflict xs x) : x ∈ xs := by
  obtain ⟨before, after, rfl, -⟩ := earlier
  exact List.mem_append_right _ List.mem_cons_self

def Decl.clashes (a b : Decl) : Bool :=
  (Walk.ofDecl a a.lifetime).clashes (Walk.ofDecl b b.lifetime)

def Field.clashes (container : Lifetime) (a b : Field) : Bool :=
  (Walk.ofField a (a.lifetime container)).clashes (Walk.ofField b (b.lifetime container))

def Variant.clashes (container : Lifetime) (a b : Variant) : Bool :=
  (Walk.ofVariant a (a.lifetime container)).clashes (Walk.ofVariant b (b.lifetime container))

inductive FieldsOf (decls : List Decl) : Lifetime → List Field → Prop
  | type {e : Decl} (declared : e ∈ decls) : FieldsOf decls e.lifetime e.fields
  | variant {e : Decl} {v : Variant} (declared : e ∈ decls) (member : v ∈ e.variants) :
      FieldsOf decls (v.lifetime e.lifetime) v.payload.fields

inductive ItemOrigin (limit : Int) (decls : List Decl) : Diagnostic → Prop
  | header {item : Item} {h : Header} {keyword : Text} {n : Literal} {cause : Cause}
      (member : item ∈ items decls) (own : item.header = some h)
      (faulty : h.Faulty limit item.container keyword n cause) :
      ItemOrigin limit decls ⟨cause, n.position⟩
  | typeName {e : Decl} (earlier : HasEarlier Decl.clashes decls e) :
      ItemOrigin limit decls ⟨.sharedName e.name, e.position⟩
  | fieldName {container : Lifetime} {fs : List Field} {f : Field}
      (fields : FieldsOf decls container fs)
      (earlier : HasEarlier (Field.clashes container) fs f) :
      ItemOrigin limit decls ⟨.sharedName f.name, f.position⟩
  | variantName {e : Decl} {v : Variant} (declared : e ∈ decls)
      (earlier : HasEarlier (Variant.clashes e.lifetime) e.variants v) :
      ItemOrigin limit decls ⟨.sharedName v.name, v.position⟩
  | shape {e : Decl} {v : Variant} (declared : e ∈ decls)
      (earlier : HasEarlier Style.conflict e.variants v) :
      ItemOrigin limit decls ⟨.mixedShapes e.name v.name, v.position⟩

theorem exists_item {decls : List Decl} {P : Option Header → Option Lifetime → Prop}
    (found : ∃ e ∈ decls, P e.header none ∨ (∃ f ∈ e.fields, P f.header (some e.lifetime)) ∨
      ∃ v ∈ e.variants, P v.header (some e.lifetime) ∨
        ∃ f ∈ v.payload.fields, P f.header (some (v.lifetime e.lifetime))) :
    ∃ item ∈ items decls, P item.header item.container := by
  by_contra none
  have all : ∀ item ∈ items decls, ¬P item.header item.container :=
    fun item member holds => none ⟨item, member, holds⟩
  rw [forall_items_iff (P := fun header container => ¬P header container)] at all
  obtain ⟨e, declared, own | ⟨f, field, holds⟩ | ⟨v, variant, holds | ⟨f, field, holds⟩⟩⟩ := found
  · exact (all e declared).1 own
  · exact (all e declared).2.1 f field holds
  · exact ((all e declared).2.2 v variant).1 holds
  · exact ((all e declared).2.2 v variant).2 f field holds

section
variable {decls : List Decl} {e : Decl}

theorem ItemOrigin.of_header (found : ∃ e ∈ decls, some d ∈ headerChecks limit e.header none ∨
      (∃ f ∈ e.fields, some d ∈ headerChecks limit f.header (some e.lifetime)) ∨
      ∃ v ∈ e.variants, some d ∈ headerChecks limit v.header (some e.lifetime) ∨
        ∃ f ∈ v.payload.fields,
          some d ∈ headerChecks limit f.header (some (v.lifetime e.lifetime))) :
    ItemOrigin limit decls d := by
  obtain ⟨item, member, found⟩ := exists_item (P := fun header container =>
    some d ∈ headerChecks limit header container) found
  obtain ⟨h, own, keyword, n, faulty, place⟩ := mem_headerChecks found
  obtain ⟨cause, position⟩ := d
  subst place
  exact .header member own faulty

theorem mem_fieldChecks {container : Lifetime} {fs : List Field}
    (found : some d ∈ checksAfter (Walk.fieldChecks limit container) [] fs) :
    (∃ f ∈ fs, some d ∈ headerChecks limit f.header (some container)) ∨
      ∃ f, HasEarlier (Field.clashes container) fs f ∧ d = ⟨.sharedName f.name, f.position⟩ := by
  obtain ⟨before, f, after, rfl, own⟩ := mem_checksAfter.mp found
  rcases List.mem_append.mp own with header | name
  · exact .inl ⟨f, List.mem_append_right _ List.mem_cons_self, header⟩
  · obtain ⟨⟨other, earlier, clash⟩, same⟩ := nameCheck_eq_some (List.mem_singleton.mp name).symm
    obtain ⟨g, inside, rfl⟩ := List.mem_map.mp earlier
    exact .inr ⟨f, ⟨before, after, rfl, g, inside, clash⟩, same⟩

theorem ItemOrigin.of_variant (declared : e ∈ decls) {before after : List Variant} {v : Variant}
    (split : e.variants = before ++ v :: after)
    (found : some d ∈ Walk.variantChecks limit e.name e.lifetime before v) :
    ItemOrigin limit decls d := by
  have member : v ∈ e.variants := by
    rw [split]
    exact List.mem_append_right _ List.mem_cons_self
  rcases List.mem_cons.mp found with shape | found
  · obtain ⟨⟨u, earlier, conflict⟩, rfl⟩ := shapeCheck_eq_some shape.symm
    exact .shape declared ⟨before, after, split, u, earlier, conflict⟩
  rcases List.mem_append.mp found with header | found
  · exact .of_header ⟨e, declared, .inr (.inr ⟨v, member, .inl header⟩)⟩
  rcases List.mem_cons.mp found with name | field
  · obtain ⟨⟨other, earlier, clash⟩, rfl⟩ := nameCheck_eq_some name.symm
    obtain ⟨u, inside, rfl⟩ := List.mem_map.mp earlier
    exact .variantName declared ⟨before, after, split, u, inside, clash⟩
  · rcases mem_fieldChecks field with ⟨f, inside, header⟩ | ⟨f, earlier, rfl⟩
    · exact .of_header ⟨e, declared, .inr (.inr ⟨v, member, .inr ⟨f, inside, header⟩⟩)⟩
    · exact .fieldName (.variant declared member) earlier

theorem ItemOrigin.of_members (declared : e ∈ decls) (found : some d ∈ Walk.memberChecks limit e) :
    ItemOrigin limit decls d := by
  obtain ⟨name, body, header, position⟩ := e
  cases body with
  | record node fs =>
      rcases mem_fieldChecks found with ⟨f, inside, header⟩ | ⟨f, earlier, rfl⟩
      · exact .of_header ⟨_, declared, .inr (.inl ⟨f, inside, header⟩)⟩
      · exact .fieldName (.type declared) earlier
  | enum vs =>
      obtain ⟨before, v, after, rfl, own⟩ := mem_checksAfter.mp found
      exact .of_variant declared rfl own

/-- What the checks of the items find comes from an item. -/
theorem mem_itemChecks (found : some d ∈ itemChecks limit decls) : ItemOrigin limit decls d := by
  obtain ⟨before, e, after, rfl, own⟩ := mem_checksAfter.mp found
  have declared : e ∈ before ++ e :: after := List.mem_append_right _ List.mem_cons_self
  rcases List.mem_append.mp own with header | inner
  · exact .of_header ⟨e, declared, .inl header⟩
  rcases List.mem_append.mp inner with member | name
  · exact .of_members declared member
  · obtain ⟨⟨other, earlier, clash⟩, rfl⟩ := nameCheck_eq_some (List.mem_singleton.mp name).symm
    obtain ⟨a, inside, rfl⟩ := List.mem_map.mp earlier
    exact .typeName ⟨before, after, rfl, a, inside, clash⟩

end
end
end SchemaHistory
