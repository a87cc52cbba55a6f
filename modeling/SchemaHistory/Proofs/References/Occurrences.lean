import Mathlib.Data.List.Basic
import SchemaHistory.References

/-! # Occurrences in type expressions

`TypeExpr.occurrences` lists an expression and everything inside of it, each with the remark whether
it stands directly inside of `ref<>`.  `WellPlaced` is the rule for one occurrence, and the facts of
an expression hold exactly when all its occurrences are well placed (`facts_hold_iff`).  Names have
to be texts here, as other values cannot always be looked up. -/
set_option autoImplicit false
namespace SchemaHistory

namespace TypeExpr

mutual

/-- What stands inside of an expression; the mark says whether directly inside of `ref<>`. -/
def inside : TypeExpr → List (Bool × TypeExpr)
  | .primitive _ _ => []
  | .named _ _ => []
  | .optional inner _ => (false, inner) :: inside inner
  | .reference inner _ => (true, inner) :: inside inner
  | .array inner _ _ => (false, inner) :: inside inner
  | .slice inner _ => (false, inner) :: inside inner
  | .tuple items _ => insideAll items

def insideAll : List TypeExpr → List (Bool × TypeExpr)
  | [] => []
  | item :: items => (false, item) :: inside item ++ insideAll items

end

def occurrences (t : TypeExpr) : List (Bool × TypeExpr) := (false, t) :: inside t

mutual

def names : TypeExpr → List Json
  | .primitive _ _ => []
  | .named name _ => [name]
  | .optional inner _ => names inner
  | .reference inner _ => names inner
  | .array inner _ _ => names inner
  | .slice inner _ => names inner
  | .tuple items _ => namesOfAll items

def namesOfAll : List TypeExpr → List Json
  | [] => []
  | item :: items => names item ++ namesOfAll items

end

def HasTextNames (t : TypeExpr) : Prop := ∀ name ∈ t.names, name.isText = true

instance (t : TypeExpr) : Decidable t.HasTextNames :=
  inferInstanceAs (Decidable (∀ name ∈ t.names, name.isText = true))

def IsAny (t : TypeExpr) : Prop := ∃ p, t = .primitive .any p

def IsNamed (t : TypeExpr) : Prop := ∃ name p, t = .named name p

/-- The rule for an occurrence of `t`, directly inside of `ref<>` or not, where `declared` says
which names stand for nodes and which ones for other types. -/
structure WellPlaced (declared : Json → Bool → Prop) (inReference : Bool) (t : TypeExpr) :
    Prop where
  any : t.IsAny → inReference = true
  target : inReference = true → t.IsAny ∨ t.IsNamed
  name : ∀ name p, t = .named name p → declared name inReference

section
variable {declared : Json → Bool → Prop} {inReference : Bool}

theorem wellPlaced_primitive {kind : Primitive} {p : Option Position} :
    WellPlaced declared inReference (.primitive kind p) ↔ (kind = .any ↔ inReference = true) := by
  constructor
  · intro placed
    constructor
    · rintro rfl
      exact placed.any ⟨p, rfl⟩
    · intro inside
      rcases placed.target inside with ⟨q, same⟩ | ⟨name, q, same⟩
      · cases same
        rfl
      · cases same
  · intro rule
    refine ⟨?_, fun inside => .inl ⟨p, by rw [rule.mpr inside]⟩, fun name q same => nomatch same⟩
    intro any
    rcases any with ⟨q, same⟩
    cases same
    exact rule.mp rfl

theorem wellPlaced_named {name : Json} {p : Option Position} :
    WellPlaced declared inReference (.named name p) ↔ declared name inReference := by
  constructor
  · exact fun placed => placed.name name p rfl
  · intro known
    refine ⟨fun ⟨q, same⟩ => (nomatch same), fun _ => .inr ⟨name, p, rfl⟩, ?_⟩
    rintro other q same
    cases same
    exact known

/-- Nothing else may stand directly inside of `ref<>`, and everywhere else it may. -/
theorem wellPlaced_other {t : TypeExpr} (notAny : ¬t.IsAny) (notNamed : ¬t.IsNamed) :
    WellPlaced declared inReference t ↔ inReference = false := by
  constructor
  · intro placed
    by_contra inside
    rcases placed.target ((Bool.not_eq_false _).mp inside) with any | named
    · exact notAny any
    · exact notNamed named
  · rintro rfl
    refine ⟨fun any => absurd any notAny, fun inside => (nomatch inside), ?_⟩
    intro name p same
    exact absurd ⟨name, p, same⟩ notNamed

end
end TypeExpr

namespace Fact

/-- A fact that is no fault and, if it is a use, uses a declared name as it must be used. -/
def Holds (declared : Json → Bool → Prop) : Fact → Prop
  | .defines _ _ => True
  | .uses use => declared use.name use.inReference
  | .fault _ => False

theorem forall_holds_iff {declared : Json → Bool → Prop} {facts : List Fact} :
    (∀ fact ∈ facts, fact.Holds declared) ↔ (∀ r, .fault r ∉ facts) ∧
      ∀ use, .uses use ∈ facts → declared use.name use.inReference := by
  constructor
  · intro holds
    exact ⟨fun r member => holds _ member, fun use member => holds _ member⟩
  · intro holds fact member
    rcases holds with ⟨faultless, known⟩
    cases fact with
    | defines name isNode => trivial
    | uses use => exact known use member
    | fault r => exact faultless r member

theorem ofUse_text {name : Json} {position : Option Position} {inReference : Bool}
    (text : name.isText = true) :
    ofUse ⟨name, position, inReference⟩ = .uses ⟨name, position, inReference⟩ := by
  cases name with
  | str s => rfl
  | null => cases text
  | bool b => cases text
  | int n => cases text
  | real x => cases text
  | arr items => cases text
  | obj members => cases text

end Fact

namespace TypeExpr
variable {declared : Json → Bool → Prop}

theorem facts_primitive (kind : Primitive) (p : Option Position) :
    facts (.primitive kind p) = if kind = .any then [.wrong .bareAny p] else [] := by
  cases kind <;> rfl

/-- The facts about what stands directly inside of `ref<>`. -/
theorem targetFacts_hold_iff {t : TypeExpr} (texts : t.HasTextNames) :
    (∀ f ∈ targetFacts t, f.Holds declared) ↔
      WellPlaced declared true t ∧ ∀ o ∈ inside t, WellPlaced declared o.1 o.2 := by
  cases t with
  | primitive kind p =>
      rw [wellPlaced_primitive]
      cases kind <;> simp [targetFacts, inside, Fact.wrong, Fact.Holds]
  | named name p =>
      rw [wellPlaced_named]
      have text := texts name (by simp [names])
      simp [targetFacts, inside, Fact.ofUse_text text, Fact.Holds]
  | optional inner p => simp [targetFacts, Fact.wrong, Fact.Holds, wellPlaced_other, IsAny, IsNamed]
  | reference inner p =>
      simp [targetFacts, Fact.wrong, Fact.Holds, wellPlaced_other, IsAny, IsNamed]
  | array inner size p =>
      simp [targetFacts, Fact.wrong, Fact.Holds, wellPlaced_other, IsAny, IsNamed]
  | slice inner p => simp [targetFacts, Fact.wrong, Fact.Holds, wellPlaced_other, IsAny, IsNamed]
  | tuple items p => simp [targetFacts, Fact.wrong, Fact.Holds, wellPlaced_other, IsAny, IsNamed]

mutual

/-- The facts of an expression hold when all its occurrences are well placed. -/
theorem facts_hold_iff : (t : TypeExpr) → t.HasTextNames →
    ((∀ f ∈ facts t, f.Holds declared) ↔ ∀ o ∈ occurrences t, WellPlaced declared o.1 o.2)
  | .primitive kind p, _ => by
      rw [facts_primitive]
      by_cases any : kind = .any
      · simp [any, occurrences, inside, wellPlaced_primitive, Fact.wrong, Fact.Holds]
      · simp [any, occurrences, inside, wellPlaced_primitive]
  | .named name p, texts => by
      have text := texts name (by simp [names])
      simp [facts, occurrences, inside, wellPlaced_named,
        Fact.ofUse_text text, Fact.Holds]
  | .optional inner p, texts => by
      have outer : WellPlaced declared false (.optional inner p) := by
        simp [wellPlaced_other, IsAny, IsNamed]
      rw [facts, facts_hold_iff inner texts]
      simp [occurrences, inside, outer]
  | .reference inner p, texts => by
      have outer : WellPlaced declared false (.reference inner p) := by
        simp [wellPlaced_other, IsAny, IsNamed]
      rw [facts, targetFacts_hold_iff (t := inner) texts]
      simp [occurrences, inside, outer]
  | .array inner size p, texts => by
      have outer : WellPlaced declared false (.array inner size p) := by
        simp [wellPlaced_other, IsAny, IsNamed]
      rw [facts, facts_hold_iff inner texts]
      simp [occurrences, inside, outer]
  | .slice inner p, texts => by
      have outer : WellPlaced declared false (.slice inner p) := by
        simp [wellPlaced_other, IsAny, IsNamed]
      rw [facts, facts_hold_iff inner texts]
      simp [occurrences, inside, outer]
  | .tuple items p, texts => by
      have outer : WellPlaced declared false (.tuple items p) := by
        simp [wellPlaced_other, IsAny, IsNamed]
      rw [facts, factsOfAll_hold_iff items texts]
      simp only [occurrences, inside, List.forall_mem_cons]
      exact (and_iff_right outer).symm

theorem factsOfAll_hold_iff : (ts : List TypeExpr) → (∀ name ∈ namesOfAll ts, name.isText = true) →
    ((∀ f ∈ factsOfAll ts, f.Holds declared) ↔ ∀ o ∈ insideAll ts, WellPlaced declared o.1 o.2)
  | [], _ => by simp [factsOfAll, insideAll]
  | item :: items, texts => by
      have own : item.HasTextNames :=
        fun name member => texts name (List.mem_append_left _ member)
      have rest : ∀ name ∈ namesOfAll items, name.isText = true :=
        fun name member => texts name (List.mem_append_right _ member)
      rw [factsOfAll, insideAll]
      simp only [List.forall_mem_append]
      rw [facts_hold_iff item own, factsOfAll_hold_iff items rest]
      rfl

end

theorem namesOfAll_eq_flatMap (ts : List TypeExpr) : namesOfAll ts = ts.flatMap names := by
  induction ts with
  | nil => rfl
  | cons t rest ih => rw [namesOfAll, ih, List.flatMap_cons]

/-! ## Expressions define nothing -/

theorem defines_ne_ofUse (name : Json) (isNode : Bool) (use : Use) :
    Fact.defines name isNode ≠ .ofUse use := by
  unfold Fact.ofUse
  split_ifs <;> exact Fact.noConfusion

theorem defines_not_mem_targetFacts (name : Json) (isNode : Bool) (t : TypeExpr) :
    .defines name isNode ∉ targetFacts t := by
  cases t with
  | primitive kind p => cases kind <;> simp [targetFacts, Fact.wrong]
  | named other p => simp [targetFacts, defines_ne_ofUse]
  | optional inner p => simp [targetFacts, Fact.wrong]
  | reference inner p => simp [targetFacts, Fact.wrong]
  | array inner size p => simp [targetFacts, Fact.wrong]
  | slice inner p => simp [targetFacts, Fact.wrong]
  | tuple items p => simp [targetFacts, Fact.wrong]

mutual

theorem defines_not_mem_facts (name : Json) (isNode : Bool) :
    (t : TypeExpr) → .defines name isNode ∉ facts t
  | .primitive kind p => by
      rw [facts_primitive]
      split_ifs <;> simp [Fact.wrong]
  | .named other p => by simp [facts, defines_ne_ofUse]
  | .optional inner _ => defines_not_mem_facts name isNode inner
  | .reference inner _ => defines_not_mem_targetFacts name isNode inner
  | .array inner _ _ => defines_not_mem_facts name isNode inner
  | .slice inner _ => defines_not_mem_facts name isNode inner
  | .tuple items _ => defines_not_mem_factsOfAll name isNode items

theorem defines_not_mem_factsOfAll (name : Json) (isNode : Bool) :
    (ts : List TypeExpr) → .defines name isNode ∉ factsOfAll ts
  | [] => List.not_mem_nil
  | item :: items => by
      rw [factsOfAll, List.mem_append, not_or]
      exact ⟨defines_not_mem_facts name isNode item, defines_not_mem_factsOfAll name isNode items⟩

end

/-! ## Expressions with text names can be written -/

theorem isText_form {t : TypeExpr} (texts : t.HasTextNames) : t.form.isText = true := by
  cases t with
  | named name p => exact texts name (by simp [names])
  | primitive kind p => rfl
  | optional inner p => rfl
  | reference inner p => rfl
  | array inner size p => rfl
  | slice inner p => rfl
  | tuple items p => rfl

mutual

theorem isWritable_of_texts : (t : TypeExpr) → t.HasTextNames → t.isWritable = true
  | .primitive _ _, _ => rfl
  | .named _ _, _ => rfl
  | .optional inner _, texts => isWritable_of_texts inner texts
  | .reference inner _, texts => isWritable_of_texts inner texts
  | .array inner _ _, texts => isWritable_of_texts inner texts
  | .slice inner _, texts => isWritable_of_texts inner texts
  | .tuple items _, texts => areJoinable_of_texts items texts

theorem areJoinable_of_texts : (ts : List TypeExpr) →
    (∀ name ∈ namesOfAll ts, name.isText = true) → areJoinable ts = true
  | [], _ => rfl
  | item :: items, texts => by
      have own : item.HasTextNames :=
        fun name member => texts name (List.mem_append_left _ member)
      have rest := areJoinable_of_texts items
        fun name member => texts name (List.mem_append_right _ member)
      simp only [areJoinable, isWritable_of_texts item own, isText_form own, rest, Bool.and_self]

end

end TypeExpr
end SchemaHistory
