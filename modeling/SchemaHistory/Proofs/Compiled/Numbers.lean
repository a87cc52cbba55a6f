import SchemaHistory.Proofs.Declaration.Numbers
import SchemaHistory.Proofs.Faults.FactOrigins

/-! # Numbers that a compilation shows

An export shows versions and numbers of the declarations, and so does a rejection, which may also
name the limit.  So what can be said of all numbers of the declarations, of the limit and of the
versions up to it can be said of everything that comes out of a compilation. -/
set_option autoImplicit false
namespace SchemaHistory

/-- The numbers that the message of a cause and its details show. -/
def Cause.Each (p : Int → Prop) : Cause → Prop
  | .aboveLimit version limit => p version ∧ p limit
  | .sharedName name => name.Each p
  | .mixedShapes enumName variantName => enumName.Each p ∧ variantName.Each p
  | .discriminantOrder enumName variantName version =>
    enumName.Each p ∧ variantName.Each p ∧ p version
  | .emptyVersion version => p version
  | .missingType name version => name.Each p ∧ p version
  | _ => True

def Rejection.Each (p : Int → Prop) : Rejection → Prop
  | .diagnostic d => d.cause.Each p
  | .unusableName => True
  | .misplacedFields => True

section
variable {p : Int → Prop}

/-! ## Excerpts -/

theorem Field.each_excerpts {version : Int} {l : Lifetime} {fs : List Field}
    (each : ∀ f ∈ fs, f.Each p) : ∀ f ∈ excerpts version l fs, f.Each p := by
  intro f member
  obtain ⟨g, inside, -, rfl⟩ := mem_excerpts.mp member
  exact ⟨(each g inside).name, (each g inside).type, by rintro _ ⟨⟩⟩

theorem Variant.Each.excerpt {version : Int} {l : Lifetime} {v : Variant} (each : v.Each p) :
    (v.excerpt version l).Each p := by
  refine ⟨each.name, ?_, by rintro _ ⟨⟩⟩
  have carried := each.payload
  obtain ⟨name, payload, header, position⟩ := v
  cases payload with
  | struct fs => exact Field.each_excerpts carried
  | unit => trivial
  | int discriminant => exact carried
  | tuple ts => exact carried

theorem Decl.Each.excerpt {version : Int} {d : Decl} (each : d.Each p) :
    (d.excerpt version).Each p := by
  refine ⟨each.name, ?_, by rintro _ ⟨⟩⟩
  have members := each.body
  obtain ⟨name, body, header, position⟩ := d
  cases body with
  | record node fs => exact Field.each_excerpts members
  | enum vs =>
      intro v member
      obtain ⟨w, inside, -, rfl⟩ := Variant.mem_excerpts.mp member
      exact (members w inside).excerpt

theorem each_excerpt {version : Int} {decls : List Decl} (each : ∀ d ∈ decls, d.Each p) :
    ∀ d ∈ excerpt version decls, d.Each p := by
  intro d member
  obtain ⟨e, inside, -, rfl⟩ := mem_excerpt.mp member
  exact (each e inside).excerpt

/-! ## Parts -/

theorem Payload.Each.fields {payload : Payload} (each : payload.Each p) :
    ∀ f ∈ payload.fields, f.Each p := by
  cases payload with
  | struct fs => exact each
  | _ => exact List.forall_mem_nil _

section
variable {d : Decl}

theorem Decl.Each.fields (each : d.Each p) : ∀ f ∈ d.fields, f.Each p := by
  have inside := each.body
  obtain ⟨name, body, header, position⟩ := d
  cases body with
  | record node fs => exact inside
  | enum vs => exact List.forall_mem_nil _

theorem Decl.Each.variants (each : d.Each p) : ∀ v ∈ d.variants, v.Each p := by
  have inside := each.body
  obtain ⟨name, body, header, position⟩ := d
  cases body with
  | record node fs => exact List.forall_mem_nil _
  | enum vs => exact inside

theorem Decl.Each.expressions (each : d.Each p) : ∀ t ∈ d.expressions, t.Each p := by
  intro t member
  rcases List.mem_append.mp member with own | carried
  · obtain ⟨f, inside, rfl⟩ := List.mem_map.mp own
    exact (each.fields f inside).type
  · obtain ⟨v, inside, own⟩ := List.mem_flatMap.mp carried
    have payload := (each.variants v inside).payload
    unfold Variant.expressions at own
    split at own
    · rename_i ts shape
      rw [shape] at payload
      exact payload t own
    · rename_i fs shape
      rw [shape] at payload
      obtain ⟨f, field, rfl⟩ := List.mem_map.mp own
      exact (payload f field).type
    · cases own

end

theorem each_items {decls : List Decl} (each : ∀ d ∈ decls, d.Each p) :
    ∀ item ∈ items decls, ∀ h ∈ item.header, h.Each p := by
  rw [forall_items_iff (P := fun header _ => ∀ h ∈ header, h.Each p)]
  intro d declared
  have own := each d declared
  exact ⟨own.header, fun f field => (own.fields f field).header, fun v variant =>
    ⟨(own.variants v variant).header, fun f field =>
      ((own.variants v variant).payload.fields f field).header⟩⟩

namespace TypeExpr

mutual

theorem each_names : (t : TypeExpr) → t.Each p → ∀ name ∈ t.names, name.Each p
  | .primitive _ _, _ => List.forall_mem_nil _
  | .named name _, each => by
      cases each with
      | named own => exact List.forall_mem_singleton.mpr own
  | .optional inner _, each => by
      cases each with
      | optional each => exact each_names inner each
  | .reference inner _, each => by
      cases each with
      | reference each => exact each_names inner each
  | .array inner _ _, each => by
      cases each with
      | array each _ => exact each_names inner each
  | .slice inner _, each => by
      cases each with
      | slice each => exact each_names inner each
  | .tuple items _, each => by
      cases each with
      | tuple each => exact each_namesOfAll items each

theorem each_namesOfAll : (items : List TypeExpr) → (∀ t ∈ items, t.Each p) →
    ∀ name ∈ namesOfAll items, name.Each p
  | [], _ => List.forall_mem_nil _
  | item :: items, each => by
      obtain ⟨own, others⟩ := List.forall_mem_cons.mp each
      exact List.forall_mem_append.mpr ⟨each_names item own, each_namesOfAll items others⟩

end
end TypeExpr

/-! ## Exports -/

theorem TypeExpr.Each.form {t : TypeExpr} (each : t.Each p) : t.form.Each p := by
  cases each with
  | named own => exact own
  | _ => exact .str

theorem Snapshot.each_fieldsMember {fs : List Field} (each : ∀ f ∈ fs, f.Each p) :
    (fieldsMember fs).2.Each p := by
  refine .arr (List.forall_mem_map.mpr fun f inside => ?_)
  exact Json.each_pair (each f inside).name (each f inside).type.form

theorem Variant.Each.shown {v : Variant} (each : v.Each p) : v.shown.Each p := by
  refine .obj (List.forall_mem_cons.mpr ⟨each.name, ?_⟩)
  have carried := each.payload
  unfold shownPayload
  cases payload : v.payload with
  | unit => exact List.forall_mem_nil _
  | int n =>
      rw [payload] at carried
      exact List.forall_mem_singleton.mpr (.int carried)
  | tuple ts =>
      rw [payload] at carried
      exact List.forall_mem_singleton.mpr
        (.arr (List.forall_mem_map.mpr fun t inside => (carried t inside).form))
  | struct fs =>
      rw [payload] at carried
      exact List.forall_mem_singleton.mpr (Snapshot.each_fieldsMember carried)

theorem Decl.Each.shown {d : Decl} (each : d.Each p) : d.shown.Each p := by
  have members : d.shownMembers.2.Each p := by
    have inside := each.body
    unfold shownMembers
    cases body : d.body with
    | record node fs =>
        rw [body] at inside
        exact Snapshot.each_fieldsMember inside
    | enum vs =>
        rw [body] at inside
        exact .arr (List.forall_mem_map.mpr fun v member => (inside v member).shown)
  have rest := Json.each_obj.mp (Json.each_pair (m := ("kind", .str d.kind.name)) .str members)
  exact .obj (List.forall_mem_cons.mpr ⟨each.name, rest⟩)

theorem lastVersion_le_limit {limit : Int} {decls : List Decl}
    (accepted : Accepted limit decls) : lastVersion decls ≤ max 1 limit := by
  have within := (resolvesWithin_all_iff.mp accepted.resolves).2
  exact lastVersion_le (le_max_left _ _) fun n member => le_max_of_le_right (within n member)

/-! ## Rejections -/

section
variable {limit : Int} {decls : List Decl} (each : ∀ d ∈ decls, d.Each p)
include each

theorem ItemOrigin.each_cause {d : Diagnostic} (bound : p limit)
    (origin : ItemOrigin limit decls d) : d.cause.Each p := by
  cases origin with
  | header member own faulty =>
      have header := each_items each _ member _ own
      cases faulty with
      | addAboveLimit own _ => exact ⟨header.added _ own, bound⟩
      | remAboveLimit own _ => exact ⟨header.removed _ own, bound⟩
      | _ => trivial
  | typeName earlier => exact (each _ earlier.mem).name
  | fieldName fields earlier =>
      cases fields with
      | type declared => exact ((each _ declared).fields _ earlier.mem).name
      | variant declared member =>
          exact (((each _ declared).variants _ member).payload.fields _ earlier.mem).name
  | variantName declared earlier => exact ((each _ declared).variants _ earlier.mem).name
  | shape declared earlier =>
      exact ⟨(each _ declared).name, ((each _ declared).variants _ earlier.mem).name⟩

/-- What the checks of one version find. -/
theorem each_of_versionChecks {version : Int} {r : Rejection} (own : p version)
    (found : some r ∈ versionChecks version decls) : r.Each p := by
  rcases List.mem_cons.mp found with empty | found
  · split_ifs at empty
    cases empty
    exact own
  rcases References.mem_checksOf found with fault | ⟨use, name, isNode, -, -, -, judged⟩ |
    ⟨use, uses, -, rfl⟩
  · obtain ⟨d, declared, member⟩ := List.mem_flatMap.mp fault
    rcases Decl.mem_orderedFacts member with same | ⟨v, n, outOfOrder, same⟩ | ⟨o, -, refused⟩
    · unfold Fact.definition at same
      split at same <;> cases same
      trivial
    · cases same
      obtain ⟨before, after, -, split, -⟩ := outOfOrder
      have variant : v ∈ d.variants := by
        rw [split]
        exact List.mem_append_right _ List.mem_cons_self
      exact ⟨(each d declared).name, ((each d declared).variants v variant).name, own⟩
    · cases refused <;> trivial
  · rcases References.judge_eq_error judged with ⟨-, -, rfl⟩ | ⟨-, -, rfl⟩
    · trivial
    · trivial
  · obtain ⟨d, declared, member⟩ := List.mem_flatMap.mp uses
    rcases Decl.mem_orderedFacts member with same | ⟨v, n, -, same⟩ | occurs
    · unfold Fact.definition at same
      split at same <;> cases same
    · cases same
    · obtain ⟨t, expression, inside⟩ := List.mem_flatMap.mp occurs
      exact ⟨TypeExpr.each_names t ((each d declared).expressions t expression) _
        (TypeExpr.name_of_occurrence t inside), own⟩

/-! ## Compilations -/

variable (versions : ∀ version : Int, 1 ≤ version → version ≤ max 1 limit → p version)
include versions

theorem Compiled.each_json {c : Compiled} (compiled : ofDeclarations limit decls = .ok c) :
    c.json.Each p := by
  obtain ⟨accepted, -, rfl⟩ := ofDeclarations_eq_ok_iff.mp compiled
  refine .obj (List.forall_mem_singleton.mpr (.arr (List.forall_mem_map.mpr fun s member => ?_)))
  obtain ⟨version, first, last, rfl⟩ := History.mem_layouts_iff.mp member
  rw [Snapshot.json_layout]
  have number := versions version first (last.trans (lastVersion_le_limit accepted))
  exact Json.each_pair (.int number)
    (.arr (List.forall_mem_map.mpr fun d inside => (each_excerpt each d inside).shown))

theorem Compiled.each_rejected {r : Rejection} (bound : p limit)
    (rejected : ofDeclarations limit decls = .error r) : r.Each p := by
  rcases bind_eq_error_iff.mp rejected with item | ⟨snapshots, built, rejected⟩
  · rw [← fault?_eq_some_iff, fault?_history] at item
    obtain ⟨check, member, own⟩ := List.mem_map.mp (mem_of_firstFault item)
    obtain ⟨diagnostic, rfl, rfl⟩ := Option.map_eq_some_iff.mp own
    exact (mem_itemChecks member).each_cause each bound
  · obtain ⟨accepted, rfl⟩ := History.ofDeclarations_eq_ok_iff.mp (mapError_eq_ok_iff.mp built)
    rcases bind_eq_error_iff.mp rejected with inVersion | ⟨-, -, exported⟩
    · rw [History.layouts_eq_map, ← fault?_eq_some_iff, fault?_checkSnapshots] at inVersion
      obtain ⟨version, member, own⟩ := List.mem_flatMap.mp (mem_of_firstFault inVersion)
      obtain ⟨first, last⟩ := mem_versionsOf.mp member
      have number := versions version first (last.trans (lastVersion_le_limit accepted))
      exact each_of_versionChecks (each_excerpt each) number own
    · dsimp only at exported
      split at exported <;> cases exported
      trivial

end
end
end SchemaHistory
