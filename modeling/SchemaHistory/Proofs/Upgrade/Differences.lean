import SchemaHistory.Proofs.Upgrade.Accounts
import SchemaHistory.Proofs.Upgrade.Verdict

/-! # The differences between two versions of a schema

What a comparison can see of the items of a schema is read off the declarations and their lifetimes:
`fieldMembers`, `variantMembers` and `typeMembers`.  The comparison of two versions is the report on
the types (`snapshotChanges_eq`), in which the reports on what is inside of a type or of a struct
variant stand in their places.  `Compared` lists the scopes that are compared, and every change that
is reported is about an item of one of them (`changeOf_schemaReport`). -/
set_option autoImplicit false
namespace SchemaHistory.Upgrade

section
variable (old new : Int)

def fieldMember (l : Lifetime) (f : Field) : Member :=
  ⟨f.name, f.type.form, decide (old ∈ f.lifetime l), decide (new ∈ f.lifetime l), []⟩

def fieldMembers (l : Lifetime) (fs : List Field) : List Member := fs.map (fieldMember old new l)

def fieldReport (owner : Text) (l : Lifetime) (fs : List Field) : List Change :=
  report (.field owner) (fieldMembers old new l fs)

def variantMember (enumName : Text) (l : Lifetime) (v : Variant) : Member :=
  ⟨v.name, v.form, decide (old ∈ v.lifetime l), decide (new ∈ v.lifetime l),
    fieldReport old new (Scope.memberPath enumName v.name) (v.lifetime l) v.payload.fields⟩

def variantMembers (enumName : Text) (l : Lifetime) (vs : List Variant) : List Member :=
  vs.map (variantMember old new enumName l)

def variantReport (enumName : Text) (l : Lifetime) (vs : List Variant) : List Change :=
  report (.variant enumName) (variantMembers old new enumName l vs)

def innerReport (d : Decl) : List Change :=
  match d.body with
  | .record _ fs => fieldReport old new d.name.shown d.lifetime fs
  | .enum vs => variantReport old new d.name.shown d.lifetime vs

def typeMember (d : Decl) : Member :=
  ⟨d.name, .str d.kind.name, decide (old ∈ d.lifetime), decide (new ∈ d.lifetime),
    innerReport old new d⟩

def typeMembers (decls : List Decl) : List Member := decls.map (typeMember old new)

def schemaReport (decls : List Decl) : List Change := report .type (typeMembers old new decls)

/-- The scopes that are compared: the types, the members of every type that lives in both versions,
and the fields of every struct variant that does. -/
inductive Compared (decls : List Decl) : Scope → List Member → Prop
  | types : Compared decls .type (typeMembers old new decls)
  | fields {d : Decl} {node : Bool} {fs : List Field} (declared : d ∈ decls)
      (before : old ∈ d.lifetime) (after : new ∈ d.lifetime) (body : d.body = .record node fs) :
      Compared decls (.field d.name.shown) (fieldMembers old new d.lifetime fs)
  | variants {d : Decl} {vs : List Variant} (declared : d ∈ decls) (before : old ∈ d.lifetime)
      (after : new ∈ d.lifetime) (body : d.body = .enum vs) :
      Compared decls (.variant d.name.shown) (variantMembers old new d.name.shown d.lifetime vs)
  | inner {d : Decl} {vs : List Variant} {v : Variant} {fs : List Field} (declared : d ∈ decls)
      (body : d.body = .enum vs) (member : v ∈ vs) (before : old ∈ v.lifetime d.lifetime)
      (after : new ∈ v.lifetime d.lifetime) (payload : v.payload = .struct fs) :
      Compared decls (.field (Scope.memberPath d.name.shown v.name))
        (fieldMembers old new (v.lifetime d.lifetime) fs)

end

/-! ## Comparisons are reports -/

section
variable {old new : Int}

theorem fieldChanges_eq {l : Lifetime} {fs : List Field} (owner : Text)
    (texts : ∀ f ∈ fs, f.name.isText = true)
    (oldDistinct : ((Field.excerpts old l fs).map Field.name).Nodup)
    (newDistinct : ((Field.excerpts new l fs).map Field.name).Nodup) :
    fieldChanges owner fs (Layout.fields old l fs) (Layout.fields new l fs) =
      fieldReport old new owner l fs := by
  rw [fieldChanges, fieldTable_layout, fieldTable_layout]
  exact compare_living (m := fieldMember old new l) (fun _ => rfl) (fun _ => rfl)
    (fun _ => rfl) (fun _ => rfl) (fun _ _ => rfl) (named_fields texts oldDistinct)
    (named_fields texts newDistinct) fun _ _ => rfl

/-- Between the slots of one variant only the fields of a struct variant can change. -/
theorem insideVariant_eq {l : Lifetime} {v : Variant} (enumName : Text) (i : Nat)
    (texts : ∀ f ∈ v.payload.fields, f.name.isText = true)
    (oldDistinct : ((Field.excerpts old (v.lifetime l) v.payload.fields).map Field.name).Nodup)
    (newDistinct : ((Field.excerpts new (v.lifetime l) v.payload.fields).map Field.name).Nodup) :
    insideVariant enumName v.name (Layout.variant old l v i, v) (Layout.variant new l v i, v) =
      fieldReport old new (Scope.memberPath enumName v.name) (v.lifetime l) v.payload.fields := by
  unfold insideVariant Layout.variant
  cases payload : v.payload with
  | struct fs =>
      rw [payload] at texts oldDistinct newDistinct
      exact fieldChanges_eq _ texts oldDistinct newDistinct
  | unit => rfl
  | int discriminant => rfl
  | tuple ts => rfl

section
variable {d : Decl} (texts : d.HasTextNames) (oldDistinct : d.DistinctIn old)
  (newDistinct : d.DistinctIn new)
include texts oldDistinct newDistinct

theorem variantChanges_eq (enumName : Text) :
    variantChanges enumName d.variants (Layout.variants old d.lifetime d.variants)
        (Layout.variants new d.lifetime d.variants) =
      variantReport old new enumName d.lifetime d.variants := by
  rw [variantChanges, variantTable_layout, variantTable_layout]
  refine compare_living (m := variantMember old new enumName d.lifetime) (fun _ => rfl)
    (fun _ => rfl) (fun _ => rfl) (fun _ => rfl) (same_variant old new d.lifetime)
    (named_variants texts.variants oldDistinct.variants)
    (named_variants texts.variants newDistinct.variants) fun e member => ?_
  have inside := List.fst_mem_of_mem_zipIdx member
  exact insideVariant_eq enumName e.2 (texts.inner e.1 inside) (oldDistinct.inner e.1 inside)
    (newDistinct.inner e.1 inside)

theorem insideType_eq (name : Json) (i : Nat) :
    insideType name (⟨i, Layout.members old d⟩, d) (⟨i, Layout.members new d⟩, d) =
      innerReport old new d := by
  obtain ⟨ownName, body, header, position⟩ := d
  cases body with
  | record node fs =>
      have plain : ∀ is : List Nat, (is.map MemberSlot.plain).map MemberSlot.index = is := by
        intro is
        rw [List.map_map]
        exact List.map_id is
      simp only [insideType, Layout.members, plain]
      exact fieldChanges_eq ownName.shown texts.fields oldDistinct.fields newDistinct.fields
  | enum vs => exact variantChanges_eq texts oldDistinct newDistinct ownName.shown

end

theorem snapshotChanges_eq {decls : List Decl} (texts : HasTextNames decls)
    (oldDistinct : DistinctIn old decls) (newDistinct : DistinctIn new decls) :
    snapshotChanges decls (History.layout old decls) (History.layout new decls) =
      schemaReport old new decls := by
  rw [snapshotChanges, typeTable_layout, typeTable_layout]
  refine compare_living (m := typeMember old new) (fun _ => rfl) (fun _ => rfl) (fun _ => rfl)
    (fun _ => rfl) (fun _ _ => rfl) (named_types texts oldDistinct.types)
    (named_types texts newDistinct.types) fun e member => ?_
  have inside := List.fst_mem_of_mem_zipIdx member
  exact insideType_eq (texts e.1 inside) (oldDistinct.members e.1 inside)
    (newDistinct.members e.1 inside) e.1.name e.2

/-! ## Names in a scope -/

theorem apart_of_excerpts {α : Type} {m : α → Member} {name : α → Json} {xs : List α}
    (names : ∀ x, (m x).name = name x)
    (oldDistinct : ((xs.filter fun x => (m x).inOld).map name).Nodup)
    (newDistinct : ((xs.filter fun x => (m x).inNew).map name).Nodup) : Apart (xs.map m) := by
  have shown (lives : Member → Bool) :
      ((xs.map m).filter lives).map Member.name = (xs.filter fun x => lives (m x)).map name := by
    rw [List.filter_map, List.map_map]
    exact List.map_congr_left fun x _ => names x
  refine ⟨?_, ?_⟩
  · rw [shown]
    exact oldDistinct
  · rw [shown]
    exact newDistinct

theorem apart_fieldMembers {l : Lifetime} {fs : List Field}
    (oldDistinct : ((Field.excerpts old l fs).map Field.name).Nodup)
    (newDistinct : ((Field.excerpts new l fs).map Field.name).Nodup) :
    Apart (fieldMembers old new l fs) := by
  rw [Field.excerpts, List.map_map] at oldDistinct newDistinct
  exact apart_of_excerpts (fun _ => rfl) oldDistinct newDistinct

theorem apart_variantMembers {d : Decl} (enumName : Text) (oldDistinct : d.DistinctIn old)
    (newDistinct : d.DistinctIn new) :
    Apart (variantMembers old new enumName d.lifetime d.variants) := by
  have olds := oldDistinct.variants
  have news := newDistinct.variants
  rw [Variant.excerpts, List.map_map] at olds news
  exact apart_of_excerpts (fun _ => rfl) olds news

theorem apart_typeMembers {decls : List Decl} (oldDistinct : DistinctIn old decls)
    (newDistinct : DistinctIn new decls) : Apart (typeMembers old new decls) := by
  have olds := oldDistinct.types
  have news := newDistinct.types
  rw [excerpt, List.map_map] at olds news
  exact apart_of_excerpts (fun _ => rfl) olds news

/-! ## Scopes -/

theorem scope_of_fieldReport {owner : Text} {l : Lifetime} {fs : List Field} {c : Change}
    (member : c ∈ fieldReport old new owner l fs) : c.scope = .field owner := by
  rcases mem_report member with ⟨own, -⟩ | ⟨m, listed, -, -, inside⟩
  · exact own
  · obtain ⟨f, -, rfl⟩ := List.mem_map.mp listed
    cases inside

theorem scope_of_variantReport {enumName : Text} {l : Lifetime} {vs : List Variant} {c : Change}
    (member : c ∈ variantReport old new enumName l vs) :
    c.scope = .variant enumName ∨ ∃ owner, c.scope = .field owner := by
  rcases mem_report member with ⟨own, -⟩ | ⟨m, listed, -, -, inside⟩
  · exact .inl own
  · obtain ⟨v, -, rfl⟩ := List.mem_map.mp listed
    exact .inr ⟨_, scope_of_fieldReport inside⟩

theorem scope_of_innerReport {d : Decl} {c : Change} (member : c ∈ innerReport old new d) :
    c.scope ≠ .type := by
  intro own
  unfold innerReport at member
  split at member
  · rw [scope_of_fieldReport member] at own
    cases own
  · rcases scope_of_variantReport member with variant | ⟨owner, field⟩
    · rw [variant] at own
      cases own
    · rw [field] at own
      cases own

/-! ## Compared scopes -/

theorem exact_fieldReport {owner : Text} {l : Lifetime} {fs : List Field}
    (oldDistinct : ((Field.excerpts old l fs).map Field.name).Nodup)
    (newDistinct : ((Field.excerpts new l fs).map Field.name).Nodup) :
    Exact (.field owner) (fieldMembers old new l fs) (fieldReport old new owner l fs) :=
  exact_report (apart_fieldMembers oldDistinct newDistinct)
    (List.forall_mem_map.mpr fun _ _ _ inside => nomatch inside)

section
variable {decls : List Decl} {scope : Scope} {ms : List Member}

/-- In every compared scope all names have their one change. -/
theorem Compared.exact (oldDistinct : DistinctIn old decls) (newDistinct : DistinctIn new decls)
    (compared : Compared old new decls scope ms) : Exact scope ms (report scope ms) := by
  cases compared with
  | types =>
      refine exact_report (apart_typeMembers oldDistinct newDistinct) ?_
      exact List.forall_mem_map.mpr fun d _ c inside => scope_of_innerReport inside
  | @fields d node fs declared before after body =>
      have olds := (oldDistinct.members d declared).fields
      have news := (newDistinct.members d declared).fields
      rw [Decl.fields, body] at olds news
      exact exact_fieldReport olds news
  | @variants d vs declared before after body =>
      have apart := apart_variantMembers d.name.shown (oldDistinct.members d declared)
        (newDistinct.members d declared)
      rw [Decl.variants, body] at apart
      refine exact_report apart (List.forall_mem_map.mpr fun v _ c inside => ?_)
      rw [scope_of_fieldReport inside]
      exact Scope.noConfusion
  | @inner d vs v fs declared body member before after payload =>
      have listed : v ∈ d.variants := by
        rw [Decl.variants, body]
        exact member
      have olds := (oldDistinct.members d declared).inner v listed
      have news := (newDistinct.members d declared).inner v listed
      rw [payload] at olds news
      exact exact_fieldReport olds news

theorem innerReport_infix {d : Decl} (declared : d ∈ decls) (before : old ∈ d.lifetime)
    (after : new ∈ d.lifetime) : innerReport old new d <:+: schemaReport old new decls :=
  inner_infix (m := typeMember old new d) (List.mem_map_of_mem declared) (decide_eq_true before)
    (decide_eq_true after)

/-- The report on a compared scope stands together in the report on the schema. -/
theorem Compared.isInfix (compared : Compared old new decls scope ms) :
    report scope ms <:+: schemaReport old new decls := by
  cases compared with
  | types => exact List.infix_rfl
  | @fields d node fs declared before after body =>
      have inner := innerReport_infix declared before after
      rwa [innerReport, body] at inner
  | @variants d vs declared before after body =>
      have inner := innerReport_infix declared before after
      rwa [innerReport, body] at inner
  | @inner d vs v fs declared body member before after payload =>
      have inner := innerReport_infix declared (Lifetime.ofHeader_subset _ _ old before)
        (Lifetime.ofHeader_subset _ _ new after)
      rw [innerReport, body] at inner
      have own : (variantMember old new d.name.shown d.lifetime v).inner <:+:
          variantReport old new d.name.shown d.lifetime vs :=
        inner_infix (List.mem_map_of_mem member) (decide_eq_true before) (decide_eq_true after)
      simp only [variantMember, payload] at own
      exact own.trans inner

/-- A change is about an item of a compared scope that lives in one of the versions, and it shows
the form that items of this name have in the old and in the new version. -/
def ChangeOf (old new : Int) (decls : List Decl) (c : Change) : Prop :=
  ∃ ms, Compared old new decls c.scope ms ∧
    (∃ m ∈ ms, m.name = c.name ∧ (m.inOld = true ∨ m.inNew = true)) ∧
    (∀ form ∈ c.edit.old?, ∃ x ∈ ms, x.inOld = true ∧ x.name = c.name ∧ x.form = form) ∧
    ∀ form ∈ c.edit.new?, ∃ y ∈ ms, y.inNew = true ∧ y.name = c.name ∧ y.form = form

theorem changeOf_report (compared : Compared old new decls scope ms)
    (deeper : ∀ m ∈ ms, m.inOld = true → m.inNew = true → ∀ c ∈ m.inner, ChangeOf old new decls c)
    {c : Change} (member : c ∈ report scope ms) : ChangeOf old new decls c := by
  rcases mem_report member with ⟨rfl, m, listed, same, lives, olds, news⟩ |
    ⟨m, listed, before, after, inside⟩
  · exact ⟨ms, compared, ⟨m, listed, same, lives⟩, olds, news⟩
  · exact deeper m listed before after c inside

theorem changeOf_fieldReport {owner : Text} {l : Lifetime} {fs : List Field}
    (compared : Compared old new decls (.field owner) (fieldMembers old new l fs))
    {c : Change} (member : c ∈ fieldReport old new owner l fs) : ChangeOf old new decls c :=
  changeOf_report compared
    (List.forall_mem_map.mpr fun _ _ _ _ _ inside => nomatch inside) member

theorem changeOf_innerReport {d : Decl} (declared : d ∈ decls) (before : old ∈ d.lifetime)
    (after : new ∈ d.lifetime) {c : Change} (member : c ∈ innerReport old new d) :
    ChangeOf old new decls c := by
  unfold innerReport at member
  split at member
  · rename_i node fs body
    exact changeOf_fieldReport (.fields declared before after body) member
  · rename_i vs body
    refine changeOf_report (.variants declared before after body) ?_ member
    refine List.forall_mem_map.mpr fun v listed first last c inside => ?_
    cases payload : v.payload with
    | struct fs =>
        have compared : Compared old new decls _ _ := .inner declared body listed
          (of_decide_eq_true first) (of_decide_eq_true last) payload
        simp only [variantMember, payload] at inside
        exact changeOf_fieldReport compared inside
    | unit =>
        simp only [variantMember, payload] at inside
        cases inside
    | int discriminant =>
        simp only [variantMember, payload] at inside
        cases inside
    | tuple ts =>
        simp only [variantMember, payload] at inside
        cases inside

/-- Nothing is reported but changes of compared scopes. -/
theorem changeOf_schemaReport {c : Change} (member : c ∈ schemaReport old new decls) :
    ChangeOf old new decls c := by
  refine changeOf_report .types ?_ member
  exact List.forall_mem_map.mpr fun d declared before after c inside =>
    changeOf_innerReport declared (of_decide_eq_true before) (of_decide_eq_true after) inside

end
end
end SchemaHistory.Upgrade
