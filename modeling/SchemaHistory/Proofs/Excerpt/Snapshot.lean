import SchemaHistory.Compiled
import SchemaHistory.Proofs.Enumeration.Order
import SchemaHistory.Proofs.Excerpt.Basic
import SchemaHistory.Proofs.History.Layout

/-! # A snapshot shows the excerpt of its version

A snapshot names declarations and members by their places in the schema.  For the layout of a
version the places can be resolved: its JSON value, its facts and whether it can be written are read
off the excerpt of the schema for the version alone, without any places (`json_layout`,
`facts_layout`, `exported_layout`).  The facts of an enum whose discriminants are in order do not
mention the version any more (`Variant.facts_of_ordered`). -/
set_option autoImplicit false
namespace SchemaHistory

/-! ## Resolving places -/

section
variable {α β γ : Type}

theorem filterMap_places (xs : List α) (p : α → Bool) {g : α × Nat → β} {h : β → Option γ}
    {k : α × Nat → γ}
    (found : ∀ x i, xs[i]? = some x → h (g (x, i)) = some (k (x, i))) :
    ((xs.zipIdx.filter fun e => p e.1).map g).filterMap h =
      (xs.zipIdx.filter fun e => p e.1).map k := by
  rw [List.filterMap_map, ← List.filterMap_eq_map]
  apply List.filterMap_congr
  intro e member
  exact found e.1 e.2 (List.mem_zipIdx_iff_getElem?.mp (List.mem_of_mem_filter member))

theorem map_without_places (xs : List α) (p : α → Bool) (k : α → γ) :
    ((xs.zipIdx.filter fun e => p e.1).map fun e => k e.1) = (xs.filter p).map k := by
  conv => rhs; rw [← List.zipIdx_map_fst 0 xs, List.filter_map, List.map_map]
  rfl

end

namespace History

/-- The snapshot of a version, built without a history. -/
def layout (version : Int) (decls : List Decl) : Snapshot := ⟨version, Layout.types version decls⟩

section
variable (version : Int) (l : Lifetime) {γ : Type}

theorem fields_layout (fs : List Field) :
    ((Layout.fields version l fs).filterMap fun i => fs[i]?).map Field.bare =
      Field.excerpts version l fs := by
  rw [Layout.fields, filterMap_places (k := Prod.fst) fs
    (fun f : Field => decide (version ∈ f.lifetime l)) fun _ _ found => found, Field.excerpts,
    ← map_without_places fs, List.map_map]
  rfl

theorem variants_layout (d : Decl) (i : Nat) :
    TypeSlot.variants d ⟨i, Layout.variants version l d.variants⟩ =
      (d.variants.zipIdx.filter fun e => decide (version ∈ e.1.lifetime l)).map fun e =>
        (Layout.variant version l e.1 e.2, e.1) := by
  apply filterMap_places d.variants fun v : Variant => decide (version ∈ v.lifetime l)
  intro v j found
  have place : (Layout.variant version l v j).index = j := by
    unfold Layout.variant
    cases v.payload <;> rfl
  rw [place, found]
  rfl

theorem declared_layout (decls : List Decl) :
    (layout version decls).declared decls =
      (decls.zipIdx.filter fun e => decide (version ∈ e.1.lifetime)).map fun e =>
        (⟨e.2, Layout.members version e.1⟩, e.1) := by
  apply filterMap_places decls fun d : Decl => decide (version ∈ d.lifetime)
  intro d i found
  rw [found]
  rfl

theorem map_variants {version : Int} {l : Lifetime} {f : MemberSlot × Variant → γ} {k : Variant → γ}
    (same : ∀ v i, f (Layout.variant version l v i, v) = k (v.excerpt version l)) (d : Decl)
    (i : Nat) :
    (TypeSlot.variants d ⟨i, Layout.variants version l d.variants⟩).map f =
      (Variant.excerpts version l d.variants).map k := by
  rw [variants_layout, List.map_map, Variant.excerpts, List.map_map,
    ← map_without_places d.variants]
  exact List.map_congr_left fun (e : Variant × Nat) _ => same e.1 e.2

theorem map_declared {version : Int} {f : TypeSlot × Decl → γ} {k : Decl → γ}
    (same : ∀ d i, f (⟨i, Layout.members version d⟩, d) = k (d.excerpt version))
    (decls : List Decl) :
    ((layout version decls).declared decls).map f = (excerpt version decls).map k := by
  rw [declared_layout, List.map_map, excerpt, List.map_map, ← map_without_places decls]
  exact List.map_congr_left fun (e : Decl × Nat) _ => same e.1 e.2

theorem isEmpty_layout (decls : List Decl) :
    (layout version decls).isEmpty = (excerpt version decls).isEmpty := by
  have counted := congrArg List.length (map_without_places decls
    (fun d => decide (version ∈ d.lifetime)) (Decl.excerpt version))
  simp only [List.length_map] at counted
  simp only [layout, Snapshot.isEmpty, Layout.types, excerpt, List.isEmpty_map]
  rw [Bool.eq_iff_iff, List.isEmpty_iff_length_eq_zero, List.isEmpty_iff_length_eq_zero, counted]

end
end History

/-! ## The JSON value of a version -/

namespace Variant

def shownPayload (v : Variant) : List (Text × Json) :=
  match v.payload with
  | .unit => []
  | .int n => [("discriminant", .int n.value)]
  | .tuple ts => [("values", .arr (ts.map TypeExpr.form))]
  | .struct fs => [Snapshot.fieldsMember fs]

def shown (v : Variant) : Json := .obj (("name", v.name) :: v.shownPayload)

end Variant

namespace Decl

def shownMembers (d : Decl) : Text × Json :=
  match d.body with
  | .record _ fs => Snapshot.fieldsMember fs
  | .enum vs => ("variants", .arr (vs.map Variant.shown))

def shown (d : Decl) : Json :=
  .obj [("name", d.name), ("kind", .str d.kind.name), d.shownMembers]

end Decl

namespace Snapshot
variable (version : Int)

theorem fieldsMember_bare (fs : List Field) :
    fieldsMember (fs.map Field.bare) = fieldsMember fs := by
  simp only [fieldsMember, List.map_map]
  rfl

theorem variantJson_layout (l : Lifetime) (v : Variant) (i : Nat) :
    variantJson (Layout.variant version l v i) v = (v.excerpt version l).shown := by
  obtain ⟨name, payload, header, position⟩ := v
  cases payload with
  | struct fs =>
      simp only [variantJson, payloadMembers, Layout.variant, Variant.shown, Variant.shownPayload,
        Variant.excerpt, Payload.excerpt, MemberSlot.fields, Payload.fields]
      rw [← History.fields_layout, fieldsMember_bare]
  | unit => rfl
  | int discriminant => rfl
  | tuple ts => rfl

theorem typeJson_layout (d : Decl) (i : Nat) :
    typeJson ⟨i, Layout.members version d⟩ d = (d.excerpt version).shown := by
  have members :
      membersMember ⟨i, Layout.members version d⟩ d = (d.excerpt version).shownMembers := by
    obtain ⟨name, body, header, position⟩ := d
    cases body with
    | record node fs =>
        simp only [membersMember, Decl.shownMembers, Decl.excerpt, Body.excerpt, Layout.members,
          TypeSlot.fields, Decl.fields, List.filterMap_map]
        rw [← History.fields_layout, fieldsMember_bare]
        rfl
    | enum vs =>
        have listed := History.map_variants (f := fun m => variantJson m.1 m.2)
          (variantJson_layout version (.ofHeader header none))
          ⟨name, .enum vs, header, position⟩ i
        exact congrArg (fun items => (("variants" : Text), Json.arr items)) listed
  simp only [typeJson, Decl.shown, members, Decl.excerpt_name, Decl.excerpt_kind]

theorem json_layout (decls : List Decl) :
    (History.layout version decls).json decls =
      .obj [("version", .int version),
        ("types", .arr ((excerpt version decls).map Decl.shown))] := by
  simp only [json]
  rw [History.map_declared (k := Decl.shown) (typeJson_layout version)]
  rfl

end Snapshot

/-! ## The facts of a version -/

namespace Variant

def innerFacts (v : Variant) : List Fact :=
  match v.payload with
  | .tuple ts => TypeExpr.factsOfAll ts
  | .struct fs => Fact.ofFields fs
  | _ => []

def facts (enumName : Json) (version : Int) (n : Numbering) : List Variant → List Fact
  | [] => []
  | v :: rest =>
    match n.step enumName version v with
    | .ok next => v.innerFacts ++ facts enumName version next rest
    | .error d => .fault (.diagnostic d) :: facts enumName version n rest

end Variant

namespace Decl

def innerFacts (version : Int) (d : Decl) : List Fact :=
  match d.body with
  | .record _ fs => Fact.ofFields fs
  | .enum vs => Variant.facts d.name version .start vs

def facts (version : Int) (d : Decl) : List Fact :=
  .definition d.name d.isNode :: d.innerFacts version

end Decl

namespace Fact
variable (version : Int)

theorem ofFields_bare (fs : List Field) : ofFields (fs.map Field.bare) = ofFields fs := by
  simp only [ofFields, List.flatMap_map, Field.bare_type]

theorem ofMembers_plain (fs : List Field) (is : List Nat) :
    ofMembers fs (is.map .plain) = ofFields (is.filterMap fun i => fs[i]?) := by
  induction is with
  | nil => rfl
  | cons i is ih =>
      rw [List.map_cons, ofMembers, ih]
      cases found : fs[i]? <;> simp [ofFields, found]

theorem step_excerpt (enumName : Json) (l : Lifetime) (n : Numbering) (v : Variant) :
    n.step enumName version (v.excerpt version l) = n.step enumName version v := by
  obtain ⟨name, payload, header, position⟩ := v
  cases payload <;> rfl

theorem ofVariants_cons (enumName : Json) (l : Lifetime) (n : Numbering) (v : Variant) (i : Nat)
    (rest : List (MemberSlot × Variant)) :
    ofVariants enumName version n ((Layout.variant version l v i, v) :: rest) =
      match n.step enumName version v with
      | .ok next => (v.excerpt version l).innerFacts ++ ofVariants enumName version next rest
      | .error d => .fault (.diagnostic d) :: ofVariants enumName version n rest := by
  obtain ⟨name, payload, header, position⟩ := v
  cases payload with
  | struct fs =>
      simp only [Layout.variant, ofVariants, Variant.excerpt, Payload.excerpt, Numbering.step,
        Variant.innerFacts, MemberSlot.fields, Payload.fields]
      rw [← History.fields_layout, ofFields_bare]
  | tuple ts => rfl
  | unit => rfl
  | int discriminant => rfl

theorem ofVariants_layout (enumName : Json) (l : Lifetime) (n : Numbering)
    (es : List (Variant × Nat)) :
    ofVariants enumName version n (es.map fun e => (Layout.variant version l e.1 e.2, e.1)) =
      Variant.facts enumName version n (es.map fun e => e.1.excerpt version l) := by
  induction es generalizing n with
  | nil => rfl
  | cons e rest ih =>
      simp only [List.map_cons, ofVariants_cons, Variant.facts, step_excerpt, ih]

theorem ofType_layout (d : Decl) (i : Nat) :
    ofType version ⟨i, Layout.members version d⟩ d = (d.excerpt version).facts version := by
  rw [Decl.facts, Decl.excerpt_isNode, Decl.excerpt_name, ofType]
  refine congrArg _ ?_
  obtain ⟨name, body, header, position⟩ := d
  cases body with
  | record own fs =>
      simp only [Decl.innerFacts, Decl.excerpt, Body.excerpt, Layout.members, ofMembers_plain]
      rw [← History.fields_layout, ofFields_bare]
  | enum vs =>
      have listed := History.variants_layout version (.ofHeader header none)
        ⟨name, .enum vs, header, position⟩ i
      simp only [Layout.members, Decl.innerFacts, Decl.excerpt, Body.excerpt, Variant.excerpts]
      rw [← map_without_places vs, ← ofVariants_layout]
      exact congrArg (ofVariants name version .start) listed

/-- The facts of a layout are those of the excerpt. -/
theorem facts_layout (decls : List Decl) :
    ofSnapshot decls (History.layout version decls) =
      (excerpt version decls).flatMap (Decl.facts version) := by
  rw [ofSnapshot, List.flatMap_def, List.flatMap_def]
  exact congrArg List.flatten
    (History.map_declared (k := Decl.facts version) (ofType_layout version) decls)

end Fact

/-! ## Facts that do not depend on the version -/

namespace Variant
variable {enumName : Json} {version : Int}

theorem facts_of_run {n m : Numbering} {vs : List Variant}
    (run : vs.foldlM (Numbering.step enumName version) n = .ok m) :
    facts enumName version n vs = vs.flatMap innerFacts := by
  induction vs generalizing n with
  | nil => rfl
  | cons v rest ih =>
      simp only [List.foldlM_cons, bind_eq_ok_iff] at run
      obtain ⟨next, step, run⟩ := run
      simp only [facts, step, ih run, List.flatMap_cons]

theorem run_of_faultless {n : Numbering} {vs : List Variant}
    (faultless : ∀ r, Fact.fault r ∉ facts enumName version n vs) :
    ∃ m, vs.foldlM (Numbering.step enumName version) n = .ok m := by
  induction vs generalizing n with
  | nil => exact ⟨n, rfl⟩
  | cons v rest ih =>
      unfold facts at faultless
      cases step : n.step enumName version v with
      | error d =>
          rw [step] at faultless
          exact absurd List.mem_cons_self (faultless (.diagnostic d))
      | ok next =>
          rw [step] at faultless
          obtain ⟨m, run⟩ := ih fun r member => faultless r (List.mem_append_right _ member)
          exact ⟨m, bind_eq_ok_iff.mpr ⟨next, step, run⟩⟩

end Variant

namespace Decl
variable {version : Int} {d : Decl}

def plainFacts (d : Decl) : List Fact :=
  .definition d.name d.isNode :: (Fact.ofFields d.fields ++ d.variants.flatMap Variant.innerFacts)

theorem facts_of_ordered (ordered : Numbering.Ordered d.variants) :
    d.facts version = d.plainFacts := by
  have started : ∀ taken ∈ Numbering.start.taken?, Numbering.Above taken d.variants :=
    fun taken none => nomatch none
  obtain ⟨m, run⟩ := (Numbering.stepAll_isOk_iff d.name version .start d.variants).mpr
    ⟨started, ordered⟩
  obtain ⟨name, body, header, position⟩ := d
  cases body with
  | record node fs => exact congrArg _ (List.append_nil _).symm
  | enum vs => exact congrArg _ (Variant.facts_of_run run)

theorem ordered_of_faultless (version : Int) {d : Decl}
    (faultless : ∀ r, Fact.fault r ∉ d.facts version) :
    Numbering.Ordered d.variants := by
  obtain ⟨name, body, header, position⟩ := d
  cases body with
  | record node fs => exact Numbering.ordered_nil
  | enum vs =>
      have run := Variant.run_of_faultless fun r member =>
        faultless r (List.mem_cons_of_mem _ member)
      exact ((Numbering.stepAll_isOk_iff name version .start vs).mp run).2

end Decl

/-! ## Writing a version -/

namespace Variant

def isExportable (v : Variant) : Bool :=
  match v.payload with
  | .tuple ts => ts.all TypeExpr.isWritable
  | .struct fs => Snapshot.fieldsAreWritable fs
  | _ => true

end Variant

namespace Decl

def isExportable (d : Decl) : Bool :=
  match d.body with
  | .record _ fs => Snapshot.fieldsAreWritable fs
  | .enum vs => vs.all Variant.isExportable

end Decl

namespace Snapshot
variable (version : Int)

theorem fieldsAreWritable_bare (fs : List Field) :
    fieldsAreWritable (fs.map Field.bare) = fieldsAreWritable fs := by
  rw [fieldsAreWritable, List.all_map]
  rfl

theorem variantIsWritable_layout (l : Lifetime) (v : Variant) (i : Nat) :
    variantIsWritable (Layout.variant version l v i) v = (v.excerpt version l).isExportable := by
  obtain ⟨name, payload, header, position⟩ := v
  cases payload with
  | struct fs =>
      simp only [variantIsWritable, Layout.variant, Variant.isExportable, Variant.excerpt,
        Payload.excerpt, MemberSlot.fields, Payload.fields]
      rw [← History.fields_layout, fieldsAreWritable_bare]
  | unit => rfl
  | int discriminant => rfl
  | tuple ts => rfl

theorem typeIsWritable_layout (d : Decl) (i : Nat) :
    typeIsWritable ⟨i, Layout.members version d⟩ d = (d.excerpt version).isExportable := by
  obtain ⟨name, body, header, position⟩ := d
  cases body with
  | record node fs =>
      simp only [typeIsWritable, Decl.isExportable, Decl.excerpt, Body.excerpt, Layout.members,
        TypeSlot.fields, Decl.fields, List.filterMap_map]
      rw [← History.fields_layout, fieldsAreWritable_bare]
      rfl
  | enum vs =>
      have listed := History.map_variants (f := fun m => variantIsWritable m.1 m.2)
        (variantIsWritable_layout version (.ofHeader header none))
        ⟨name, .enum vs, header, position⟩ i
      have all := congrArg (fun bs => bs.all id) listed
      simp only [List.all_map, Function.id_comp] at all
      exact all

theorem typeFits_layout (d : Decl) (i : Nat) : typeFits ⟨i, Layout.members version d⟩ d = true := by
  obtain ⟨name, body, header, position⟩ := d
  cases body with
  | record node fs => simp [typeFits, Layout.members, MemberSlot.isPlain]
  | enum vs => rfl

theorem fits_layout (decls : List Decl) : (History.layout version decls).fits decls = true := by
  rw [fits, List.all_eq_true]
  intro t member
  rw [History.declared_layout] at member
  obtain ⟨e, -, rfl⟩ := List.mem_map.mp member
  exact typeFits_layout version e.1 e.2

theorem isWritable_layout (decls : List Decl) :
    (History.layout version decls).isWritable decls =
      (excerpt version decls).all Decl.isExportable := by
  have listed := History.map_declared (f := fun t => typeIsWritable t.1 t.2)
    (typeIsWritable_layout version) decls
  have all := congrArg (fun bs => bs.all id) listed
  simp only [List.all_map, Function.id_comp] at all
  exact all

/-- Exporting a layout is exporting the excerpt, under the number of the version. -/
theorem exported_layout (decls : List Decl) :
    (History.layout version decls).exported decls =
      if (excerpt version decls).all Decl.isExportable then
        .ok (.obj [("version", .int version),
          ("types", .arr ((excerpt version decls).map Decl.shown))])
      else .error .unusableName := by
  rw [exported, fits_layout, isWritable_layout, json_layout]
  rfl

end Snapshot
end SchemaHistory
