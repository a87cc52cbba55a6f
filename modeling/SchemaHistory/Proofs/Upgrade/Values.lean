import SchemaHistory.Proofs.Excerpt.Picked
import SchemaHistory.Proofs.Upgrade.Complete

/-! # What the values of a change show

The values of a change in an enum are forms of its variants as they are declared, with all their
fields, also with those that do not live in the version that the value stands for.  As a list of
fields can be told from its text when some of them are left out, a value shows the variant as it
stands in its version exactly when all its fields live there (`variant_values`).
In `shapes` there is a variant that is shown with a field that was added after the version in
question. -/
set_option autoImplicit false
namespace SchemaHistory

namespace Text

theorem length_join_cons (separator first : Text) {rest : List Text} (more : rest ≠ []) :
    (join separator (first :: rest)).length =
      first.length + separator.length + (join separator rest).length := by
  obtain ⟨second, later, rfl⟩ := List.exists_cons_of_ne_nil more
  rw [join, List.intercalate_cons_cons, List.length_append, List.length_append]
  rfl

theorem length_join_lt_cons (separator : Text) {first : Text} (inhabited : first ≠ [])
    (rest : List Text) :
    (join separator rest).length < (join separator (first :: rest)).length := by
  have positive := List.length_pos_of_ne_nil inhabited
  by_cases more : rest = []
  · subst more
    rw [join, join, List.intercalate_singleton]
    exact positive
  · rw [length_join_cons separator first more]
    omega

/-- Leaving out some of the parts of a joined text makes it shorter. -/
theorem eq_or_length_join_lt (separator : Text) {kept all : List Text} (sub : kept.Sublist all)
    (inhabited : ∀ part ∈ all, part ≠ []) :
    kept = all ∨ (join separator kept).length < (join separator all).length := by
  induction sub with
  | slnil => exact .inl rfl
  | @cons kept all part sub ih =>
      have shorter := length_join_lt_cons separator (inhabited part List.mem_cons_self) all
      rcases ih fun other member => inhabited other (List.mem_cons_of_mem _ member) with
        rfl | less
      · exact .inr shorter
      · exact .inr (less.trans shorter)
  | @cons_cons kept all part sub ih =>
      rcases ih fun other member => inhabited other (List.mem_cons_of_mem _ member) with
        rfl | less
      · exact .inl rfl
      · have positive : 0 < (join separator all).length := Nat.zero_lt_of_lt less
        have more : all ≠ [] := by
          rintro rfl
          exact absurd positive (lt_irrefl 0)
        refine .inr ?_
        rw [length_join_cons separator part more]
        by_cases nothing : kept = []
        · rw [nothing, join, List.intercalate_singleton]
          omega
        · rw [length_join_cons separator part nothing]
          omega

theorem join_inj_of_sublist (separator : Text) {kept all : List Text} (sub : kept.Sublist all)
    (inhabited : ∀ part ∈ all, part ≠ []) :
    join separator kept = join separator all ↔ kept = all := by
  constructor
  · intro same
    rcases eq_or_length_join_lt separator sub inhabited with equal | shorter
    · exact equal
    · rw [same] at shorter
      exact absurd shorter (lt_irrefl _)
  · exact congrArg (join separator)

end Text

/-! ## Forms of variants -/

namespace Variant

theorem fieldText_ne_nil (f : Field) : fieldText f ≠ [] := by
  rw [fieldText, List.append_assoc]
  exact List.append_ne_nil_of_right_ne_nil _ (List.cons_ne_nil _ _)

/-- A struct variant with some of its fields left out has another form. -/
theorem form_pick_eq_iff {slot : MemberSlot} {v : Variant}
    (sub : (slot.fields v).Sublist v.payload.fields) :
    v.form = (slot.pick v).form ↔ slot.fields v = v.payload.fields := by
  cases payload : v.payload with
  | struct fs =>
      rw [payload, Payload.fields] at sub
      rw [Payload.fields]
      have texts := Text.join_inj_of_sublist ", " (sub.map fieldText)
        (List.forall_mem_map.mpr fun f _ => fieldText_ne_nil f)
      have own : v.form = (slot.pick v).form ↔
          Text.join ", " (fs.map fieldText) = Text.join ", " ((slot.fields v).map fieldText) := by
        simp [form, text, MemberSlot.pick, payload]
      rw [own, eq_comm, texts]
      constructor
      · intro same
        exact sub.eq_of_length (by simpa using congrArg List.length same)
      · exact congrArg (List.map fieldText)
  | _ =>
      have nothing : slot.fields v = [] := by simpa [payload, Payload.fields] using sub
      simp [MemberSlot.pick, payload, nothing, Payload.fields]

end Variant

/-! ## Variants of a version -/

def Snapshot.HasVariant (decls : List Decl) (s : Snapshot) (enumName : Text) (name : Json)
    (m : MemberSlot × Variant) : Prop :=
  ∃ t ∈ s.declared decls, t.2.name.shown = enumName ∧ m ∈ t.1.variants t.2 ∧ m.2.name = name

/-- The version has one variant of the name, and the value is the form of its declaration.  That is
the form of the variant as it stands in the version when the version has all its fields. -/
def Snapshot.ShowsDeclared (decls : List Decl) (s : Snapshot) (enumName : Text)
    (name value : Json) : Prop :=
  ∃ m, s.HasVariant decls enumName name m ∧
    (∀ other, s.HasVariant decls enumName name other → other = m) ∧ value = m.2.form ∧
    (value = (m.1.pick m.2).form ↔ m.1.fields m.2 = m.2.payload.fields)

namespace Upgrade

section
variable {decls : List Decl} {version : Int}

/-- The slot of a variant lists the fields that live in the version. -/
theorem fields_variant (version : Int) (l : Lifetime) (v : Variant) (i : Nat) :
    (Layout.variant version l v i).fields v =
      v.payload.fields.filter fun f => decide (version ∈ f.lifetime (v.lifetime l)) := by
  unfold Layout.variant
  cases payload : v.payload with
  | struct fs =>
      rw [MemberSlot.fields, payload, Payload.fields, Layout.fields,
        filter_eq_map_fst (fun f : Field => decide (version ∈ f.lifetime (v.lifetime l))) fs]
      exact filterMap_places (g := Prod.snd) (h := fun i => fs[i]?) (k := Prod.fst) fs
        (fun f : Field => decide (version ∈ f.lifetime (v.lifetime l))) fun _ _ found => found
  | _ => rfl

theorem mem_variants_layout {d : Decl} {m : MemberSlot × Variant} (i : Nat) :
    m ∈ TypeSlot.variants d ⟨i, Layout.members version d⟩ ↔
      ∃ e ∈ d.variants.zipIdx, version ∈ e.1.lifetime d.lifetime ∧
        (Layout.variant version d.lifetime e.1 e.2, e.1) = m := by
  cases body : d.body with
  | record node fs =>
      have nothing : d.variants = [] := by rw [Decl.variants, body]
      simp [TypeSlot.variants, nothing]
  | enum vs =>
      have members : Layout.members version d =
          Layout.variants version d.lifetime d.variants := by
        simp only [Layout.members, Decl.variants, body]
      rw [members, History.variants_layout]
      simp only [List.mem_map, List.mem_filter, decide_eq_true_eq, and_assoc]

theorem hasVariant_layout {enumName : Text} {name : Json} {m : MemberSlot × Variant} :
    (History.layout version decls).HasVariant decls enumName name m ↔
      ∃ d ∈ decls, version ∈ d.lifetime ∧ d.name.shown = enumName ∧
        ∃ e ∈ d.variants.zipIdx, version ∈ e.1.lifetime d.lifetime ∧ e.1.name = name ∧
          (Layout.variant version d.lifetime e.1 e.2, e.1) = m := by
  rw [Snapshot.HasVariant, History.declared_layout]
  constructor
  · rintro ⟨t, listed, owner, member, rfl⟩
    obtain ⟨e, inside, rfl⟩ := List.mem_map.mp listed
    obtain ⟨place, lives⟩ := List.mem_filter.mp inside
    obtain ⟨f, variant, alive, rfl⟩ := (mem_variants_layout e.2).mp member
    exact ⟨e.1, List.fst_mem_of_mem_zipIdx place, of_decide_eq_true lives, owner, f, variant,
      alive, rfl, rfl⟩
  · rintro ⟨d, declared, lives, owner, f, variant, alive, rfl, rfl⟩
    obtain ⟨i, inside, rfl⟩ := List.mem_iff_getElem.mp declared
    have place : (decls[i], i) ∈ decls.zipIdx :=
      List.mem_zipIdx_iff_getElem?.mpr (List.getElem?_eq_getElem inside)
    refine ⟨_, List.mem_map.mpr ⟨_, List.mem_filter.mpr ⟨place, decide_eq_true lives⟩, rfl⟩, owner,
      ?_, rfl⟩
    exact (mem_variants_layout i).mpr ⟨f, variant, alive, rfl⟩

theorem hasVariant_unique (texts : HasTextNames decls) (distinct : DistinctIn version decls)
    {enumName : Text} {name : Json} {m other : MemberSlot × Variant}
    (first : (History.layout version decls).HasVariant decls enumName name m)
    (second : (History.layout version decls).HasVariant decls enumName name other) :
    other = m := by
  obtain ⟨d, declared, lives, owner, e, place, alive, own, rfl⟩ := hasVariant_layout.mp first
  obtain ⟨d', declared', lives', owner', e', place', alive', own', rfl⟩ :=
    hasVariant_layout.mp second
  have types := distinct.types
  rw [excerpt, List.map_map] at types
  have enum : d' = d := eq_of_distinct types declared' declared (decide_eq_true lives')
    (decide_eq_true lives) (name_eq_of_shown (texts d' declared').own (texts d declared).own
      (owner'.trans owner.symm))
  subst enum
  have variants := (distinct.members d' declared).variants
  rw [Variant.excerpts, List.map_map] at variants
  have index : e'.2 = e.2 := place_eq_of_distinct variants
    (List.mem_zipIdx_iff_getElem?.mp place') (List.mem_zipIdx_iff_getElem?.mp place)
    (decide_eq_true alive') (decide_eq_true alive) (own'.trans own.symm)
  rw [eq_of_place place' place index]

/-- The form of a living variant is shown as it is declared. -/
theorem showsDeclared_layout (texts : HasTextNames decls) (distinct : DistinctIn version decls)
    {d : Decl} {v : Variant} (declared : d ∈ decls) (lives : version ∈ d.lifetime)
    (member : v ∈ d.variants) (alive : version ∈ v.lifetime d.lifetime) :
    (History.layout version decls).ShowsDeclared decls d.name.shown v.name v.form := by
  obtain ⟨j, inside, rfl⟩ := List.mem_iff_getElem.mp member
  have place : (d.variants[j], j) ∈ d.variants.zipIdx :=
    List.mem_zipIdx_iff_getElem?.mpr (List.getElem?_eq_getElem inside)
  have has : (History.layout version decls).HasVariant decls d.name.shown d.variants[j].name
      (Layout.variant version d.lifetime d.variants[j] j, d.variants[j]) :=
    hasVariant_layout.mpr ⟨d, declared, lives, rfl, _, place, alive, rfl, rfl⟩
  refine ⟨_, has, fun other second => hasVariant_unique texts distinct has second, rfl, ?_⟩
  refine Variant.form_pick_eq_iff ?_
  rw [fields_variant]
  exact List.filter_sublist

end

section
variable {limit old new : Int} {decls : List Decl} {c : Compiled} {before after : Snapshot}

/-- The values of a change in an enum show variants of their versions as these are declared.  Such a
value shows the variant as it stands in its version exactly when the version has all its fields. -/
theorem variant_values (texts : HasTextNames decls)
    (compiled : Compiled.ofDeclarations limit decls = .ok c)
    (oldExists : c.snapshot? old = .ok before) (newExists : c.snapshot? new = .ok after) :
    ∃ changes, diff c old new = .ok changes ∧
      ∀ change ∈ changes, ∀ enumName, change.scope = .variant enumName →
        (∀ value ∈ change.edit.old?, before.ShowsDeclared decls enumName change.name value) ∧
        ∀ value ∈ change.edit.new?, after.ShowsDeclared decls enumName change.name value := by
  obtain ⟨accepted, -, shape⟩ := Compiled.ofDeclarations_eq_ok_iff.mp compiled
  rw [← shape] at oldExists newExists
  obtain ⟨oldFirst, oldLast, rfl⟩ := Compiled.snapshot?_eq_ok_iff.mp oldExists
  obtain ⟨newFirst, newLast, rfl⟩ := Compiled.snapshot?_eq_ok_iff.mp newExists
  have oldDistinct := distinctIn_of_accepted texts accepted oldFirst oldLast
  have newDistinct := distinctIn_of_accepted texts accepted newFirst newLast
  have changes := diff_eq_ok texts compiled oldFirst oldLast newFirst newLast
  rw [snapshotChanges_eq texts oldDistinct newDistinct] at changes
  refine ⟨_, changes, fun change member enumName scope => ?_⟩
  obtain ⟨ms, compared, -, olds, news⟩ := changeOf_schemaReport member
  rw [scope] at compared
  cases compared with
  | @variants d vs declared lives stays body =>
      have listed : vs = d.variants := by rw [Decl.variants, body]
      subst listed
      refine ⟨fun value shown => ?_, fun value shown => ?_⟩
      · obtain ⟨x, inside, alive, name, form⟩ := olds value shown
        obtain ⟨v, variant, rfl⟩ := List.mem_map.mp inside
        rw [← name, ← form]
        exact showsDeclared_layout texts oldDistinct declared lives variant
          (of_decide_eq_true alive)
      · obtain ⟨y, inside, alive, name, form⟩ := news value shown
        obtain ⟨v, variant, rfl⟩ := List.mem_map.mp inside
        rw [← name, ← form]
        exact showsDeclared_layout texts newDistinct declared stays variant
          (of_decide_eq_true alive)

end

/-! ### A variant that is shown with a later field -/

def shapes : List Decl :=
  [⟨.str "Shape", .enum
      [⟨.str "Point", .unit, none, none⟩,
       ⟨.str "Circle", .struct
          [⟨.str "radius", .primitive .u8 none, none, none⟩,
           ⟨.str "colour", .primitive .u8 none, History.addedIn 2, none⟩],
        History.removedIn 3, none⟩], none, none⟩]

def shapesSnapshots : List Snapshot :=
  [⟨1, [⟨0, [.plain 0, .struct 1 [0]]⟩]⟩,
   ⟨2, [⟨0, [.plain 0, .struct 1 [0, 1]]⟩]⟩,
   ⟨3, [⟨0, [.plain 0]⟩]⟩]

def colouredCircle : Json := .str "Circle \x7b radius: u8, colour: u8 \x7d"

theorem shapes_diff :
    diff ⟨shapes, shapesSnapshots⟩ 1 3 =
      .ok [⟨.variant "Shape", .str "Circle", .removed colouredCircle⟩] := by
  rfl

/-- The circle that goes between version 1 and version 3 is shown with a colour, which no circle of
version 1 has. -/
theorem circle_shows_colour :
    Compiled.ofDeclarations 1024 shapes = .ok ⟨shapes, shapesSnapshots⟩ ∧
    Compiled.snapshot? ⟨shapes, shapesSnapshots⟩ 1 = .ok (History.layout 1 shapes) ∧
    diff ⟨shapes, shapesSnapshots⟩ 1 3 =
      .ok [⟨.variant "Shape", .str "Circle", .removed colouredCircle⟩] ∧
    ¬∃ m, (History.layout 1 shapes).HasVariant shapes "Shape" (.str "Circle") m ∧
      colouredCircle = (m.1.pick m.2).form := by
  refine ⟨rfl, rfl, shapes_diff, ?_⟩
  rintro ⟨m, has, same⟩
  obtain ⟨t, listed, -, member, name⟩ := has
  obtain rfl := List.mem_singleton.mp listed
  rcases List.mem_pair.mp member with rfl | rfl
  · cases name
  · revert same
    decide

theorem variant_values_shapes :
    (History.layout 1 shapes).ShowsDeclared shapes "Shape" (.str "Circle") colouredCircle := by
  have texts : HasTextNames shapes := by decide
  have compiled : Compiled.ofDeclarations 1024 shapes = .ok ⟨shapes, shapesSnapshots⟩ := rfl
  have first : Compiled.snapshot? ⟨shapes, shapesSnapshots⟩ 1 =
      .ok (History.layout 1 shapes) := by rfl
  have third : Compiled.snapshot? ⟨shapes, shapesSnapshots⟩ 3 =
      .ok (History.layout 3 shapes) := by rfl
  obtain ⟨changes, found, shows⟩ := variant_values texts compiled first third
  rw [shapes_diff] at found
  cases found
  exact (shows _ List.mem_cons_self "Shape" rfl).1 _ rfl

end Upgrade
end SchemaHistory
