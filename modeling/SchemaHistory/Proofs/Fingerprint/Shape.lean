import SchemaHistory.Proofs.Excerpt.Snapshot
import SchemaHistory.Proofs.Grammar.Spelled
import SchemaHistory.Proofs.Json.Sorted

/-! # The shape that an export shows

The shape of a schema without versions is what is left when headers and places are dropped.  The
JSON value of a type is that of its shape (`Decl.shown_shape`), and among schemas that a text can
spell the sorted value determines the shape (`Decl.shape_of_sorted`): the names of the members tell
the payloads of variants apart, and the text of an expression determines the expression. -/
set_option autoImplicit false
namespace SchemaHistory

def Field.shape (f : Field) : Field := ⟨f.name, f.type.unplaced, none, none⟩

def Payload.shape : Payload → Payload
  | .unit => .unit
  | .int n => .int ⟨n.value, none⟩
  | .tuple ts => .tuple (ts.map TypeExpr.unplaced)
  | .struct fs => .struct (fs.map Field.shape)

def Variant.shape (v : Variant) : Variant := ⟨v.name, v.payload.shape, none, none⟩

def Body.shape : Body → Body
  | .record node fs => .record node (fs.map Field.shape)
  | .enum vs => .enum (vs.map Variant.shape)

/-- The type with its name, its kind and the shapes of its members. -/
def Decl.shape (d : Decl) : Decl := ⟨d.name, d.body.shape, none, none⟩

/-! ## The value of a shape -/

theorem Snapshot.fieldJson_shape (f : Field) : fieldJson f.shape = fieldJson f := by
  simp only [fieldJson, Field.shape, TypeExpr.form_unplaced]

theorem Snapshot.fieldsMember_shape (fs : List Field) :
    fieldsMember (fs.map Field.shape) = fieldsMember fs := by
  simp only [fieldsMember, List.map_map, Function.comp_def, fieldJson_shape]

theorem Variant.shown_shape (v : Variant) : v.shape.shown = v.shown := by
  have members : v.shape.shownPayload = v.shownPayload := by
    obtain ⟨name, payload, header, position⟩ := v
    cases payload with
    | unit => rfl
    | int n => rfl
    | tuple ts =>
        simp only [shape, Payload.shape, shownPayload, List.map_map, Function.comp_def,
          TypeExpr.form_unplaced]
    | struct fs =>
        simp only [shape, Payload.shape, shownPayload, Snapshot.fieldsMember_shape]
  simp only [shown, members]
  rfl

theorem Decl.shown_shape (d : Decl) : d.shape.shown = d.shown := by
  obtain ⟨name, body, header, position⟩ := d
  cases body with
  | record node fs =>
      simp only [shown, shape, Body.shape, shownMembers, Snapshot.fieldsMember_shape]
      cases node <;> rfl
  | enum vs =>
      simp only [shown, shape, Body.shape, shownMembers, List.map_map, Function.comp_def,
        Variant.shown_shape]
      rfl

/-! ## Names of members -/

theorem Field.keyed_fieldJson (f : Field) :
    Table.Keyed [(("name" : Text), f.name), ("type", f.type.form)] := by
  show (["name", "type"] : List Text).Nodup
  decide

theorem Variant.keyed_shown (v : Variant) :
    Table.Keyed ((("name" : Text), v.name) :: v.shownPayload) := by
  obtain ⟨name, payload, header, position⟩ := v
  cases payload with
  | unit => exact List.nodup_singleton _
  | int n =>
      show (["name", "discriminant"] : List Text).Nodup
      decide
  | tuple ts =>
      show (["name", "values"] : List Text).Nodup
      decide
  | struct fs =>
      show (["name", "fields"] : List Text).Nodup
      decide

theorem Decl.keyed_shown (d : Decl) :
    Table.Keyed [(("name" : Text), d.name), ("kind", .str d.kind.name), d.shownMembers] := by
  obtain ⟨name, body, header, position⟩ := d
  cases body with
  | record node fs =>
      show (["name", "kind", "fields"] : List Text).Nodup
      decide
  | enum vs =>
      show (["name", "kind", "variants"] : List Text).Nodup
      decide

/-! ## Values of what can be spelled -/

theorem map_eq_map_of {α β γ : Type} {f : α → β} {g : α → γ} {xs ys : List α}
    (each : ∀ x ∈ xs, ∀ y ∈ ys, f x = f y → g x = g y) (same : xs.map f = ys.map f) :
    xs.map g = ys.map g := by
  induction xs generalizing ys with
  | nil => rw [List.map_eq_nil_iff.mp same.symm]
  | cons x xs ih =>
      cases ys with
      | nil => cases same
      | cons y ys =>
          obtain ⟨first, rest⟩ := List.cons.inj same
          have own := each x List.mem_cons_self y List.mem_cons_self first
          have others := ih (fun a inside b among => each a (List.mem_cons_of_mem _ inside) b
            (List.mem_cons_of_mem _ among)) rest
          rw [List.map_cons, List.map_cons, own, others]

theorem Json.IsName.sorted {name : Json} (isName : name.IsName) : name.sorted = name := by
  obtain ⟨w, rfl, -⟩ := isName
  exact Json.sorted_str w

theorem TypeExpr.Spelled.form {t : TypeExpr} (spelled : t.Spelled) : t.form = .str t.text := by
  cases spelled <;> rfl

theorem TypeExpr.Spelled.unplaced_of_sorted {t u : TypeExpr} (left : t.Spelled) (right : u.Spelled)
    (same : t.form.sorted = u.form.sorted) : t.unplaced = u.unplaced := by
  rw [left.form, right.form, Json.sorted_str, Json.sorted_str] at same
  exact left.text_inj right (Json.str.inj same)

theorem Field.shape_of_sorted {f g : Field} (left : f.Spelled) (right : g.Spelled)
    (same : (Snapshot.fieldJson f).sorted = (Snapshot.fieldJson g).sorted) :
    f.shape = g.shape := by
  have members := Json.find?_sorted_eq f.keyed_fieldJson g.keyed_fieldJson same
  have name : f.name.sorted = g.name.sorted := Option.some.inj (members "name")
  have type : f.type.form.sorted = g.type.form.sorted := Option.some.inj (members "type")
  rw [left.name.sorted, right.name.sorted] at name
  simp only [shape, name, left.type.unplaced_of_sorted right.type type]

theorem Field.shapes_of_sorted {fs gs : List Field} (left : ∀ f ∈ fs, f.Spelled)
    (right : ∀ g ∈ gs, g.Spelled)
    (same : (Snapshot.fieldsMember fs).2.sorted = (Snapshot.fieldsMember gs).2.sorted) :
    fs.map Field.shape = gs.map Field.shape := by
  simp only [Snapshot.fieldsMember, Json.sorted, Json.sortedItems_eq_map, List.map_map] at same
  refine map_eq_map_of (fun f member g among equal => ?_) (Json.arr.inj same)
  exact Field.shape_of_sorted (left f member) (right g among) equal

/-- The name of the second member tells the payload apart, and its value tells the rest. -/
theorem Variant.payload_of_members {v w : Variant} (left : v.payload.Spelled)
    (right : w.payload.Spelled)
    (members : ∀ key : Text,
      (Table.find? key (("name", v.name) :: v.shownPayload)).map Json.sorted =
        (Table.find? key (("name", w.name) :: w.shownPayload)).map Json.sorted) :
    v.payload.shape = w.payload.shape := by
  obtain ⟨_, payload, _, _⟩ := v
  obtain ⟨_, other, _, _⟩ := w
  cases payload with
  | unit =>
      cases other with
      | unit => rfl
      | int m => cases members "discriminant"
      | tuple us => cases members "values"
      | struct gs => cases members "fields"
  | int n =>
      cases other with
      | int m =>
          have value := Option.some.inj (members "discriminant")
          rw [Json.sorted_int, Json.sorted_int] at value
          simp only [Payload.shape, Int.ofNat.inj (Json.int.inj value)]
      | _ => cases members "discriminant"
  | tuple ts =>
      cases other with
      | tuple us =>
          have values := Option.some.inj (members "values")
          simp only [Json.sorted, Json.sortedItems_eq_map, List.map_map] at values
          refine congrArg Payload.tuple (map_eq_map_of ?_ (Json.arr.inj values))
          intro t member u among equal
          exact (left t member).unplaced_of_sorted (right u among) equal
      | _ => cases members "values"
  | struct fs =>
      cases other with
      | struct gs =>
          have fields := Option.some.inj (members "fields")
          exact congrArg Payload.struct (Field.shapes_of_sorted left right fields)
      | _ => cases members "fields"

theorem Variant.shape_of_sorted {v w : Variant} (left : v.Spelled) (right : w.Spelled)
    (same : v.shown.sorted = w.shown.sorted) : v.shape = w.shape := by
  have members := Json.find?_sorted_eq v.keyed_shown w.keyed_shown same
  have name : v.name.sorted = w.name.sorted := Option.some.inj (members "name")
  rw [left.name.sorted, right.name.sorted] at name
  have payload := payload_of_members left.payload right.payload members
  simp only [shape, name, payload]

/-- A variant with no fields does not look like a variant that cannot have any. -/
example : (Variant.shown ⟨.str "A", .struct [], none, none⟩).write .compact ≠
    (Variant.shown ⟨.str "A", .unit, none, none⟩).write .compact := by decide +kernel

theorem Kind.name_injective {k l : Kind} (same : (k.name : Text) = l.name) : k = l := by
  cases k <;> cases l <;> first | rfl | exact absurd same (by decide)

/-- The kind tells structs and nodes apart, and the name of the members tells enums apart. -/
theorem Decl.body_of_members {d e : Decl} (left : d.body.Spelled) (right : e.body.Spelled)
    (kinds : d.kind = e.kind)
    (members : d.shownMembers.1 = e.shownMembers.1 →
      d.shownMembers.2.sorted = e.shownMembers.2.sorted) : d.body.shape = e.body.shape := by
  obtain ⟨_, body, _, _⟩ := d
  obtain ⟨_, other, _, _⟩ := e
  cases body with
  | record node fs =>
      cases other with
      | record otherNode gs =>
          have nodes : node = otherNode := by
            cases node <;> cases otherNode <;> first | rfl | cases kinds
          simp only [Body.shape, nodes, Field.shapes_of_sorted left right (members rfl)]
      | enum ws => cases node <;> cases kinds
  | enum vs =>
      cases other with
      | record node gs => cases node <;> cases kinds
      | enum ws =>
          have variants := members rfl
          simp only [shownMembers, Json.sorted, Json.sortedItems_eq_map, List.map_map] at variants
          refine congrArg Body.enum (map_eq_map_of ?_ (Json.arr.inj variants))
          intro v member w among equal
          exact Variant.shape_of_sorted (left v member) (right w among) equal

theorem Decl.shape_of_sorted {d e : Decl} (left : d.Spelled) (right : e.Spelled)
    (same : d.shown.sorted = e.shown.sorted) : d.shape = e.shape := by
  have members := Json.find?_sorted_eq d.keyed_shown e.keyed_shown same
  have name : d.name.sorted = e.name.sorted := Option.some.inj (members "name")
  rw [left.name.sorted, right.name.sorted] at name
  have shownKind : (Json.str d.kind.name).sorted = (Json.str e.kind.name).sorted :=
    Option.some.inj (members "kind")
  rw [Json.sorted_str, Json.sorted_str] at shownKind
  have kinds : d.kind = e.kind := Kind.name_injective (Json.str.inj shownKind)
  have shownMembers (d : Decl) : Table.find? d.shownMembers.1
      [("name", d.name), ("kind", .str d.kind.name), d.shownMembers] = some d.shownMembers.2 :=
    Table.find?_of_mem d.keyed_shown (by simp)
  have body : d.body.shape = e.body.shape := by
    refine body_of_members left.body right.body kinds fun sameName => ?_
    have found := members d.shownMembers.1
    rw [shownMembers d, sameName, shownMembers e] at found
    exact Option.some.inj found
  simp only [shape, name, body]

end SchemaHistory
