import Mathlib.Data.List.Perm.Basic
import SchemaHistory.Proofs.Arrangement.Basic
import SchemaHistory.Proofs.Excerpt.Basic

/-! # Rearranged schemas

A schema is rearranged when its declarations come in another order, and the fields of records and of
struct variants do, while the variants of an enum keep their order.  `Rearranged` says so of two
schemas; `SchemaArrangement` is the way from one to the other, and the two agree
(`rearranged_iff_exists`).  The excerpt of a rearranged schema is the rearranged excerpt
(`excerpt_act`). -/
set_option autoImplicit false
namespace SchemaHistory

/-! ## Rearranged items -/

inductive Payload.Rearranged : Payload → Payload → Prop
  | same (payload : Payload) : Rearranged payload payload
  | struct {fs gs : List Field} (perm : fs.Perm gs) : Rearranged (.struct fs) (.struct gs)

structure Variant.Rearranged (v w : Variant) : Prop where
  name : v.name = w.name
  header : v.header = w.header
  position : v.position = w.position
  payload : v.payload.Rearranged w.payload

inductive Body.Rearranged : Body → Body → Prop
  | record {node : Bool} {fs gs : List Field} (perm : fs.Perm gs) :
      Rearranged (.record node fs) (.record node gs)
  | enum {vs ws : List Variant} (each : List.Forall₂ Variant.Rearranged vs ws) :
      Rearranged (.enum vs) (.enum ws)

structure Decl.Rearranged (d e : Decl) : Prop where
  name : d.name = e.name
  header : d.header = e.header
  position : d.position = e.position
  body : d.body.Rearranged e.body

/-- The declarations are rearranged one by one and then come in another order. -/
def Rearranged (decls others : List Decl) : Prop :=
  ∃ between, List.Forall₂ Decl.Rearranged decls between ∧ between.Perm others

theorem Payload.Rearranged.symm {p q : Payload} (rearranged : p.Rearranged q) : q.Rearranged p := by
  cases rearranged with
  | same => exact .same p
  | struct perm => exact .struct perm.symm

theorem Variant.Rearranged.symm {v w : Variant} (rearranged : v.Rearranged w) : w.Rearranged v :=
  ⟨rearranged.name.symm, rearranged.header.symm, rearranged.position.symm, rearranged.payload.symm⟩

theorem Variant.Rearranged.refl (v : Variant) : v.Rearranged v := ⟨rfl, rfl, rfl, .same v.payload⟩

theorem Body.Rearranged.symm {b c : Body} (rearranged : b.Rearranged c) : c.Rearranged b := by
  cases rearranged with
  | record perm => exact .record perm.symm
  | enum each => exact .enum (List.Forall₂.flip (each.imp fun _ _ => Variant.Rearranged.symm))

theorem Decl.Rearranged.refl (d : Decl) : d.Rearranged d := by
  refine ⟨rfl, rfl, rfl, ?_⟩
  cases d.body with
  | record node fs => exact .record (.refl fs)
  | enum vs => exact .enum (List.forall₂_same.mpr fun v _ => Variant.Rearranged.refl v)

theorem Decl.Rearranged.symm {d e : Decl} (rearranged : d.Rearranged e) : e.Rearranged d :=
  ⟨rearranged.name.symm, rearranged.header.symm, rearranged.position.symm, rearranged.body.symm⟩

theorem Rearranged.symm {decls others : List Decl} (rearranged : Rearranged decls others) :
    Rearranged others decls := by
  obtain ⟨between, inside, perm⟩ := rearranged
  have back := List.Forall₂.flip (inside.imp fun _ _ => Decl.Rearranged.symm)
  exact List.perm_comp_forall₂ perm.symm back

/-! ## Arrangements of a schema -/

def Payload.arrange (a : Arrangement) : Payload → Payload
  | .struct fs => .struct (a.act fs)
  | other => other

def Variant.arrange (a : Arrangement) (v : Variant) : Variant :=
  { v with payload := v.payload.arrange a }

structure DeclArrangement where
  fields : Arrangement
  inner : List Arrangement
  deriving Repr

def Body.arrange (a : DeclArrangement) : Body → Body
  | .record node fs => .record node (a.fields.act fs)
  | .enum vs => .enum (Arrangement.each Variant.arrange a.inner vs)

def Decl.arrange (a : DeclArrangement) (d : Decl) : Decl := { d with body := d.body.arrange a }

structure SchemaArrangement where
  outer : Arrangement
  inner : List DeclArrangement
  deriving Repr

def SchemaArrangement.act (a : SchemaArrangement) (decls : List Decl) : List Decl :=
  a.outer.act (Arrangement.each Decl.arrange a.inner decls)

theorem Payload.rearranged_iff_exists {p q : Payload} :
    p.Rearranged q ↔ ∃ a, p.arrange a = q := by
  constructor
  · intro rearranged
    cases rearranged with
    | same =>
        refine ⟨.keep, ?_⟩
        cases p <;> rfl
    | struct perm =>
        obtain ⟨a, acts⟩ := Arrangement.exists_of_perm perm
        exact ⟨a, congrArg struct acts⟩
  · rintro ⟨a, rfl⟩
    cases p with
    | struct fs => exact .struct (a.act_perm fs).symm
    | unit => exact .same _
    | int n => exact .same _
    | tuple ts => exact .same _

theorem Variant.rearranged_iff_exists {v w : Variant} :
    v.Rearranged w ↔ ∃ a, v.arrange a = w := by
  constructor
  · intro rearranged
    obtain ⟨a, acts⟩ := Payload.rearranged_iff_exists.mp rearranged.payload
    obtain ⟨name, payload, header, position⟩ := w
    obtain ⟨rfl, rfl, rfl, -⟩ := rearranged
    exact ⟨a, congrArg (fun q => (⟨v.name, q, v.header, v.position⟩ : Variant)) acts⟩
  · rintro ⟨a, rfl⟩
    exact ⟨rfl, rfl, rfl, Payload.rearranged_iff_exists.mpr ⟨a, rfl⟩⟩

theorem Body.rearranged_iff_exists {b c : Body} : b.Rearranged c ↔ ∃ a, b.arrange a = c := by
  constructor
  · intro rearranged
    cases rearranged with
    | record perm =>
        obtain ⟨a, acts⟩ := Arrangement.exists_of_perm perm
        exact ⟨⟨a, []⟩, congrArg (record _) acts⟩
    | enum each =>
        obtain ⟨inner, acts⟩ := Arrangement.exists_each Variant.arrange
          (fun _ _ => Variant.rearranged_iff_exists.mp) each
        exact ⟨⟨.keep, inner⟩, congrArg enum acts⟩
  · rintro ⟨a, rfl⟩
    cases b with
    | record node fs => exact .record (a.fields.act_perm fs).symm
    | enum vs =>
        exact .enum (Arrangement.forall₂_each Variant.arrange
          (fun c v => Variant.rearranged_iff_exists.mpr ⟨c, rfl⟩) Variant.Rearranged.refl
          a.inner vs)

theorem Decl.rearranged_iff_exists {d e : Decl} : d.Rearranged e ↔ ∃ a, d.arrange a = e := by
  constructor
  · intro rearranged
    obtain ⟨a, acts⟩ := Body.rearranged_iff_exists.mp rearranged.body
    obtain ⟨name, body, header, position⟩ := e
    obtain ⟨rfl, rfl, rfl, -⟩ := rearranged
    exact ⟨a, congrArg (fun b => (⟨d.name, b, d.header, d.position⟩ : Decl)) acts⟩
  · rintro ⟨a, rfl⟩
    exact ⟨rfl, rfl, rfl, Body.rearranged_iff_exists.mpr ⟨a, rfl⟩⟩

/-- The rearranged schemas are those that an arrangement leads to. -/
theorem rearranged_iff_exists {decls others : List Decl} :
    Rearranged decls others ↔ ∃ a : SchemaArrangement, a.act decls = others := by
  constructor
  · intro rearranged
    obtain ⟨between, inside, perm⟩ := rearranged
    obtain ⟨inner, acts⟩ := Arrangement.exists_each Decl.arrange
      (fun _ _ => Decl.rearranged_iff_exists.mp) inside
    obtain ⟨outer, moves⟩ := Arrangement.exists_of_perm perm
    exact ⟨⟨outer, inner⟩, by rw [SchemaArrangement.act, acts, moves]⟩
  · rintro ⟨a, rfl⟩
    refine ⟨Arrangement.each Decl.arrange a.inner decls, ?_, (a.outer.act_perm _).symm⟩
    exact Arrangement.forall₂_each Decl.arrange
      (fun c d => Decl.rearranged_iff_exists.mpr ⟨c, rfl⟩) Decl.Rearranged.refl a.inner decls

/-! ## What is left of an arrangement in a version -/

section
variable (version : Int)

def Field.living (l : Lifetime) (f : Field) : Bool := decide (version ∈ f.lifetime l)

def Variant.living (l : Lifetime) (v : Variant) : Bool := decide (version ∈ v.lifetime l)

def Decl.living (d : Decl) : Bool := decide (version ∈ d.lifetime)

def Variant.among (l : Lifetime) (a : Arrangement) (v : Variant) : Arrangement :=
  a.among (v.payload.fields.map (Field.living version (v.lifetime l)))

def DeclArrangement.among (a : DeclArrangement) (d : Decl) : DeclArrangement where
  fields := a.fields.among (d.fields.map (Field.living version d.lifetime))
  inner := Arrangement.beside (Variant.living version d.lifetime)
    (Variant.among version d.lifetime) a.inner d.variants

def SchemaArrangement.among (a : SchemaArrangement) (decls : List Decl) : SchemaArrangement where
  outer := a.outer.among (decls.map (Decl.living version))
  inner := Arrangement.beside (Decl.living version) (DeclArrangement.among version) a.inner decls

theorem Field.excerpts_act (a : Arrangement) (l : Lifetime) (fs : List Field) :
    Field.excerpts version l (a.act fs) =
      (a.among (fs.map (Field.living version l))).act (Field.excerpts version l fs) := by
  unfold Field.excerpts
  rw [Arrangement.act_map]
  exact congrArg (List.map bare) (a.filter_act (Field.living version l) fs)

theorem Variant.excerpt_arrange (l : Lifetime) (a : Arrangement) (v : Variant) :
    (v.arrange a).excerpt version l = (v.excerpt version l).arrange (v.among version l a) := by
  obtain ⟨name, payload, header, position⟩ := v
  cases payload with
  | struct fs =>
      exact congrArg (fun gs => (⟨name, .struct gs, none, position⟩ : Variant))
        (Field.excerpts_act version a _ fs)
  | _ => rfl

theorem Decl.excerpt_arrange (a : DeclArrangement) (d : Decl) :
    (d.arrange a).excerpt version = (d.excerpt version).arrange (a.among version d) := by
  obtain ⟨name, body, header, position⟩ := d
  cases body with
  | record node fs =>
      exact congrArg (fun gs => (⟨name, .record node gs, none, position⟩ : Decl))
        (Field.excerpts_act version a.fields _ fs)
  | enum vs =>
      exact congrArg (fun ws => (⟨name, .enum ws, none, position⟩ : Decl))
        (Arrangement.filter_each Variant.arrange (fun _ _ => rfl)
          (Variant.excerpt_arrange version _) a.inner vs)

/-- The excerpt of a rearranged schema is the excerpt, rearranged as far as it lives. -/
theorem excerpt_act (a : SchemaArrangement) (decls : List Decl) :
    excerpt version (a.act decls) = (a.among version decls).act (excerpt version decls) := by
  have same : (Arrangement.each Decl.arrange a.inner decls).map (Decl.living version) =
      decls.map (Decl.living version) := Arrangement.map_each Decl.arrange (fun _ _ => rfl) _ _
  have outer := a.outer.filter_act (Decl.living version)
    (Arrangement.each Decl.arrange a.inner decls)
  have inner := Arrangement.filter_each Decl.arrange (p := Decl.living version) (fun _ _ => rfl)
    (Decl.excerpt_arrange version) a.inner decls
  calc excerpt version (a.act decls)
      = ((a.outer.act (Arrangement.each Decl.arrange a.inner decls)).filter
          (Decl.living version)).map (Decl.excerpt version) := rfl
    _ = (a.outer.among (decls.map (Decl.living version))).act
          (((Arrangement.each Decl.arrange a.inner decls).filter
            (Decl.living version)).map (Decl.excerpt version)) := by
        rw [outer, same, Arrangement.act_map]
    _ = (a.among version decls).act (excerpt version decls) := by
        rw [inner]
        rfl

end
end SchemaHistory
