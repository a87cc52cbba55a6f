import SchemaHistory.Proofs.History.Items

/-! # Excerpts: a schema as it stands in one version

The excerpt of a schema for a version keeps the types, fields, variants and fields of struct
variants that live in the version and strips all headers, so it is a schema without versions.  An
excerpt mentions no version, all of its items live everywhere, and taking an excerpt again changes
nothing (`excerpt_excerpt`). -/
set_option autoImplicit false
namespace SchemaHistory

namespace Field

def bare (f : Field) : Field := { f with header := none }

def excerpts (version : Int) (container : Lifetime) (fs : List Field) : List Field :=
  (fs.filter fun f => decide (version ∈ f.lifetime container)).map bare

end Field

def Payload.excerpt (version : Int) (l : Lifetime) : Payload → Payload
  | .struct fs => .struct (Field.excerpts version l fs)
  | other => other

namespace Variant

def excerpt (version : Int) (container : Lifetime) (v : Variant) : Variant :=
  { v with header := none, payload := v.payload.excerpt version (v.lifetime container) }

/-- The variants that live in a version, without headers and with their living fields. -/
def excerpts (version : Int) (container : Lifetime) (vs : List Variant) : List Variant :=
  (vs.filter fun v => decide (version ∈ v.lifetime container)).map (excerpt version container)

end Variant

def Body.excerpt (version : Int) (l : Lifetime) : Body → Body
  | .record node fs => .record node (Field.excerpts version l fs)
  | .enum vs => .enum (Variant.excerpts version l vs)

def Decl.excerpt (version : Int) (d : Decl) : Decl :=
  { d with header := none, body := d.body.excerpt version d.lifetime }

/-- The schema as it stands in a version: what lives in it, without headers. -/
def excerpt (version : Int) (decls : List Decl) : List Decl :=
  (decls.filter fun d => decide (version ∈ d.lifetime)).map (Decl.excerpt version)

/-! ## What an excerpt keeps -/

namespace Field

@[simp] theorem bare_name (f : Field) : f.bare.name = f.name := rfl

@[simp] theorem bare_type (f : Field) : f.bare.type = f.type := rfl

@[simp] theorem bare_bare (f : Field) : f.bare.bare = f.bare := rfl

@[simp] theorem bare_lifetime (f : Field) (container : Lifetime) :
    f.bare.lifetime container = container := rfl

theorem mem_excerpts {version : Int} {container : Lifetime} {fs : List Field} {g : Field} :
    g ∈ excerpts version container fs ↔ ∃ f ∈ fs, version ∈ f.lifetime container ∧ f.bare = g := by
  simp only [excerpts, List.mem_map, List.mem_filter, decide_eq_true_eq, and_assoc]

end Field

namespace Variant

@[simp] theorem excerpt_name (version : Int) (container : Lifetime) (v : Variant) :
    (v.excerpt version container).name = v.name := rfl

@[simp] theorem excerpt_lifetime (version : Int) (container own : Lifetime) (v : Variant) :
    (v.excerpt version container).lifetime own = own := rfl

@[simp] theorem excerpt_fields (version : Int) (container : Lifetime) (v : Variant) :
    (v.excerpt version container).payload.fields =
      Field.excerpts version (v.lifetime container) v.payload.fields := by
  obtain ⟨name, payload, header, position⟩ := v
  cases payload <;> rfl

@[simp] theorem excerpt_style (version : Int) (container : Lifetime) (v : Variant) :
    Style.of? (v.excerpt version container).payload = Style.of? v.payload := by
  obtain ⟨name, payload, header, position⟩ := v
  cases payload <;> rfl

theorem mem_excerpts {version : Int} {container : Lifetime} {vs : List Variant} {w : Variant} :
    w ∈ excerpts version container vs ↔
      ∃ v ∈ vs, version ∈ v.lifetime container ∧ v.excerpt version container = w := by
  simp only [excerpts, List.mem_map, List.mem_filter, decide_eq_true_eq, and_assoc]

end Variant

namespace Decl

@[simp] theorem excerpt_name (version : Int) (d : Decl) : (d.excerpt version).name = d.name := rfl

@[simp] theorem excerpt_lifetime (version : Int) (d : Decl) :
    (d.excerpt version).lifetime = .unbounded := rfl

@[simp] theorem excerpt_kind (version : Int) (d : Decl) : (d.excerpt version).kind = d.kind := by
  obtain ⟨name, body, header, position⟩ := d
  cases body with
  | record node fs => cases node <;> rfl
  | enum vs => rfl

@[simp] theorem excerpt_isNode (version : Int) (d : Decl) :
    (d.excerpt version).isNode = d.isNode := by
  simp only [isNode, excerpt_kind]

@[simp] theorem excerpt_fields (version : Int) (d : Decl) :
    (d.excerpt version).fields = Field.excerpts version d.lifetime d.fields := by
  obtain ⟨name, body, header, position⟩ := d
  cases body <;> rfl

@[simp] theorem excerpt_variants (version : Int) (d : Decl) :
    (d.excerpt version).variants = Variant.excerpts version d.lifetime d.variants := by
  obtain ⟨name, body, header, position⟩ := d
  cases body <;> rfl

end Decl

theorem mem_excerpt {version : Int} {decls : List Decl} {e : Decl} :
    e ∈ excerpt version decls ↔
      ∃ d ∈ decls, version ∈ d.lifetime ∧ d.excerpt version = e := by
  simp only [excerpt, List.mem_map, List.mem_filter, decide_eq_true_eq, and_assoc]

/-! ## Nothing outside of a container -/

theorem Field.excerpts_eq_nil {version : Int} {l : Lifetime} (outside : version ∉ l)
    (fs : List Field) : Field.excerpts version l fs = [] := by
  rw [List.eq_nil_iff_forall_not_mem]
  intro f member
  obtain ⟨g, -, inside, rfl⟩ := Field.mem_excerpts.mp member
  exact outside (Lifetime.ofHeader_subset _ _ version inside)

theorem Variant.excerpts_eq_nil {version : Int} {l : Lifetime} (outside : version ∉ l)
    (vs : List Variant) : Variant.excerpts version l vs = [] := by
  rw [List.eq_nil_iff_forall_not_mem]
  intro v member
  obtain ⟨w, -, inside, rfl⟩ := Variant.mem_excerpts.mp member
  exact outside (Lifetime.ofHeader_subset _ _ version inside)

/-! ## Excerpts of excerpts -/

section
variable (version : Int) {other : Int} (l : Lifetime) {own : Lifetime}

theorem Field.excerpts_excerpts (inside : other ∈ own) (fs : List Field) :
    Field.excerpts other own (Field.excerpts version l fs) = Field.excerpts version l fs := by
  have all : ∀ f ∈ Field.excerpts version l fs, decide (other ∈ f.lifetime own) = true := by
    intro f member
    obtain ⟨g, -, -, rfl⟩ := Field.mem_excerpts.mp member
    exact decide_eq_true inside
  rw [Field.excerpts, List.filter_eq_self.mpr all]
  simp only [Field.excerpts, List.map_map]
  rfl

theorem Variant.excerpt_excerpt (inside : other ∈ own) (v : Variant) :
    (v.excerpt version l).excerpt other own = v.excerpt version l := by
  obtain ⟨name, payload, header, position⟩ := v
  cases payload with
  | struct fs =>
      have same := Field.excerpts_excerpts version (.ofHeader header (some l)) inside fs
      simpa [Variant.excerpt, Payload.excerpt, Variant.lifetime] using same
  | unit => rfl
  | int discriminant => rfl
  | tuple ts => rfl

theorem Variant.excerpts_excerpts (inside : other ∈ own) (vs : List Variant) :
    Variant.excerpts other own (Variant.excerpts version l vs) = Variant.excerpts version l vs := by
  have all : ∀ v ∈ Variant.excerpts version l vs, decide (other ∈ v.lifetime own) = true := by
    intro v member
    obtain ⟨w, -, -, rfl⟩ := Variant.mem_excerpts.mp member
    exact decide_eq_true inside
  rw [Variant.excerpts, List.filter_eq_self.mpr all]
  simp only [Variant.excerpts, List.map_map]
  exact List.map_congr_left fun v _ => Variant.excerpt_excerpt version l inside v

theorem Decl.excerpt_excerpt (first : 1 ≤ other) (d : Decl) :
    (d.excerpt version).excerpt other = d.excerpt version := by
  obtain ⟨name, body, header, position⟩ := d
  have inside : other ∈ Lifetime.unbounded := ⟨first, trivial⟩
  cases body with
  | record node fs =>
      have same := Field.excerpts_excerpts version (.ofHeader header none) inside fs
      simpa [Decl.excerpt, Body.excerpt, Decl.lifetime] using same
  | enum vs =>
      have same := Variant.excerpts_excerpts version (.ofHeader header none) inside vs
      simpa [Decl.excerpt, Body.excerpt, Decl.lifetime] using same

end

theorem excerpt_excerpt {version other : Int} (first : 1 ≤ other) (decls : List Decl) :
    excerpt other (excerpt version decls) = excerpt version decls := by
  have all : ∀ d ∈ excerpt version decls, decide (other ∈ d.lifetime) = true := by
    intro d member
    obtain ⟨e, -, -, rfl⟩ := mem_excerpt.mp member
    exact decide_eq_true ⟨first, trivial⟩
  rw [excerpt, List.filter_eq_self.mpr all]
  simp only [excerpt, List.map_map]
  exact List.map_congr_left fun d _ => Decl.excerpt_excerpt version first d

/-! ## Excerpts have no headers -/

theorem mentioned_excerpt (version : Int) (decls : List Decl) :
    mentioned (excerpt version decls) = [] := by
  have bareFields : ∀ l fs, ((Field.excerpts version l fs).flatMap fun f =>
      mentionedBy f.header) = [] := by
    intro l fs
    rw [List.flatMap_eq_nil_iff]
    intro f member
    obtain ⟨g, -, -, rfl⟩ := Field.mem_excerpts.mp member
    rfl
  have bareVariants : ∀ l vs, (Variant.excerpts version l vs).flatMap Variant.mentioned = [] := by
    intro l vs
    rw [List.flatMap_eq_nil_iff]
    intro v member
    obtain ⟨w, -, -, rfl⟩ := Variant.mem_excerpts.mp member
    rw [Variant.mentioned, Variant.excerpt_fields, bareFields]
    rfl
  rw [mentioned, List.flatMap_eq_nil_iff]
  intro d member
  obtain ⟨e, -, -, rfl⟩ := mem_excerpt.mp member
  rw [Decl.mentioned, Decl.excerpt_fields, Decl.excerpt_variants, bareFields, bareVariants]
  rfl

end SchemaHistory
