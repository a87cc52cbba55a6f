import SchemaHistory.Proofs.Compiled.Acceptance
import SchemaHistory.Proofs.Fingerprint.Shape

/-! # The canonical text identifies the shape

The text that is digested is the same for two schemas that were read from texts exactly if they have
the same number of versions and, version by version, the same shapes in the same order
(`Compiled.canonical_eq_iff_shapes`).  The exported value of such a schema is plain, so its compact
text determines it, and the value of each version determines the shapes of its types. -/
set_option autoImplicit false
namespace SchemaHistory

/-! ## Letters that need no escapes -/

theorem Json.isVerbatim_of_isWordPart {l : Letter} (part : Scan.isWordPart l = true) :
    isVerbatim l = true := by
  cases l with
  | surrogate offset => cases part
  | char c =>
      rcases Scan.isWordPart_char.mp part with start | digit
      · have code := Scan.isWordStart_iff.mp start
        exact isVerbatim_char (by omega) (by omega) (by omega) (by omega)
      · have code := Scan.isDigit_iff.mp digit
        exact isVerbatim_char (by omega) (by omega) (by omega) (by omega)

theorem Scan.verbatim_of_isName {w : Text} (name : isName w = true) :
    ∀ l ∈ w, Json.isVerbatim l = true :=
  fun l member => Json.isVerbatim_of_isWordPart (isWordPart_of_isName name l member)

theorem Text.verbatim_ofNat (n : Nat) : ∀ l ∈ Text.ofNat n, Json.isVerbatim l = true := by
  intro l member
  have digit := Text.isWesternDigit_of_mem_ofNat member
  cases l with
  | surrogate offset => cases digit
  | char c => exact Json.isVerbatim_of_isWordPart (Scan.isWordPart_char.mpr (.inr digit))

theorem Text.verbatim_join {parts : List Text}
    (each : ∀ part ∈ parts, ∀ l ∈ part, Json.isVerbatim l = true) :
    ∀ l ∈ Text.join ", " parts, Json.isVerbatim l = true := by
  induction parts with
  | nil => exact fun l member => nomatch member
  | cons s rest ih =>
      obtain ⟨first, others⟩ := List.forall_mem_cons.mp each
      cases rest with
      | nil =>
          rw [Text.join, List.intercalate_singleton]
          exact first
      | cons t rest =>
          rw [Text.join_cons_cons]
          simp only [List.forall_mem_append, List.forall_mem_cons]
          exact ⟨first, by decide, by decide, ih others⟩

theorem TypeExpr.Spelled.verbatim {t : TypeExpr} (spelled : t.Spelled) :
    ∀ l ∈ t.text, Json.isVerbatim l = true := by
  induction spelled with
  | @primitive kind p =>
      have word : Scan.isName kind.name = true := by cases kind <;> decide
      exact Scan.verbatim_of_isName word
  | named word notRef notOpt notPrimitive => exact Scan.verbatim_of_isName word
  | optional inner ih =>
      rw [text_optional]
      simp only [List.forall_mem_append, List.forall_mem_cons]
      exact ⟨by decide, by decide, ih, by decide⟩
  | reference inner ih =>
      rw [text_reference]
      simp only [List.forall_mem_append, List.forall_mem_cons]
      exact ⟨by decide, by decide, ih, by decide⟩
  | @array t n p inner fits ih =>
      rw [text_array]
      simp only [List.forall_mem_append, List.forall_mem_cons]
      exact ⟨by decide, ih, by decide, by decide, Text.verbatim_ofNat n, by decide⟩
  | slice inner ih =>
      rw [text_slice]
      simp only [List.forall_mem_append, List.forall_mem_cons]
      exact ⟨by decide, ih, by decide⟩
  | tuple inner ih =>
      rw [text_tuple]
      simp only [List.forall_mem_append, List.forall_mem_cons]
      exact ⟨by decide, Text.verbatim_join (List.forall_mem_map.mpr ih), by decide⟩

/-! ## Exported values are plain -/

theorem Json.IsName.plain {name : Json} (isName : name.IsName) : name.Plain := by
  obtain ⟨w, rfl, word⟩ := isName
  exact .str (Scan.verbatim_of_isName word)

theorem TypeExpr.Spelled.plain {t : TypeExpr} (spelled : t.Spelled) : t.form.Plain := by
  rw [spelled.form]
  exact .str spelled.verbatim

theorem Field.Spelled.plain {f : Field} (spelled : f.Spelled) : (Snapshot.fieldJson f).Plain := by
  have name : Json.PlainMember ("name", f.name) := Json.plainMember (by decide) spelled.name.plain
  have type : Json.PlainMember ("type", f.type.form) :=
    Json.plainMember (by decide) spelled.type.plain
  exact Json.plain_obj (List.forall_mem_cons.mpr ⟨name, List.forall_mem_singleton.mpr type⟩)

theorem Field.plain_all {fs : List Field} (spelled : ∀ f ∈ fs, f.Spelled) :
    Json.PlainMember (Snapshot.fieldsMember fs) :=
  Json.plainMember (by decide) (.arr (List.forall_mem_map.mpr fun f member =>
    (spelled f member).plain))

theorem Variant.Spelled.plain {v : Variant} (spelled : v.Spelled) : v.shown.Plain := by
  have name : Json.PlainMember ("name", v.name) :=
    Json.plainMember (by decide) spelled.name.plain
  have payload : ∀ m ∈ v.shownPayload, Json.PlainMember m := by
    have carried := spelled.payload
    obtain ⟨_, payload, _, _⟩ := v
    cases payload with
    | unit => exact fun m member => nomatch member
    | int n => exact List.forall_mem_singleton.mpr (Json.plainMember (by decide) .int)
    | tuple ts =>
        have values := List.forall_mem_map.mpr fun t member => (carried t member).plain
        exact List.forall_mem_singleton.mpr (Json.plainMember (by decide) (.arr values))
    | struct fs => exact List.forall_mem_singleton.mpr (Field.plain_all carried)
  exact Json.plain_obj (List.forall_mem_cons.mpr ⟨name, payload⟩)

theorem Decl.Spelled.plain {d : Decl} (spelled : d.Spelled) : d.shown.Plain := by
  have name : Json.PlainMember ("name", d.name) :=
    Json.plainMember (by decide) spelled.name.plain
  have kind : Json.PlainMember ("kind", .str d.kind.name) := by
    have verbatim : ∀ l ∈ (d.kind.name : Text), Json.isVerbatim l = true := by
      cases d.kind <;> decide
    exact Json.plainMember (by decide) (.str verbatim)
  have members : Json.PlainMember d.shownMembers := by
    have inner := spelled.body
    obtain ⟨_, body, _, _⟩ := d
    cases body with
    | record node fs => exact Field.plain_all inner
    | enum vs =>
        have variants := List.forall_mem_map.mpr fun v member => (inner v member).plain
        exact Json.plainMember (by decide) (.arr variants)
  have all := List.forall_mem_cons.mpr ⟨kind, List.forall_mem_singleton.mpr members⟩
  exact Json.plain_obj (List.forall_mem_cons.mpr ⟨name, all⟩)

/-! ## Versions -/

def versionJson (version : Int) (schema : List Decl) : Json :=
  .obj [("version", .int version), ("types", .arr (schema.map Decl.shown))]

namespace Compiled

theorem json_layouts (decls : List Decl) : json ⟨decls, History.layouts decls⟩ =
    .obj [("versions", .arr ((versionsOf decls).map fun version =>
      versionJson version (excerpt version decls)))] := by
  simp only [json, History.layouts_eq_map, List.map_map, Function.comp_def, Snapshot.json_layout]
  rfl

theorem plain_versionJson {version : Int} {schema : List Decl} (first : 1 ≤ version)
    (spelled : ∀ d ∈ schema, d.Spelled) : (versionJson version schema).Plain := by
  obtain ⟨n, rfl⟩ := Int.eq_ofNat_of_zero_le (Int.le_trans (by decide) first)
  have types := List.forall_mem_map.mpr fun d member => (spelled d member).plain
  have number : Json.PlainMember ("version", .int n) := Json.plainMember (by decide) .int
  have listed : Json.PlainMember ("types", .arr (schema.map Decl.shown)) :=
    Json.plainMember (by decide) (.arr types)
  exact Json.plain_obj (List.forall_mem_cons.mpr ⟨number, List.forall_mem_singleton.mpr listed⟩)

theorem plain_json {decls : List Decl} (spelled : ∀ d ∈ decls, d.Spelled) :
    (json ⟨decls, History.layouts decls⟩).Plain := by
  have versions : ∀ version ∈ versionsOf decls,
      (versionJson version (excerpt version decls)).Plain := by
    intro version member
    exact plain_versionJson (mem_versionsOf.mp member).1 (spelled_excerpt spelled)
  rw [json_layouts]
  exact Json.plain_obj (List.forall_mem_singleton.mpr
    (Json.plainMember (by decide) (.arr (List.forall_mem_map.mpr versions))))

/-! ## Equal canonical texts -/

section
variable {decls others : List Decl}

theorem versions_eq_toNat (decls : List Decl) :
    versions ⟨decls, History.layouts decls⟩ = (lastVersion decls).toNat := by
  simp only [versions, History.layouts, List.length_map, List.length_range]

theorem versionsOf_eq_iff : versionsOf decls = versionsOf others ↔
    versions ⟨decls, History.layouts decls⟩ = versions ⟨others, History.layouts others⟩ := by
  rw [versions_eq_toNat, versions_eq_toNat]
  constructor
  · intro same
    have lengths := congrArg List.length same
    simpa only [versionsOf, List.length_map, List.length_range] using lengths
  · intro same
    rw [versionsOf, versionsOf, same]

theorem shapes_of_sorted {version : Int} (spelled : ∀ d ∈ decls, d.Spelled)
    (otherSpelled : ∀ d ∈ others, d.Spelled)
    (same : (versionJson version decls).sorted = (versionJson version others).sorted) :
    decls.map Decl.shape = others.map Decl.shape := by
  have keyed (schema : List Decl) : Table.Keyed
      [(("version" : Text), Json.int version), ("types", .arr (schema.map Decl.shown))] := by
    show (["version", "types"] : List Text).Nodup
    decide
  have types := Option.some.inj (Json.find?_sorted_eq (keyed decls) (keyed others) same "types")
  simp only [Json.sorted, Json.sortedItems_eq_map, List.map_map] at types
  refine map_eq_map_of (fun d member e among equal => ?_) (Json.arr.inj types)
  exact Decl.shape_of_sorted (spelled d member) (otherSpelled e among) equal

theorem versionJson_eq {version : Int} (same : decls.map Decl.shape = others.map Decl.shape) :
    versionJson version decls = versionJson version others := by
  have shown (schema : List Decl) :
      schema.map Decl.shown = (schema.map Decl.shape).map Decl.shown := by
    rw [List.map_map]
    exact List.map_congr_left fun d _ => d.shown_shape.symm
  rw [versionJson, versionJson, shown, same, ← shown]

/-- Spelled schemas have one canonical text exactly if they have the same shapes in the same
versions. -/
theorem canonical_layouts_eq_iff (spelled : ∀ d ∈ decls, d.Spelled)
    (otherSpelled : ∀ d ∈ others, d.Spelled) :
    canonical ⟨decls, History.layouts decls⟩ = canonical ⟨others, History.layouts others⟩ ↔
      versionsOf decls = versionsOf others ∧ ∀ version ∈ versionsOf decls,
        (excerpt version decls).map Decl.shape = (excerpt version others).map Decl.shape := by
  constructor
  · intro same
    have values := (plain_json spelled).sorted.write_inj (plain_json otherSpelled).sorted same
    rw [json_layouts, json_layouts] at values
    have keyed (listed : Json) : Table.Keyed [(("versions" : Text), listed)] :=
      List.nodup_singleton _
    have versions := Option.some.inj
      (Json.find?_sorted_eq (keyed _) (keyed _) values "versions")
    simp only [Json.sorted, Json.sortedItems_eq_map, List.map_map, Json.arr.injEq] at versions
    have lengths := congrArg List.length versions
    simp only [versionsOf, List.length_map, List.length_range] at lengths
    have numbers : versionsOf decls = versionsOf others := by rw [versionsOf, versionsOf, lengths]
    rw [← numbers] at versions
    refine ⟨numbers, fun version member => ?_⟩
    exact shapes_of_sorted (spelled_excerpt spelled) (spelled_excerpt otherSpelled)
      (List.map_inj_left.mp versions version member)
  · rintro ⟨numbers, shapes⟩
    have values : json ⟨decls, History.layouts decls⟩ = json ⟨others, History.layouts others⟩ := by
      rw [json_layouts, json_layouts, ← numbers]
      have each : ∀ version ∈ versionsOf decls, versionJson version (excerpt version decls) =
          versionJson version (excerpt version others) := by
        intro version member
        exact versionJson_eq (shapes version member)
      rw [List.map_inj_left.mpr each]
    exact congrArg (fun value => (Json.sorted value).write .compact) values

end

/-- Two schema texts that compile have one canonical text exactly if they have equally many versions
and each version has the same types in the same order, up to headers and places. -/
theorem canonical_eq_iff_shapes {text other : Text} {file otherFile : Option Text}
    {limit otherLimit : Int} {decls others : List Decl} {c d : Compiled}
    (read : declarationsOfText text file = .ok decls)
    (compiled : ofDeclarations limit decls = .ok c)
    (otherRead : declarationsOfText other otherFile = .ok others)
    (otherCompiled : ofDeclarations otherLimit others = .ok d) :
    c.canonical = d.canonical ↔
      c.versions = d.versions ∧ ∀ version : Int, 1 ≤ version → version ≤ c.versions →
        (excerpt version decls).map Decl.shape = (excerpt version others).map Decl.shape := by
  obtain ⟨-, -, rfl⟩ := ofDeclarations_eq_ok_iff.mp compiled
  obtain ⟨-, -, rfl⟩ := ofDeclarations_eq_ok_iff.mp otherCompiled
  have inside (version : Int) : version ∈ versionsOf decls ↔
      1 ≤ version ∧ version ≤ (versions ⟨decls, History.layouts decls⟩ : Int) := by
    rw [mem_versionsOf, versions_eq_toNat]
    omega
  rw [canonical_layouts_eq_iff (spelled_of_text read) (spelled_of_text otherRead),
    versionsOf_eq_iff]
  simp only [inside, and_imp]

def canonicalOfText? (limit : Int) (text : Text) (file : Option Text) : Option Text :=
  (declarationsOfText text file).toOption.bind fun decls =>
    (ofDeclarations limit decls).toOption.map canonical

theorem exists_of_canonicalOfText? {limit : Int} {text t : Text} {file : Option Text}
    (written : canonicalOfText? limit text file = some t) :
    ∃ decls c, declarationsOfText text file = .ok decls ∧ ofDeclarations limit decls = .ok c ∧
      c.canonical = t := by
  unfold canonicalOfText? at written
  cases read : declarationsOfText text file with
  | error fault =>
      rw [read] at written
      cases written
  | ok decls =>
      rw [read] at written
      cases compiled : ofDeclarations limit decls with
      | error rejection => simp [Except.toOption, compiled] at written
      | ok c =>
          simp only [Except.toOption, Option.bind_some, compiled, Option.map_some] at written
          exact ⟨decls, c, rfl, compiled, Option.some.inj written⟩

def spacedText : Text :=
  "struct S \x7b f: [(E, u8); 3], #[add(2)] g: opt<E> \x7d enum E \x7b A, B \x7b\x7d \x7d"

def denseText : Text :=
  "struct S\x7b#[add(1)]f:[(E,u8,);3],#[add(2)]g:opt<E>\x7d// last\nenum E\x7bA,B\x7b\x7d,\x7d"

theorem canonical_eq_iff_shapes_respaced :
    ∃ decls others c d,
      declarationsOfText spacedText none = .ok decls ∧ ofDeclarations 9 decls = .ok c ∧
      declarationsOfText denseText (some "s") = .ok others ∧ ofDeclarations 2 others = .ok d ∧
      c.versions = d.versions ∧ ∀ version : Int, 1 ≤ version → version ≤ c.versions →
        (excerpt version decls).map Decl.shape = (excerpt version others).map Decl.shape := by
  have present : (canonicalOfText? 9 spacedText none).isSome = true := by decide +kernel
  have same : canonicalOfText? 9 spacedText none = canonicalOfText? 2 denseText (some "s") := by
    decide +kernel
  obtain ⟨t, written⟩ := Option.isSome_iff_exists.mp present
  obtain ⟨decls, c, read, compiled, own⟩ := exists_of_canonicalOfText? written
  obtain ⟨others, d, otherRead, otherCompiled, other⟩ :=
    exists_of_canonicalOfText? (same.symm.trans written)
  exact ⟨decls, others, c, d, read, compiled, otherRead, otherCompiled,
    (canonical_eq_iff_shapes read compiled otherRead otherCompiled).mp (own.trans other.symm)⟩

end Compiled
end SchemaHistory
