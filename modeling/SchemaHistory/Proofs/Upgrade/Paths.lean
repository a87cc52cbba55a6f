import SchemaHistory.Proofs.Text.Pieces
import SchemaHistory.Proofs.Upgrade.Differences

/-! # Paths of changes

The path of a change tells what it is about, as long as the names of types and variants have no dot
in them: up to the next dot behind its owner, a path says which item of a scope the change is about
or inside of.  So the changes between two versions have distinct paths
(`nodup_schemaReport`).  The names of fields may have dots, since nothing is inside of a field. -/
set_option autoImplicit false
namespace SchemaHistory.Upgrade

def Dotless (t : Text) : Prop := ∀ l ∈ t, l ≠ .char '.'

instance (t : Text) : Decidable (Dotless t) :=
  inferInstanceAs (Decidable (∀ l ∈ t, l ≠ .char '.'))

def DotlessNames (decls : List Decl) : Prop :=
  ∀ d ∈ decls, Dotless d.name.shown ∧ ∀ v ∈ d.variants, Dotless v.name.shown

instance (decls : List Decl) : Decidable (DotlessNames decls) :=
  inferInstanceAs (Decidable (∀ d ∈ decls,
    Dotless d.name.shown ∧ ∀ v ∈ d.variants, Dotless v.name.shown))

def upToDot (t : Text) : Text := t.takeWhile fun l => decide (l ≠ .char '.')

def behind (owner t : Text) : Text := t.drop (owner.length + 1)

theorem upToDot_append {t rest : Text} (dotless : Dotless t)
    (stops : Text.Stops (fun l => decide (l ≠ .char '.')) rest) : upToDot (t ++ rest) = t :=
  Text.takeWhile_append_stops (fun l member => decide_eq_true (dotless l member)) stops

theorem upToDot_dotless {t : Text} (dotless : Dotless t) : upToDot t = t := by
  have whole := upToDot_append dotless Text.stops_nil
  rwa [List.append_nil] at whole

theorem stops_dot (rest : Text) :
    Text.Stops (fun l => decide (l ≠ .char '.')) (.char '.' :: rest) :=
  Text.stops_cons.mpr (decide_eq_false (not_not_intro rfl))

theorem behind_append (owner rest : Text) : behind owner (owner ++ (.char '.' :: rest)) = rest := by
  rw [behind, List.drop_append, List.drop_eq_nil_of_le (by omega)]
  simp

theorem memberPath_eq (owner : Text) (name : Json) :
    Scope.memberPath owner name = owner ++ (.char '.' :: name.shown) := by
  rw [Scope.memberPath, List.append_assoc]
  rfl

/-! ## One scope -/

def pathText (c : Change) : Text := c.path.shown

section
variable {scope : Scope} {ms : List Member}

theorem name_eq_of_shown {a b : Json} (left : a.isText = true) (right : b.isText = true)
    (same : a.shown = b.shown) : a = b := by
  cases a with
  | str s =>
      cases b with
      | str t => exact congrArg Json.str same
      | _ => cases right
  | _ => cases left

section
variable (head : Text → Text) (apart : Apart ms) (texts : ∀ m ∈ ms, m.name.isText = true)
  (own : ∀ m ∈ ms, head (scope.pathOf m.name).shown = m.name.shown)
  (inner : ∀ m ∈ ms, ∀ c ∈ m.inner, head (pathText c) = m.name.shown)

include own inner in
/-- The path of what is reported of an item tells the item. -/
theorem head_of_arrival {y : Member} (member : y ∈ ms) :
    ∀ c ∈ arrival scope ms y, head (pathText c) = y.name.shown := by
  intro c reported
  rw [arrival] at reported
  split_ifs at reported
  · exact inner y member c reported
  · split at reported <;> obtain rfl := List.mem_singleton.mp reported <;> exact own y member

include apart texts own in
theorem nodup_removals : (((ms.filter (isGone ms)).map (removal scope)).map pathText).Nodup := by
  have names : ((ms.filter (isGone ms)).map Member.name).Nodup := by
    refine apart.old.sublist (List.Sublist.map _ ?_)
    exact List.monotone_filter_right ms fun m gone => (isGone_iff.mp gone).1
  refine List.Nodup.of_map head ?_
  rw [List.map_map, List.map_map]
  have heads : (ms.filter (isGone ms)).map ((head ∘ pathText) ∘ removal scope) =
      ((ms.filter (isGone ms)).map Member.name).map Json.shown := by
    rw [List.map_map]
    exact List.map_congr_left fun m member => own m (List.mem_of_mem_filter member)
  rw [heads]
  refine names.map_on fun a left b right same => ?_
  obtain ⟨m, inside, rfl⟩ := List.mem_map.mp left
  obtain ⟨n, within, rfl⟩ := List.mem_map.mp right
  exact name_eq_of_shown (texts m (List.mem_of_mem_filter inside))
    (texts n (List.mem_of_mem_filter within)) same

include apart texts own inner

theorem nodup_arrivals (distinct : ∀ m ∈ ms, (m.inner.map pathText).Nodup) :
    (((ms.filter Member.inNew).flatMap (arrival scope ms)).map pathText).Nodup := by
  rw [List.map_flatMap, List.nodup_flatMap]
  refine ⟨?_, ?_⟩
  · intro y member
    rw [arrival]
    split_ifs
    · exact distinct y (List.mem_of_mem_filter member)
    · split <;> exact List.nodup_singleton _
  · refine (List.pairwise_map.mp apart.new).imp_of_mem fun left right differ => ?_
    intro path first second
    obtain ⟨c, reported, rfl⟩ := List.mem_map.mp first
    obtain ⟨e, arrived, same⟩ := List.mem_map.mp second
    have one := List.mem_of_mem_filter left
    have two := List.mem_of_mem_filter right
    refine differ (name_eq_of_shown (texts _ one) (texts _ two) ?_)
    rw [← head_of_arrival head own inner one c reported,
      ← head_of_arrival head own inner two e arrived, same]

/-- When the item that a change is about can be told from its path, all paths are distinct. -/
theorem nodup_report (distinct : ∀ m ∈ ms, (m.inner.map pathText).Nodup) :
    ((report scope ms).map pathText).Nodup := by
  rw [report, List.map_append, List.nodup_append']
  refine ⟨nodup_removals head apart texts own,
    nodup_arrivals head apart texts own inner distinct, ?_⟩
  intro path gone rest
  obtain ⟨c, removed, rfl⟩ := List.mem_map.mp gone
  obtain ⟨x, listed, rfl⟩ := List.mem_map.mp removed
  obtain ⟨e, reported, same⟩ := List.mem_map.mp rest
  obtain ⟨y, arrived, inside⟩ := List.mem_flatMap.mp reported
  obtain ⟨old, missing⟩ := List.mem_filter.mp listed
  obtain ⟨present, new⟩ := List.mem_filter.mp arrived
  refine (isGone_iff.mp missing).2 y present new (name_eq_of_shown (texts y present)
    (texts x old) ?_)
  rw [← head_of_arrival head own inner present e inside, same]
  exact own x old

end
end

/-! ## The scopes of a schema -/

section
variable {old new : Int}

theorem nodup_fieldReport {owner : Text} {l : Lifetime} {fs : List Field}
    (texts : ∀ f ∈ fs, f.name.isText = true)
    (oldDistinct : ((Field.excerpts old l fs).map Field.name).Nodup)
    (newDistinct : ((Field.excerpts new l fs).map Field.name).Nodup) :
    ((fieldReport old new owner l fs).map pathText).Nodup := by
  refine nodup_report (behind owner) (apart_fieldMembers oldDistinct newDistinct)
    (List.forall_mem_map.mpr texts) ?_ ?_ ?_
  · refine List.forall_mem_map.mpr fun f _ => ?_
    rw [Scope.pathOf, Json.shown_str, memberPath_eq]
    exact behind_append _ _
  · exact List.forall_mem_map.mpr fun _ _ _ inside => nomatch inside
  · exact List.forall_mem_map.mpr fun _ _ => List.nodup_nil

/-- The path of a change among the fields of an owner starts with the owner. -/
theorem path_of_fieldReport {owner : Text} {l : Lifetime} {fs : List Field} {c : Change}
    (member : c ∈ fieldReport old new owner l fs) :
    ∃ rest, pathText c = owner ++ (.char '.' :: rest) := by
  refine ⟨c.name.shown, ?_⟩
  rw [pathText, Change.path, scope_of_fieldReport member, Scope.pathOf, Json.shown_str,
    memberPath_eq]

theorem path_of_variantReport {enumName : Text} {l : Lifetime} {vs : List Variant} {c : Change}
    (member : c ∈ variantReport old new enumName l vs) :
    ∃ rest, pathText c = enumName ++ (.char '.' :: rest) := by
  rcases mem_report member with ⟨own, -⟩ | ⟨m, listed, -, -, inside⟩
  · refine ⟨c.name.shown, ?_⟩
    rw [pathText, Change.path, own, Scope.pathOf, Json.shown_str, memberPath_eq]
  · obtain ⟨v, -, rfl⟩ := List.mem_map.mp listed
    obtain ⟨rest, path⟩ := path_of_fieldReport inside
    refine ⟨v.name.shown ++ (.char '.' :: rest), ?_⟩
    rw [path, memberPath_eq, List.append_assoc]
    rfl

theorem path_of_innerReport {d : Decl} {c : Change} (member : c ∈ innerReport old new d) :
    ∃ rest, pathText c = d.name.shown ++ (.char '.' :: rest) := by
  unfold innerReport at member
  split at member
  · exact path_of_fieldReport member
  · exact path_of_variantReport member

section
variable {d : Decl} (texts : d.HasTextNames) (oldDistinct : d.DistinctIn old)
  (newDistinct : d.DistinctIn new) (dotless : ∀ v ∈ d.variants, Dotless v.name.shown)
include texts oldDistinct newDistinct dotless

theorem nodup_variantReport (enumName : Text) :
    ((variantReport old new enumName d.lifetime d.variants).map pathText).Nodup := by
  refine nodup_report (fun path => upToDot (behind enumName path))
    (apart_variantMembers enumName oldDistinct newDistinct)
    (List.forall_mem_map.mpr texts.variants) ?_ ?_ ?_
  · refine List.forall_mem_map.mpr fun v member => ?_
    rw [Scope.pathOf, Json.shown_str, memberPath_eq, behind_append]
    exact upToDot_dotless (dotless v member)
  · refine List.forall_mem_map.mpr fun v member c inside => ?_
    obtain ⟨rest, path⟩ := path_of_fieldReport inside
    rw [path, memberPath_eq, List.append_assoc, List.cons_append, behind_append]
    exact upToDot_append (dotless v member) (stops_dot rest)
  · exact List.forall_mem_map.mpr fun v member => nodup_fieldReport (texts.inner v member)
      (oldDistinct.inner v member) (newDistinct.inner v member)

theorem nodup_innerReport : ((innerReport old new d).map pathText).Nodup := by
  obtain ⟨name, body, header, position⟩ := d
  cases body with
  | record node fs => exact nodup_fieldReport texts.fields oldDistinct.fields newDistinct.fields
  | enum vs => exact nodup_variantReport texts oldDistinct newDistinct dotless name.shown

end

/-- Without dots in the names of types and variants, no two changes have the same path. -/
theorem nodup_schemaReport {decls : List Decl} (texts : HasTextNames decls)
    (oldDistinct : DistinctIn old decls) (newDistinct : DistinctIn new decls)
    (dotless : DotlessNames decls) : ((schemaReport old new decls).map Change.path).Nodup := by
  have shown : ((schemaReport old new decls).map pathText).Nodup := by
    refine nodup_report upToDot (apart_typeMembers oldDistinct newDistinct)
      (List.forall_mem_map.mpr fun d member => (texts d member).own) ?_ ?_ ?_
    · exact List.forall_mem_map.mpr fun d member => upToDot_dotless (dotless d member).1
    · refine List.forall_mem_map.mpr fun d member c inside => ?_
      obtain ⟨rest, path⟩ := path_of_innerReport inside
      rw [path]
      exact upToDot_append (dotless d member).1 (stops_dot rest)
    · exact List.forall_mem_map.mpr fun d member => nodup_innerReport (texts d member)
        (oldDistinct.members d member) (newDistinct.members d member) (dotless d member).2
  refine List.Nodup.of_map Json.shown ?_
  rwa [List.map_map]

end
end SchemaHistory.Upgrade
