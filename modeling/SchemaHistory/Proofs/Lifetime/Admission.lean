import SchemaHistory.Proofs.Lifetime.Overlap

/-! # Adding siblings one after the other

Of siblings whose lifetimes were resolved in one container, or at the top, an item is rejected when
an earlier one of its name lives in a version in which it lives itself.  So it depends on the set of
the siblings alone whether all of them can be added (`adds_iff_coexist`). -/
set_option autoImplicit false
namespace SchemaHistory

namespace Sibling

/-- The lifetime of the sibling is what its header, if it has one, asks for in the container, or at
the top when there is no container. -/
def ResolvesIn (container : Option Lifetime) (s : Sibling) : Prop :=
  ∃ header : Option Header, header.isSome = s.hasHeader ∧
    Lifetime.resolve header container = .ok s.lifetime

def Collides (a b : Sibling) : Prop :=
  Json.equals a.name b.name = true ∧ ∃ version, version ∈ a.lifetime ∧ version ∈ b.lifetime

theorem collides_comm {a b : Sibling} : a.Collides b ↔ b.Collides a := by
  simp only [Collides, Json.equals_comm a.name, and_comm]

theorem ResolvesIn.atHome {container : Lifetime} {s : Sibling} (proper : container.Proper)
    (resolves : s.ResolvesIn (some container)) : s.AtHome container := by
  obtain ⟨header, own, resolved⟩ := resolves
  obtain ⟨asked, hasVersion, inside⟩ := (Lifetime.resolve_eq_ok_iff proper).mp resolved
  refine ⟨hasVersion, inside, fun bare => ?_⟩
  rw [bare, Option.isSome_eq_false_iff, Option.isNone_iff_eq_none] at own
  rw [asked, own, Lifetime.requested_none]

theorem resolvesIn_top_iff {s : Sibling} :
    s.ResolvesIn none ↔ s.ResolvesIn (some .unbounded) :=
  exists_congr fun _ => and_congr_right fun _ => Lifetime.resolve_top_eq_ok_iff

theorem atHome_of_resolvesIn {container : Option Lifetime} {s : Sibling}
    (proper : ∀ c, container = some c → c.Proper) (resolves : s.ResolvesIn container) :
    s.AtHome (container.getD .unbounded) := by
  cases container with
  | none => exact (resolvesIn_top_iff.mp resolves).atHome Lifetime.proper_unbounded
  | some c => exact resolves.atHome (proper c rfl)

theorem clashes_iff {container : Lifetime} {a b : Sibling} (aHome : a.AtHome container)
    (bHome : b.AtHome container) : a.clashes b = true ↔ a.Collides b := by
  simp only [clashes, Collides, Bool.and_eq_true, Bool.not_eq_true', Bool.eq_false_iff, ne_eq,
    disjoint_iff aHome bHome, not_forall, not_not, exists_prop]

end Sibling

namespace Siblings

theorem add_eq_error_iff {siblings : Siblings} {item : Sibling} {d : Diagnostic} :
    siblings.add item = .error d ↔
      (∃ earlier ∈ siblings, earlier.clashes item = true) ∧
        d = ⟨.sharedName item.name, item.position⟩ := by
  unfold Siblings.add
  split_ifs with clash
  · rw [Except.error.injEq, eq_comm]
    exact (and_iff_right (List.any_eq_true.mp clash)).symm
  · rw [List.any_eq_true] at clash
    simp only [clash, false_and]

def addAll (siblings : Siblings) (items : List Sibling) : Except Diagnostic Siblings :=
  items.foldlM Siblings.add siblings

theorem addAll_cons (siblings : Siblings) (item : Sibling) (items : List Sibling) :
    siblings.addAll (item :: items) =
      siblings.add item >>= fun extended => extended.addAll items :=
  List.foldlM_cons

theorem addAll_eq_ok_iff {siblings after : Siblings} {items : List Sibling} :
    siblings.addAll items = .ok after ↔ Admits siblings items ∧ siblings ++ items = after := by
  induction items generalizing siblings with
  | nil => simp [addAll, pure, Except.pure]
  | cons item rest ih =>
      rw [addAll_cons, bind_eq_ok_iff, admits_cons]
      constructor
      · rintro ⟨extended, added, remaining⟩
        obtain ⟨free, rfl⟩ := add_eq_ok_iff.mp added
        obtain ⟨admits, rfl⟩ := ih.mp remaining
        exact ⟨⟨free, admits⟩, List.append_cons siblings item rest⟩
      · rintro ⟨⟨free, admits⟩, rfl⟩
        refine ⟨siblings ++ [item], add_eq_ok_iff.mpr ⟨free, rfl⟩, ih.mpr ⟨admits, ?_⟩⟩
        exact (List.append_cons siblings item rest).symm

/-- The diagnostic comes from the first item that is not free of the siblings in front of it. -/
theorem addAll_eq_error_iff {siblings : Siblings} {items : List Sibling} {d : Diagnostic} :
    siblings.addAll items = .error d ↔
      ∃ before item later, items = before ++ item :: later ∧ Admits siblings before ∧
        Siblings.add (siblings ++ before) item = .error d := by
  induction items generalizing siblings with
  | nil => simp [addAll, pure, Except.pure]
  | cons first rest ih =>
      rw [addAll_cons, bind_eq_error_iff]
      constructor
      · rintro (rejected | ⟨extended, added, failed⟩)
        · exact ⟨[], first, rest, rfl, admits_none siblings, by simpa using rejected⟩
        · obtain ⟨free, rfl⟩ := add_eq_ok_iff.mp added
          obtain ⟨before, item, later, rfl, admits, rejected⟩ := ih.mp failed
          refine ⟨first :: before, item, later, rfl, admits_cons.mpr ⟨free, admits⟩, ?_⟩
          rwa [List.append_cons siblings first before]
      · rintro ⟨before, item, later, split, admits, rejected⟩
        cases before with
        | nil =>
            obtain ⟨rfl, rfl⟩ := List.cons.inj split
            exact .inl (by simpa using rejected)
        | cons head before =>
            obtain ⟨rfl, rfl⟩ := List.cons.inj split
            obtain ⟨free, admits⟩ := admits_cons.mp admits
            rw [List.append_cons siblings first before] at rejected
            have failed := ih.mpr ⟨before, item, later, rfl, admits, rejected⟩
            exact .inr ⟨_, add_eq_ok_iff.mpr ⟨free, rfl⟩, failed⟩

def Coexist (items : List Sibling) : Prop := items.Pairwise fun a b => ¬a.Collides b

theorem Coexist.perm {items others : List Sibling} (coexist : Coexist items)
    (perm : items.Perm others) : Coexist others :=
  (perm.pairwise_iff fun {_ _} free meet => free (Sibling.collides_comm.mp meet)).mp coexist

theorem apart_iff_coexist {container : Lifetime} {items : List Sibling}
    (home : ∀ s ∈ items, s.AtHome container) : Apart items ↔ Coexist items := by
  refine List.Pairwise.iff_of_mem fun {a b} inA inB => ?_
  rw [← Sibling.clashes_iff (home a inA) (home b inB), Bool.not_eq_true]

section
variable {container : Option Lifetime} {items : List Sibling}
  (proper : ∀ c, container = some c → c.Proper) (resolves : ∀ s ∈ items, s.ResolvesIn container)
include proper resolves

theorem addAll_isOk_iff : addAll [] items = .ok items ↔ Coexist items := by
  have home s (member : s ∈ items) := Sibling.atHome_of_resolvesIn proper (resolves s member)
  rw [addAll_eq_ok_iff, nil_admits, apart_iff_coexist home, List.nil_append]
  exact and_iff_left rfl

theorem first_rejected_iff {d : Diagnostic} :
    addAll [] items = .error d ↔
      ∃ before item later, items = before ++ item :: later ∧
        (addAll [] before = .ok before ∧ Siblings.add before item = .error d) ∧
        Coexist before ∧ (∃ earlier ∈ before, earlier.Collides item) ∧
        d = ⟨.sharedName item.name, item.position⟩ := by
  have home s (member : s ∈ items) := Sibling.atHome_of_resolvesIn proper (resolves s member)
  rw [addAll_eq_error_iff]
  refine exists_congr fun before => exists_congr fun item => exists_congr fun later =>
    and_congr_right fun split => ?_
  have front s (member : s ∈ before) : s ∈ items := split ▸ List.mem_append_left _ member
  have inside : item ∈ items := split ▸ List.mem_append_right _ List.mem_cons_self
  have accepted := addAll_isOk_iff proper fun s member => resolves s (front s member)
  have clashes : (∃ earlier ∈ before, earlier.clashes item = true) ↔
      ∃ earlier ∈ before, earlier.Collides item :=
    exists_congr fun earlier => and_congr_right fun member =>
      Sibling.clashes_iff (home earlier (front earlier member)) (home item inside)
  rw [nil_admits, apart_iff_coexist fun s member => home s (front s member), List.nil_append,
    accepted, add_eq_error_iff, clashes]
  exact ⟨fun first => ⟨first, first.1, first.2⟩, fun first => first.1⟩

/-- Siblings that were resolved in one proper container, or at the top, can all be added one after
the other exactly when no two of one name share a version, in whatever order they come; otherwise
the first one that shares a version with an earlier one of its name is rejected. -/
theorem adds_iff_coexist :
    (addAll [] items = .ok items ↔ Coexist items) ∧
    (∀ others, items.Perm others → (addAll [] others = .ok others ↔ addAll [] items = .ok items)) ∧
    ∀ d, addAll [] items = .error d ↔
      ∃ before item later, items = before ++ item :: later ∧
        (addAll [] before = .ok before ∧ Siblings.add before item = .error d) ∧
        Coexist before ∧ (∃ earlier ∈ before, earlier.Collides item) ∧
        d = ⟨.sharedName item.name, item.position⟩ := by
  refine ⟨addAll_isOk_iff proper resolves, fun others perm => ?_, fun d => ?_⟩
  · rw [addAll_isOk_iff proper resolves,
      addAll_isOk_iff proper fun s member => resolves s (perm.mem_iff.mpr member)]
    exact ⟨fun coexist => coexist.perm perm.symm, fun coexist => coexist.perm perm⟩
  · exact first_rejected_iff proper resolves

end

def notes : List Sibling :=
  [⟨.str "note", true, ⟨1, some 3⟩, none⟩, ⟨.str "number", false, ⟨1, some 9⟩, none⟩,
   ⟨.str "note", true, ⟨3, some 9⟩, none⟩, ⟨.str "note", true, ⟨5, some 9⟩, none⟩]

theorem adds_iff_coexist_notes :
    addAll [] notes = .error ⟨.sharedName (.str "note"), none⟩ ∧ ¬Coexist notes ∧
    addAll [] notes.reverse ≠ .ok notes.reverse := by
  have proper (c : Lifetime) (same : some ⟨1, some 9⟩ = some c) : c.Proper := by
    cases same
    exact ⟨by decide, by decide⟩
  have resolves : ∀ s ∈ notes, s.ResolvesIn (some ⟨1, some 9⟩) := by
    refine List.forall_mem_cons.mpr ⟨⟨some (.removing ⟨3, none⟩ none), rfl, rfl⟩, ?_⟩
    refine List.forall_mem_cons.mpr ⟨⟨none, rfl, rfl⟩, ?_⟩
    refine List.forall_mem_cons.mpr ⟨⟨some (.adding ⟨3, none⟩ none none), rfl, rfl⟩, ?_⟩
    exact List.forall_mem_singleton.mpr ⟨some (.adding ⟨5, none⟩ none none), rfl, rfl⟩
  obtain ⟨accepted, order, -⟩ := adds_iff_coexist proper resolves
  have rejected : addAll [] notes = .error ⟨.sharedName (.str "note"), none⟩ := by rfl
  refine ⟨rejected, fun coexist => ?_, fun added => ?_⟩
  · rw [accepted.mpr coexist] at rejected
    cases rejected
  · rw [order _ (List.reverse_perm notes).symm, rejected] at added
    cases added

end Siblings
end SchemaHistory
