import SchemaHistory.Proofs.Upgrade.Report

/-! # Every name has its one change

In the report of a scope a name that lives in the old version alone is removed once, a name that
lives in the new version alone is added once, and a name that stands for two declarations is
redefined once; the name of a declaration that lives in both has no change of its own, and nor has
any other name (`exact_report`).  What changes inside of an item belongs to another scope.  So
nothing is reported exactly when both versions have the same items with nothing changed inside
(`report_eq_nil_iff`). -/
set_option autoImplicit false
namespace SchemaHistory.Upgrade

def editsOf (scope : Scope) (name : Json) (changes : List Change) : List Edit :=
  (changes.filter fun c => decide (c.scope = scope) && decide (c.name = name)).map Change.edit

/-- The edits of all names in a scope are those that its items ask for.  The items are in the order
of their declarations, and two of them at different places are different declarations. -/
structure Exact (scope : Scope) (ms : List Member) (changes : List Change) : Prop where
  removed : ∀ x ∈ ms, x.inOld = true → (∀ y ∈ ms, y.inNew = true → y.name ≠ x.name) →
    editsOf scope x.name changes = [.removed x.form]
  added : ∀ y ∈ ms, y.inNew = true → (∀ x ∈ ms, x.inOld = true → x.name ≠ y.name) →
    editsOf scope y.name changes = [.added y.form]
  redefined : ∀ (i j : Nat) (x y : Member), ms[i]? = some x → ms[j]? = some y →
    x.inOld = true → y.inNew = true → x.name = y.name → i ≠ j →
    editsOf scope y.name changes = [.redefined x.form y.form]
  kept : ∀ x ∈ ms, x.inOld = true → x.inNew = true → editsOf scope x.name changes = []
  nothingElse : ∀ name, (∀ m ∈ ms, m.name = name → m.inOld = false ∧ m.inNew = false) →
    editsOf scope name changes = []

/-! ## Distinct names -/

section
variable {α β : Type} {xs : List α} {p : α → Bool} {f : α → β}
  (distinct : ((xs.filter p).map f).Nodup)
include distinct

theorem eq_of_distinct {x y : α} (left : x ∈ xs) (right : y ∈ xs) (own : p x = true)
    (other : p y = true) (same : f x = f y) : x = y :=
  List.inj_on_of_nodup_map distinct (List.mem_filter.mpr ⟨left, own⟩)
    (List.mem_filter.mpr ⟨right, other⟩) same

theorem place_eq_of_distinct {i j : Nat} {x y : α} (left : xs[i]? = some x)
    (right : xs[j]? = some y) (own : p x = true) (other : p y = true) (same : f x = f y) :
    i = j := by
  rw [List.Nodup, List.pairwise_map, List.pairwise_filter, List.pairwise_iff_getElem] at distinct
  obtain ⟨inside, rfl⟩ := List.getElem?_eq_some_iff.mp left
  obtain ⟨within, rfl⟩ := List.getElem?_eq_some_iff.mp right
  rcases lt_trichotomy i j with before | equal | after
  · exact absurd same (distinct i j inside within before own other)
  · exact equal
  · exact absurd same.symm (distinct j i within inside after other own)

theorem filter_of_distinct [DecidableEq β] {x : α} (member : x ∈ xs) (own : p x = true) :
    (xs.filter p).filter (fun y => decide (f y = f x)) = [x] := by
  have inside : x ∈ xs.filter p := List.mem_filter.mpr ⟨member, own⟩
  obtain ⟨before, after, split⟩ := List.append_of_mem inside
  rw [split, List.map_append, List.map_cons, List.nodup_append'] at distinct
  obtain ⟨-, later, apart⟩ := distinct
  have front : before.filter (fun y => decide (f y = f x)) = [] := by
    rw [List.filter_eq_nil_iff]
    intro y earlier same
    rw [decide_eq_true_eq] at same
    exact apart (List.mem_map_of_mem earlier) (same ▸ List.mem_cons_self)
  have back : after.filter (fun y => decide (f y = f x)) = [] := by
    rw [List.filter_eq_nil_iff]
    intro y behind same
    rw [decide_eq_true_eq] at same
    exact (List.nodup_cons.mp later).1 (same ▸ List.mem_map_of_mem behind)
  rw [split, List.filter_append, front, List.filter_cons_of_pos (by simp), back]
  rfl

theorem find?_of_distinct [DecidableEq β] {x : α} (member : x ∈ xs) (own : p x = true) :
    (xs.find? fun y => p y && decide (f y = f x)) = some x := by
  have one := filter_of_distinct distinct member own
  rw [List.filter_filter] at one
  simp only [Bool.and_comm (decide _)] at one
  rw [← List.head?_filter, one]
  rfl

end

/-! ## The edits of one name -/

section
variable {scope : Scope} {name : Json} {ms : List Member}

theorem editsOf_append (changes more : List Change) :
    editsOf scope name (changes ++ more) =
      editsOf scope name changes ++ editsOf scope name more := by
  rw [editsOf, List.filter_append, List.map_append]
  rfl

theorem editsOf_eq_nil {changes : List Change}
    (others : ∀ c ∈ changes, c.scope = scope → c.name ≠ name) :
    editsOf scope name changes = [] := by
  rw [editsOf, List.map_eq_nil_iff, List.filter_eq_nil_iff]
  intro c member both
  rw [Bool.and_eq_true, decide_eq_true_eq, decide_eq_true_eq] at both
  exact others c member both.1 both.2

theorem editsOf_removals (scope : Scope) (name : Json) (ms : List Member) :
    editsOf scope name (ms.map (removal scope)) =
      (ms.filter fun m => decide (m.name = name)).map fun m => .removed m.form := by
  rw [editsOf, List.filter_map, List.map_map]
  have own : ((fun c : Change => decide (c.scope = scope) && decide (c.name = name)) ∘
      removal scope) = fun m => decide (m.name = name) := by
    funext m
    rw [Function.comp, removal, decide_eq_true rfl, Bool.true_and]
  rw [own]
  rfl

theorem editsOf_flatMap {f : Member → List Change} (others : ∀ m ∈ ms, ∀ c ∈ f m,
    c.scope = scope → c.name = m.name) :
    editsOf scope name (ms.flatMap f) =
      (ms.filter fun m => decide (m.name = name)).flatMap fun m => editsOf scope name (f m) := by
  induction ms with
  | nil => rfl
  | cons m rest ih =>
      have later := ih fun other member => others other (List.mem_cons_of_mem _ member)
      rw [List.flatMap_cons, editsOf_append, later]
      by_cases own : m.name = name
      · rw [List.filter_cons_of_pos (by simpa using own), List.flatMap_cons]
      · have silent : editsOf scope name (f m) = [] := by
          refine editsOf_eq_nil fun c member inScope same => ?_
          rw [others m List.mem_cons_self c member inScope] at same
          exact own same
        rw [List.filter_cons_of_neg (by simpa using own), silent, List.nil_append]

theorem editsOf_one (edit : Edit) : editsOf scope name [⟨scope, name, edit⟩] = [edit] := by
  simp [editsOf]

end

section
variable {scope : Scope} {ms : List Member} (apart : Apart ms)
  (separate : ∀ m ∈ ms, ∀ c ∈ m.inner, c.scope ≠ scope)

def Vacant (ms : List Member) (name : Json) : Prop := ∀ y ∈ ms, y.inNew = true → y.name ≠ name

theorem isGone_iff {m : Member} : isGone ms m = true ↔ m.inOld = true ∧ Vacant ms m.name := by
  simp [isGone, Vacant]

include separate

theorem scope_of_arrival {y : Member} (member : y ∈ ms) :
    ∀ c ∈ arrival scope ms y, c.scope = scope → c.name = y.name := by
  intro c reported inScope
  rw [arrival] at reported
  split_ifs at reported with old
  · exact absurd inScope (separate y member c reported)
  · split at reported <;> exact congrArg Change.name (List.mem_singleton.mp reported)

/-- The edits of a name in the report: its removal, and what its item in the new version asks for.
-/
theorem editsOf_report (name : Json) :
    editsOf scope name (report scope ms) =
      (((ms.filter (isGone ms)).filter fun m => decide (m.name = name)).map fun m =>
        .removed m.form) ++
      ((ms.filter Member.inNew).filter fun m => decide (m.name = name)).flatMap fun m =>
        editsOf scope name (arrival scope ms m) := by
  rw [report, editsOf_append, editsOf_removals, editsOf_flatMap]
  intro m member
  exact scope_of_arrival separate (List.mem_of_mem_filter member)

theorem editsOf_vacant {name : Json} (vacant : Vacant ms name) :
    editsOf scope name (report scope ms) =
      ((ms.filter Member.inOld).filter fun m => decide (m.name = name)).map fun m =>
        .removed m.form := by
  have none : ((ms.filter Member.inNew).filter fun m => decide (m.name = name)) = [] := by
    rw [List.filter_eq_nil_iff]
    intro y member same
    obtain ⟨listed, new⟩ := List.mem_filter.mp member
    exact vacant y listed new (decide_eq_true_eq.mp same)
  have gone : ((ms.filter (isGone ms)).filter fun m => decide (m.name = name)) =
      (ms.filter Member.inOld).filter fun m => decide (m.name = name) := by
    rw [List.filter_filter, List.filter_filter]
    refine List.filter_congr fun m _ => ?_
    rw [Bool.eq_iff_iff, Bool.and_eq_true, Bool.and_eq_true, isGone_iff, decide_eq_true_eq]
    exact and_congr_right fun same => and_iff_left (same ▸ vacant)
  rw [editsOf_report separate, none, gone]
  exact List.append_nil _

include apart

theorem editsOf_present {y : Member} (member : y ∈ ms) (new : y.inNew = true) :
    editsOf scope y.name (report scope ms) = editsOf scope y.name (arrival scope ms y) := by
  have none : ((ms.filter (isGone ms)).filter fun m => decide (m.name = y.name)) = [] := by
    rw [List.filter_eq_nil_iff]
    intro m listed same
    obtain ⟨-, vacant⟩ := isGone_iff.mp (List.mem_filter.mp listed).2
    exact vacant y member new (decide_eq_true_eq.mp same).symm
  rw [editsOf_report separate, none, filter_of_distinct apart.new member new]
  exact List.append_nil _

theorem exact_report : Exact scope ms (report scope ms) := by
  refine ⟨?_, ?_, ?_, ?_, ?_⟩
  · intro x member old vacant
    rw [editsOf_vacant separate vacant, filter_of_distinct apart.old member old]
    rfl
  · intro y member new strange
    have stranger : ¬y.inOld = true := fun old => strange y member old rfl
    have absent : (ms.find? fun x => x.inOld && decide (x.name = y.name)) = none := by
      rw [List.find?_eq_none]
      intro x listed both
      rw [Bool.and_eq_true, decide_eq_true_eq] at both
      exact strange x listed both.1 both.2
    rw [editsOf_present apart separate member new, arrival, if_neg stranger, absent]
    exact editsOf_one _
  · intro i j x y left right old new same differ
    have member := List.mem_of_getElem? right
    have stranger : ¬y.inOld = true := fun both =>
      differ (place_eq_of_distinct apart.old left right old both same)
    have found : (ms.find? fun x => x.inOld && decide (x.name = y.name)) = some x := by
      rw [← same]
      exact find?_of_distinct apart.old (List.mem_of_getElem? left) old
    rw [editsOf_present apart separate member new, arrival, if_neg stranger, found]
    exact editsOf_one _
  · intro x member old new
    rw [editsOf_present apart separate member new, arrival, if_pos old]
    exact editsOf_eq_nil fun c inside inScope => absurd inScope (separate x member c inside)
  · intro name absent
    have vacant : Vacant ms name := by
      intro y member new same
      rw [(absent y member same).2] at new
      cases new
    have none : ((ms.filter Member.inOld).filter fun m => decide (m.name = name)) = [] := by
      rw [List.filter_eq_nil_iff]
      intro x member same
      obtain ⟨listed, old⟩ := List.mem_filter.mp member
      rw [(absent x listed (decide_eq_true_eq.mp same)).1] at old
      cases old
    rw [editsOf_vacant separate vacant, none]
    rfl

end

/-! ## What is in a report, and when nothing is -/

section
variable {scope : Scope} {ms : List Member}

/-- A change in a report is that of an item, or it is inside of an item that lives in both
versions. -/
theorem mem_report {c : Change} (member : c ∈ report scope ms) :
    (c.scope = scope ∧ ∃ m ∈ ms, m.name = c.name ∧ (m.inOld = true ∨ m.inNew = true) ∧
      (∀ old ∈ c.edit.old?, ∃ x ∈ ms, x.inOld = true ∧ x.name = c.name ∧ x.form = old) ∧
      ∀ new ∈ c.edit.new?, ∃ y ∈ ms, y.inNew = true ∧ y.name = c.name ∧ y.form = new) ∨
    ∃ m ∈ ms, m.inOld = true ∧ m.inNew = true ∧ c ∈ m.inner := by
  rcases List.mem_append.mp member with gone | rest
  · obtain ⟨m, listed, rfl⟩ := List.mem_map.mp gone
    obtain ⟨inside, missing⟩ := List.mem_filter.mp listed
    have old := (isGone_iff.mp missing).1
    refine .inl ⟨rfl, m, inside, rfl,  .inl old, ?_, fun _ absent => by cases absent⟩
    rintro form ⟨⟩
    exact ⟨m, inside, old, rfl, rfl⟩
  · obtain ⟨y, listed, reported⟩ := List.mem_flatMap.mp rest
    obtain ⟨inside, new⟩ := List.mem_filter.mp listed
    rw [arrival] at reported
    split_ifs at reported with old
    · exact .inr ⟨y, inside, old, new, reported⟩
    · cases search : ms.find? fun x => x.inOld && decide (x.name = y.name) with
      | none =>
          rw [search] at reported
          obtain rfl := List.mem_singleton.mp reported
          refine .inl ⟨rfl, y, inside, rfl, .inr new, (fun _ absent => by cases absent), ?_⟩
          rintro form ⟨⟩
          exact ⟨y, inside, new, rfl, rfl⟩
      | some x =>
          rw [search] at reported
          obtain rfl := List.mem_singleton.mp reported
          have both := List.find?_some search
          rw [Bool.and_eq_true, decide_eq_true_eq] at both
          refine .inl ⟨rfl, y, inside, rfl, .inr new, ?_, ?_⟩
          · rintro form ⟨⟩
            exact ⟨x, List.mem_of_find?_eq_some search, both.1, both.2, rfl⟩
          · rintro form ⟨⟩
            exact ⟨y, inside, new, rfl, rfl⟩

/-- What changes inside of an item stands together in the report. -/
theorem inner_infix {m : Member} (member : m ∈ ms) (old : m.inOld = true) (new : m.inNew = true) :
    m.inner <:+: report scope ms := by
  have own : arrival scope ms m = m.inner := if_pos old
  obtain ⟨before, after, split⟩ := List.append_of_mem (List.mem_filter.mpr ⟨member, new⟩)
  have arrivals : m.inner <:+: (ms.filter Member.inNew).flatMap (arrival scope ms) := by
    rw [split, List.flatMap_append, List.flatMap_cons, own, ← List.append_assoc]
    exact List.infix_append _ _ _
  exact arrivals.trans (List.suffix_append _ _).isInfix

/-- Nothing is reported when the versions have the same items and nothing changes inside. -/
theorem report_eq_nil_iff (apart : Apart ms) :
    report scope ms = [] ↔
      ∀ m ∈ ms, m.inOld = m.inNew ∧ (m.inOld = true → m.inner = []) := by
  rw [report, List.append_eq_nil_iff, List.map_eq_nil_iff, List.filter_eq_nil_iff,
    List.flatMap_eq_nil_iff]
  constructor
  · rintro ⟨kept, silent⟩ m member
    have arrives (y : Member) (listed : y ∈ ms) (new : y.inNew = true) :
        y.inOld = true ∧ y.inner = [] := by
      have nothing := silent y (List.mem_filter.mpr ⟨listed, new⟩)
      rw [arrival] at nothing
      split_ifs at nothing with old
      · exact ⟨old, nothing⟩
      · split at nothing <;> cases nothing
    have stays (old : m.inOld = true) : m.inNew = true := by
      by_contra gone
      have shared : ¬Vacant ms m.name := fun vacant => kept m member (isGone_iff.mpr ⟨old, vacant⟩)
      rw [Vacant] at shared
      push Not at shared
      obtain ⟨y, listed, new, same⟩ := shared
      have one := eq_of_distinct apart.old listed member (arrives y listed new).1 old same
      rw [one] at new
      exact gone new
    refine ⟨?_, fun old => (arrives m member (stays old)).2⟩
    rw [Bool.eq_iff_iff]
    exact ⟨stays, fun new => (arrives m member new).1⟩
  · intro same
    refine ⟨fun m member gone => ?_, fun y member => ?_⟩
    · obtain ⟨old, vacant⟩ := isGone_iff.mp gone
      exact vacant m member ((same m member).1 ▸ old) rfl
    · obtain ⟨listed, new⟩ := List.mem_filter.mp member
      have old : y.inOld = true := (same y listed).1.trans new
      rw [arrival, if_pos old]
      exact (same y listed).2 old

end
end SchemaHistory.Upgrade
