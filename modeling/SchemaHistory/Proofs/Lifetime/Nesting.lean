import SchemaHistory.Proofs.Lifetime.Overlap

/-! # Headers one inside the other

`resolveChain` resolves a chain of headers, each of them in the lifetime that the one before it was
given.  A step is accepted exactly when the interval that its header asks for has a version and lies
inside the container (`resolve_eq_ok_iff_fits`), so a chain gets through exactly when all intervals
do (`Nested`), and then each of them lies inside all those above it.  A type stands in the container
of all versions, from version 1 on. -/
set_option autoImplicit false
namespace SchemaHistory.Lifetime

/-- The lifetime has a version, and all of its versions belong to the container. -/
def FitsIn (container l : Lifetime) : Prop := (∃ version, version ∈ l) ∧ l ⊆ container

def home (container : Option Lifetime) : Lifetime := container.getD unbounded

/-- The lifetimes of headers of which each one stands in the lifetime of the one before it. -/
def resolveChain (container : Option Lifetime) :
    List (Option Header) → Except Diagnostic (List Lifetime)
  | [] => .ok []
  | header :: deeper => do
    let l ← resolve header container
    let others ← resolveChain (some l) deeper
    .ok (l :: others)

def innermost (container : Option Lifetime) : List Lifetime → Option Lifetime
  | [] => container
  | l :: deeper => innermost (some l) deeper

/-- Each header asks for an interval that fits in the one that the header before it asks for. -/
inductive Nested : Lifetime → List (Option Header) → List Lifetime → Prop
  | nil {container : Lifetime} : Nested container [] []
  | cons {container : Lifetime} {header : Option Header} {headers : List (Option Header)}
      {ls : List Lifetime} (fits : FitsIn container (requested header container))
      (deeper : Nested (requested header container) headers ls) :
      Nested container (header :: headers) (requested header container :: ls)

section
variable {container : Option Lifetime} {header : Option Header} {l : Lifetime} {d : Diagnostic}

/-! ## One step -/

theorem fitsIn_iff {outer : Lifetime} (proper : outer.Proper) :
    FitsIn outer l ↔ l.Proper ∧ l ⊆ outer := by
  constructor
  · rintro ⟨⟨version, member⟩, inside⟩
    -- with any version at all the first one belongs to the lifetime, and so to the container
    have first : l.added ∈ l := ⟨le_refl _, before_of_le member.1 member.2⟩
    exact ⟨⟨le_trans proper.1 (inside _ first).1, first.2⟩, inside⟩
  · rintro ⟨own, inside⟩
    exact ⟨⟨l.added, added_mem own⟩, inside⟩

theorem proper_home (proper : ∀ c ∈ container, c.Proper) : (home container).Proper := by
  cases container with
  | none => exact proper_unbounded
  | some c => exact proper c rfl

theorem resolve_eq_ok_iff_fits (proper : ∀ c ∈ container, c.Proper) :
    resolve header container = .ok l ↔
      l = requested header (home container) ∧ FitsIn (home container) l := by
  have inHome : resolve header container = .ok l ↔
      resolve header (some (home container)) = .ok l := by
    cases container with
    | none => exact resolve_top_eq_ok_iff
    | some c => exact Iff.rfl
  rw [inHome, resolve_eq_ok_iff (proper_home proper), fitsIn_iff (proper_home proper)]

theorem not_fits_of_error (proper : ∀ c ∈ container, c.Proper)
    (refused : resolve header container = .error d) :
    ¬FitsIn (home container) (requested header (home container)) := by
  intro fits
  rw [(resolve_eq_ok_iff_fits proper).mpr ⟨rfl, fits⟩] at refused
  cases refused

/-! ## Refused headers -/

theorem category_of_topAdded {added : Option Literal} (refused : topAdded added = .error d) :
    d.cause.category = .malformedVersion := by
  cases added with
  | none => cases refused
  | some n =>
      simp only [topAdded] at refused
      split_ifs at refused
      cases refused
      rfl

theorem category_of_topRemoved {removed : Option Literal} {a : Int}
    (refused : topRemoved a removed = .error d) : d.cause.category = .malformedVersion := by
  cases removed with
  | none => cases refused
  | some n =>
      simp only [topRemoved] at refused
      split_ifs at refused
      cases refused
      rfl

theorem category_of_innerAdded {outer : Lifetime} {added : Option Literal}
    (refused : innerAdded outer added = .error d) :
    d.cause.category = .malformedVersion ∨ d.cause.category = .containment := by
  cases added with
  | none => cases refused
  | some n =>
      simp only [innerAdded] at refused
      split_ifs at refused
      · cases refused
        exact .inl rfl
      · cases refused
        exact .inr rfl
      · cases refused
        exact .inr rfl

theorem category_of_innerRemoved {outer : Lifetime} {removed : Option Literal} {a : Int}
    (refused : innerRemoved outer a removed = .error d) :
    d.cause.category = .malformedVersion ∨ d.cause.category = .containment := by
  cases removed with
  | none => cases refused
  | some n =>
      simp only [innerRemoved] at refused
      split_ifs at refused
      · cases refused
        exact .inl rfl
      · cases refused
        exact .inl rfl
      · cases refused
        exact .inr rfl

theorem category_of_top (refused : resolve header none = .error d) :
    d.cause.category = .malformedVersion := by
  cases header with
  | none => cases refused
  | some h =>
      simp only [resolve, bind_eq_error_iff] at refused
      rcases refused with added | ⟨a, -, removed | ⟨r, -, ⟨⟩⟩⟩
      · exact category_of_topAdded added
      · exact category_of_topRemoved removed

theorem category_of_resolve (refused : resolve header container = .error d) :
    d.cause.category = .malformedVersion ∨ d.cause.category = .containment := by
  cases container with
  | none => exact .inl (category_of_top refused)
  | some c =>
      cases header with
      | none => cases refused
      | some h =>
          simp only [resolve, bind_eq_error_iff] at refused
          rcases refused with added | ⟨a, -, removed | ⟨r, -, ⟨⟩⟩⟩
          · exact category_of_innerAdded added
          · exact category_of_innerRemoved removed

end

/-! ## Chains -/

section
variable {headers : List (Option Header)} {ls : List Lifetime}

theorem resolveChain_eq_ok_iff {container : Option Lifetime}
    (proper : ∀ c ∈ container, c.Proper) :
    resolveChain container headers = .ok ls ↔ Nested (home container) headers ls := by
  induction headers generalizing container ls with
  | nil =>
      constructor
      · intro resolved
        cases resolved
        exact .nil
      · intro nested
        cases nested
        rfl
  | cons header headers ih =>
      simp only [resolveChain, bind_eq_ok_iff, resolve_eq_ok_iff_fits proper, Except.ok.injEq]
      constructor
      · rintro ⟨l, ⟨rfl, fits⟩, others, deeper, rfl⟩
        have own := ((fitsIn_iff (proper_home proper)).mp fits).1
        exact .cons fits ((ih fun c same => Option.some.inj same ▸ own).mp deeper)
      · intro nested
        cases nested with
        | cons fits deeper =>
            have own := ((fitsIn_iff (proper_home proper)).mp fits).1
            exact ⟨_, ⟨rfl, fits⟩, _, (ih fun c same => Option.some.inj same ▸ own).mpr deeper, rfl⟩

/-- A chain is refused where the first of its headers is. -/
theorem resolveChain_eq_error_iff {container : Option Lifetime} {d : Diagnostic} :
    resolveChain container headers = .error d ↔
      ∃ before header after ls, headers = before ++ header :: after ∧
        resolveChain container before = .ok ls ∧
        resolve header (innermost container ls) = .error d := by
  induction headers generalizing container with
  | nil =>
      constructor
      · intro refused
        cases refused
      · rintro ⟨before, header, after, ls, split, -⟩
        cases before <;> cases split
  | cons first headers ih =>
      simp only [resolveChain, bind_eq_error_iff, ih]
      constructor
      · rintro (refused | ⟨l, resolved,
          ⟨before, header, after, ls, rfl, chain, refused⟩ | ⟨_, -, ⟨⟩⟩⟩)
        · exact ⟨[], first, headers, [], rfl, rfl, refused⟩
        · refine ⟨first :: before, header, after, l :: ls, rfl, ?_, refused⟩
          simp only [resolveChain, bind_eq_ok_iff]
          exact ⟨l, resolved, ls, chain, rfl⟩
      · rintro ⟨before, header, after, ls, split, chain, refused⟩
        cases before with
        | nil =>
            cases split
            cases chain
            exact .inl refused
        | cons own before =>
            cases split
            simp only [resolveChain, bind_eq_ok_iff, Except.ok.injEq] at chain
            obtain ⟨l, resolved, others, chain, rfl⟩ := chain
            exact .inr ⟨l, resolved, .inl ⟨before, header, after, others, rfl, chain, refused⟩⟩

theorem Nested.proper {outer : Lifetime} (nested : Nested outer headers ls)
    (proper : outer.Proper) : ∀ l ∈ ls, l.Proper := by
  induction nested with
  | nil => exact List.forall_mem_nil _
  | cons fits deeper ih =>
      have own := ((fitsIn_iff proper).mp fits).1
      exact List.forall_mem_cons.mpr ⟨own, ih own⟩

theorem Nested.pairwise {outer : Lifetime} (nested : Nested outer headers ls) :
    (outer :: ls).Pairwise fun above below => below ⊆ above := by
  induction nested with
  | nil => exact List.pairwise_singleton _ _
  | cons fits deeper ih =>
      refine List.pairwise_cons.mpr ⟨List.forall_mem_cons.mpr ⟨fits.2, fun l member => ?_⟩, ih⟩
      intro version inside
      exact fits.2 version ((List.pairwise_cons.mp ih).1 l member version inside)

theorem proper_innermost {container : Option Lifetime} (proper : ∀ c ∈ container, c.Proper)
    (own : ∀ l ∈ ls, l.Proper) : ∀ c ∈ innermost container ls, c.Proper := by
  induction ls generalizing container with
  | nil => exact proper
  | cons l ls ih =>
      obtain ⟨first, others⟩ := List.forall_mem_cons.mp own
      exact ih (fun c same => Option.some.inj same ▸ first) others

/-- A chain of headers in a proper container, or at the top, resolves to lifetimes exactly when they
are the intervals that the headers ask for, each with a version and inside the one before it.
Otherwise the first header whose interval does not fit is refused, as malformed or for leaving its
container, and at the top only as malformed.  All lifetimes of a chain are proper, and each one lies
inside all those above it. -/
theorem chain_resolves_iff_nested {container : Option Lifetime}
    (proper : ∀ c ∈ container, c.Proper) (headers : List (Option Header)) :
    (∀ ls, resolveChain container headers = .ok ls ↔ Nested (home container) headers ls) ∧
    (∀ d, resolveChain container headers = .error d →
      ∃ before header after ls, headers = before ++ header :: after ∧
        Nested (home container) before ls ∧
        ¬FitsIn (home (innermost container ls))
          (requested header (home (innermost container ls))) ∧
        (d.cause.category = .malformedVersion ∨ d.cause.category = .containment) ∧
        (innermost container ls = none → d.cause.category = .malformedVersion)) ∧
    ∀ ls, resolveChain container headers = .ok ls →
      (∀ l ∈ ls, 1 ≤ l.added ∧ (∀ removed ∈ l.removed, l.added < removed ∧ 2 ≤ removed) ∧
        ∃ version, version ∈ l) ∧
      (home container :: ls).Pairwise fun above below => below ⊆ above := by
  refine ⟨fun ls => resolveChain_eq_ok_iff proper, fun d refused => ?_, fun ls resolved => ?_⟩
  · obtain ⟨before, header, after, ls, split, chain, refused⟩ :=
      resolveChain_eq_error_iff.mp refused
    have nested := (resolveChain_eq_ok_iff proper).mp chain
    have inner := proper_innermost proper (nested.proper (proper_home proper))
    refine ⟨before, header, after, ls, split, nested, not_fits_of_error inner refused,
      category_of_resolve refused, fun top => ?_⟩
    rw [top] at refused
    exact category_of_top refused
  · have nested := (resolveChain_eq_ok_iff proper).mp resolved
    refine ⟨fun l member => ?_, nested.pairwise⟩
    have own := nested.proper (proper_home proper) l member
    refine ⟨own.1, fun removed ends => ?_, l.added, added_mem own⟩
    have later : l.added < removed := (mem_iff.mp (added_mem own)).2 removed ends
    exact ⟨later, lt_of_le_of_lt own.1 later⟩

end

def nestedHeaders : List (Option Header) :=
  [some (.adding ⟨2, none⟩ none none), none, some (.removing ⟨5, none⟩ none)]

theorem chain_resolves_iff_nested_headers :
    Nested ⟨1, some 9⟩ nestedHeaders [⟨2, some 9⟩, ⟨2, some 9⟩, ⟨2, some 5⟩] ∧
    ¬∃ ls, Nested ⟨1, some 4⟩ nestedHeaders ls := by
  have proper (last : Int) (late : 1 < last) (c : Lifetime) (same : c ∈ some ⟨1, some last⟩) :
      c.Proper := by
    cases same
    exact ⟨le_refl 1, late⟩
  have resolved : resolveChain (some ⟨1, some 9⟩) nestedHeaders =
      .ok [⟨2, some 9⟩, ⟨2, some 9⟩, ⟨2, some 5⟩] := by rfl
  have refused : resolveChain (some ⟨1, some 4⟩) nestedHeaders =
      .error ⟨.remAfterContainer, none⟩ := by rfl
  refine ⟨((chain_resolves_iff_nested (proper 9 (by decide)) nestedHeaders).1 _).mp resolved, ?_⟩
  rintro ⟨ls, nested⟩
  rw [((chain_resolves_iff_nested (proper 4 (by decide)) nestedHeaders).1 ls).mpr nested] at refused
  cases refused

end SchemaHistory.Lifetime
