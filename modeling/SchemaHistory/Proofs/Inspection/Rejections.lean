import SchemaHistory.Inspection
import SchemaHistory.Proofs.Results

/-! # Runs with rejections

An inspector `Performs` a step when it gives the step's verdict and holds, behind a rejection, what
it held in front of the item.  Whatever it has rejected, it then goes on as if it had been given the
accepted items alone (`Performs.inspect_accepted`).

What goes through the steps without a rejection may be known to be what `Fits`.  The items that the
inspector accepts then fit together after any number of rejections, and it rejects an item only if
that item does not fit together with those (`Performs.forgetsRejected`). -/
set_option autoImplicit false
namespace SchemaHistory

variable {σ ι : Type} {inspector : Inspector σ ι}

namespace Inspector

/-! ## Where a verdict stands in a run -/

theorem inspect_append (held : σ) (front items : List ι) :
    inspector.inspect held (front ++ items) =
      ⟨(inspector.inspect held front).judged ++
          (inspector.inspect (inspector.inspect held front).held items).judged,
        (inspector.inspect (inspector.inspect held front).held items).held⟩ := by
  induction front generalizing held with
  | nil => rfl
  | cons item rest ih =>
      simp only [List.cons_append, inspect, ih]

theorem length_judged (held : σ) (items : List ι) :
    (inspector.inspect held items).judged.length = items.length := by
  induction items generalizing held with
  | nil => rfl
  | cons item rest ih =>
      simp only [inspect, List.length_cons, ih]

theorem judged_behind (held : σ) (before : List ι) (item : ι) (after : List ι) :
    (inspector.inspect held (before ++ item :: after)).judged[before.length]? =
      some (item, (inspector.judge (inspector.inspect held before).held item).1) := by
  rw [inspect_append, List.getElem?_append_right (Nat.le_of_eq (length_judged held before)),
    length_judged, Nat.sub_self]
  rfl

theorem judged_last (held : σ) (before : List ι) (item : ι) :
    (inspector.inspect held (before ++ [item])).judged.getLast? =
      some (item, (inspector.judge (inspector.inspect held before).held item).1) := by
  rw [List.getLast?_eq_getElem?, length_judged, List.length_append, List.length_singleton,
    Nat.add_sub_cancel]
  exact judged_behind held before item []

/-! ## Steps that take nothing from a rejected item -/

/-- The verdict of a step, and what is held behind it if a rejection changes nothing. -/
def settled (held : σ) : Except Diagnostic σ → Verdict × σ
  | .ok next => (.ok (), next)
  | .error d => (.error d, held)

def Performs (inspector : Inspector σ ι) (step : σ → ι → Except Diagnostic σ) : Prop :=
  ∀ held item, inspector.judge held item = settled held (step held item)

/-- What an inspector does from `start` on does not show which items it has rejected, and it accepts
the items that fit together with those that it has accepted. -/
structure ForgetsRejected (inspector : Inspector σ ι) (start : σ) (Fits : List ι → Prop) :
    Prop where
  unmoved : ∀ held item d left, inspector.judge held item = (.error d, left) → left = held
  verdict : ∀ before item after,
    (inspector.inspect start (before ++ item :: after)).judged[before.length]? =
      (inspector.inspect start
        ((inspector.inspect start before).accepted ++ [item])).judged.getLast?
  alone : ∀ items, inspector.inspect start (inspector.inspect start items).accepted =
    ⟨(inspector.inspect start items).accepted.map fun item => (item, .ok ()),
      (inspector.inspect start items).held⟩
  fits : ∀ items, Fits (inspector.inspect start items).accepted
  exact : ∀ before item after,
    (inspector.inspect start (before ++ item :: after)).judged[before.length]? =
        some (item, .ok ()) ↔
      Fits ((inspector.inspect start before).accepted ++ [item])

namespace Performs

variable {step : σ → ι → Except Diagnostic σ} (performs : inspector.Performs step)
include performs

theorem judge_of_ok {held next : σ} {item : ι} (taken : step held item = .ok next) :
    inspector.judge held item = (.ok (), next) := by
  rw [performs, taken]
  rfl

theorem judge_of_error {held : σ} {item : ι} {d : Diagnostic}
    (refused : step held item = .error d) : inspector.judge held item = (.error d, held) := by
  rw [performs, refused]
  rfl

theorem accepts_iff {held : σ} {item : ι} :
    (inspector.judge held item).1 = .ok () ↔ ∃ next, step held item = .ok next := by
  cases taken : step held item with
  | ok next => simp [performs.judge_of_ok taken]
  | error d => simp [performs.judge_of_error taken]

theorem inspect_cons_of_ok {held next : σ} {item : ι} (taken : step held item = .ok next)
    (rest : List ι) :
    inspector.inspect held (item :: rest) =
      ⟨(item, .ok ()) :: (inspector.inspect next rest).judged,
        (inspector.inspect next rest).held⟩ := by
  rw [inspect, performs.judge_of_ok taken]

theorem inspect_cons_of_error {held : σ} {item : ι} {d : Diagnostic}
    (refused : step held item = .error d) (rest : List ι) :
    inspector.inspect held (item :: rest) =
      ⟨(item, .error d) :: (inspector.inspect held rest).judged,
        (inspector.inspect held rest).held⟩ := by
  rw [inspect, performs.judge_of_error refused]

theorem inspect_of_steps {held last : σ} {items : List ι}
    (steps : items.foldlM step held = .ok last) :
    inspector.inspect held items = ⟨items.map fun item => (item, .ok ()), last⟩ := by
  induction items generalizing held with
  | nil =>
      cases steps
      rfl
  | cons item rest ih =>
      rw [List.foldlM_cons, bind_eq_ok_iff] at steps
      obtain ⟨next, taken, later⟩ := steps
      rw [performs.inspect_cons_of_ok taken, ih later, List.map_cons]

/-- The steps go through the accepted items, and lead to what is held in the end. -/
theorem steps_accepted (held : σ) (items : List ι) :
    (inspector.inspect held items).accepted.foldlM step held =
      .ok (inspector.inspect held items).held := by
  induction items generalizing held with
  | nil => rfl
  | cons item rest ih =>
      cases taken : step held item with
      | ok next =>
          rw [performs.inspect_cons_of_ok taken, Inspection.accepted_ok, List.foldlM_cons,
            bind_eq_ok_iff]
          exact ⟨next, taken, ih next⟩
      | error d =>
          rw [performs.inspect_cons_of_error taken, Inspection.accepted_error]
          exact ih held

/-- The accepted items alone are accepted and leave what the run through all items leaves. -/
theorem inspect_accepted (held : σ) (items : List ι) :
    inspector.inspect held (inspector.inspect held items).accepted =
      ⟨(inspector.inspect held items).accepted.map fun item => (item, .ok ()),
        (inspector.inspect held items).held⟩ :=
  performs.inspect_of_steps (performs.steps_accepted held items)

/-- An item is accepted when the steps go through the accepted items in front of it and the item. -/
theorem accepts_iff_steps {held : σ} {before : List ι} {item : ι} :
    (inspector.judge (inspector.inspect held before).held item).1 = .ok () ↔
      ∃ last, ((inspector.inspect held before).accepted ++ [item]).foldlM step held = .ok last := by
  rw [performs.accepts_iff, List.foldlM_append, performs.steps_accepted]
  refine exists_congr fun last => ?_
  simp [bind_eq_ok_iff, pure, Except.pure]

theorem forgetsRejected {start : σ} {Fits : List ι → Prop}
    (through : ∀ items, (∃ last, items.foldlM step start = .ok last) ↔ Fits items) :
    inspector.ForgetsRejected start Fits where
  unmoved := by
    intro held item d left rejected
    cases taken : step held item with
    | ok next =>
        rw [performs.judge_of_ok taken] at rejected
        cases rejected
    | error e =>
        rw [performs.judge_of_error taken] at rejected
        cases rejected
        rfl
  verdict := by
    intro before item after
    rw [judged_behind, judged_last, performs.inspect_accepted]
  alone := performs.inspect_accepted start
  fits items := (through _).mp ⟨_, performs.steps_accepted start items⟩
  exact := by
    intro before item after
    rw [judged_behind, ← through, ← performs.accepts_iff_steps]
    simp only [Option.some.injEq, Prod.mk.injEq, true_and]

end Performs
end Inspector
end SchemaHistory
