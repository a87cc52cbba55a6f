import SchemaHistory.Proofs.History.Acceptance

/-! # What a walk has placed when it ends

A walk that is rejected keeps the placements made up to there.  `Walk.Visits` says of a part of the
walk that it has placed the first ones of the items that it was given, all of them if it succeeds,
and what is known of each of these.  `walk_visits` says so of a whole walk: every item that it has
placed was resolved within the limit, and the versions that such an item needs never go beyond the
limit, or beyond the first version if the limit is below it. -/
set_option autoImplicit false
namespace SchemaHistory

namespace Walk
variable {α β : Type} {P : Item → Prop} {xs ys : List Item}

/-- The part of the walk has placed the first ones of the items, all of them if it succeeds, and
`P` holds of each of these. -/
def Visits (P : Item → Prop) (xs : List Item) (w : Walk α) : Prop :=
  ∃ reached, reached <+: xs ∧ w.placements = reached.map Item.placement ∧
    (∀ a, w.result = .ok a → reached = xs) ∧ ∀ item ∈ reached, P item

theorem visits_done (a : α) : Visits P [] (done a) :=
  ⟨[], List.prefix_rfl, rfl, fun _ _ => rfl, List.forall_mem_nil _⟩

theorem Visits.bind {w : Walk α} {next : α → Walk β} (first : Visits P xs w)
    (second : ∀ a, w.result = .ok a → Visits P ys (next a)) : Visits P (xs ++ ys) (w >>= next) := by
  obtain ⟨placements, result⟩ := w
  obtain ⟨reached, front, rfl, all, each⟩ := first
  cases result with
  | error d =>
      refine ⟨reached, front.trans (List.prefix_append _ _), rfl, ?_, each⟩
      intro b succeeded
      cases succeeded
  | ok a =>
      obtain rfl : reached = xs := all a rfl
      obtain ⟨more, later, placed, complete, others⟩ := second a rfl
      refine ⟨reached ++ more, (List.prefix_append_right_inj _).mpr later, ?_, ?_, ?_⟩
      · rw [List.map_append, ← placed]
        rfl
      · intro b succeeded
        rw [complete b succeeded]
      · exact List.forall_mem_append.mpr ⟨each, others⟩

theorem visits_check (result : Except Diagnostic α) : Visits P [] (check result) :=
  ⟨[], List.prefix_rfl, rfl, fun _ _ => rfl, List.forall_mem_nil _⟩

theorem visits_check_bind {result : Except Diagnostic α} {next : α → Walk β}
    (second : ∀ a, result = .ok a → Visits P xs (next a)) : Visits P xs (check result >>= next) :=
  (visits_check result).bind second

theorem visits_place {l : Lifetime} {slot : Slot} {item : Item}
    (placed : item.placement = ⟨l, slot⟩) (holds : P item) : Visits P [item] (place l slot) := by
  refine ⟨[item], List.prefix_rfl, ?_, fun _ _ => rfl, List.forall_mem_singleton.mpr holds⟩
  rw [List.map_singleton, placed]
  rfl

theorem visits_place_bind {l : Lifetime} {slot : Slot} {next : Unit → Walk β} {item : Item}
    (placed : item.placement = ⟨l, slot⟩) (holds : P item) (second : Visits P xs (next ())) :
    Visits P (item :: xs) (place l slot >>= next) :=
  (visits_place placed holds).bind fun _ _ => second

/-! ## From containers to what they contain -/

def ResolvedIn (limit : Int) (Q : Lifetime → Prop) (item : Item) : Prop :=
  Q item.home ∧ item.ResolvesWithin limit

section
variable (limit : Int) {Q : Lifetime → Prop}
  (step : ∀ item : Item, ResolvedIn limit Q item → Q item.lifetime)

theorem visits_fields {container : Lifetime} (inside : Q container) (i : Nat) (siblings : Siblings)
    (fs : List Field) :
    Visits (ResolvedIn limit Q) (fieldItems container (fun j => .member (.plain j)) i fs)
      (fields limit container i siblings fs) := by
  induction fs generalizing i siblings with
  | nil => exact visits_done ()
  | cons f rest ih =>
      refine visits_check_bind fun l resolved => ?_
      obtain ⟨within, own⟩ := resolveWithin_eq_ok_iff_lifetime.mp resolved
      refine visits_place_bind (congrArg (Placement.mk · _) own) ⟨inside, within⟩ ?_
      exact visits_check_bind fun siblings _ => ih (i + 1) siblings

theorem visits_variantFields {container : Lifetime} (inside : Q container) (i : Nat)
    (siblings : Siblings) (fs : List Field) :
    Visits (ResolvedIn limit Q) (fieldItems container .field i fs)
      (variantFields limit container i siblings fs) := by
  induction fs generalizing i siblings with
  | nil => exact visits_done ()
  | cons f rest ih =>
      refine visits_check_bind fun l resolved => ?_
      obtain ⟨within, own⟩ := resolveWithin_eq_ok_iff_lifetime.mp resolved
      refine visits_check_bind fun siblings _ => ?_
      exact visits_place_bind (congrArg (Placement.mk · _) own) ⟨inside, within⟩
        (ih (i + 1) siblings)

include step

theorem visits_variants {enumName : Json} {container : Lifetime} (inside : Q container) (i : Nat)
    (style : Option Style) (siblings : Siblings) (vs : List Variant) :
    Visits (ResolvedIn limit Q) ((vs.zipIdx i).flatMap fun e => variantItems container e.1 e.2)
      (variants limit enumName container i style siblings vs) := by
  induction vs generalizing i style siblings with
  | nil => exact visits_done ()
  | cons v rest ih =>
      refine visits_check_bind fun style _ => visits_check_bind fun l resolved => ?_
      obtain ⟨within, own⟩ := resolveWithin_eq_ok_iff_lifetime.mp resolved
      have reached : ResolvedIn limit Q ⟨v.header, some container, .member (slotOf i v)⟩ :=
        ⟨inside, within⟩
      have inner : Q l := own ▸ step _ reached
      refine visits_place_bind (congrArg (Placement.mk · _) own) reached ?_
      refine visits_check_bind fun siblings _ => ?_
      have fields := visits_variantFields limit inner 0 [] v.payload.fields
      rw [← own] at fields ⊢
      exact Visits.bind fields fun _ _ => ih (i + 1) style siblings

theorem visits_members {d : Decl} (inside : Q d.lifetime) :
    Visits (ResolvedIn limit Q) (memberItems d) (members limit d.lifetime d) := by
  obtain ⟨name, body, header, position⟩ := d
  cases body with
  | record node fs =>
      have visits := visits_fields limit inside 0 [] fs
      rw [← List.append_nil (fieldItems _ _ 0 fs)] at visits
      exact visits
  | enum vs => exact visits_variants limit step inside 0 none [] vs

theorem visits_types (top : Q .unbounded) (i : Nat) (siblings : Siblings) (decls : List Decl) :
    Visits (ResolvedIn limit Q) ((decls.zipIdx i).flatMap fun e => declItems e.1 e.2)
      (types limit i siblings decls) := by
  induction decls generalizing i siblings with
  | nil => exact visits_done ()
  | cons d rest ih =>
      refine visits_check_bind fun l resolved => ?_
      obtain ⟨within, own⟩ := resolveWithin_eq_ok_iff_lifetime.mp resolved
      have reached : ResolvedIn limit Q ⟨d.header, none, .type i⟩ := ⟨top, within⟩
      refine visits_place_bind (congrArg (Placement.mk · _) own) reached ?_
      have inside : Q d.lifetime := step _ reached
      rw [← own]
      exact Visits.bind (visits_members limit step inside) fun _ _ =>
        visits_check_bind fun siblings _ => ih (i + 1) siblings

end
end Walk

/-! ## What an item needs -/

def Lifetime.ReachesBy (bound : Int) (l : Lifetime) : Prop := l.Proper ∧ l.reach ≤ bound

/-- What is resolved within a limit needs no version above it but the first one. -/
theorem Item.reachesBy_of_resolved {limit : Int} {item : Item}
    (resolved : Walk.ResolvedIn limit (Lifetime.ReachesBy (max 1 limit)) item) :
    item.lifetime.ReachesBy (max 1 limit) := by
  obtain ⟨⟨proper, outer⟩, accepted⟩ := resolved
  obtain ⟨within, resolves⟩ := Item.resolvesWithin_iff.mp accepted
  have inHome := Item.resolve_home resolves
  refine ⟨((Lifetime.resolve_eq_ok_iff proper).mp inHome).2.1, ?_⟩
  exact Lifetime.reach_le proper inHome
    (fun m mentions => le_trans (within m mentions) (le_max_right _ _)) outer

/-- The walk places the first ones of the items of a schema, all of them if it succeeds, and each of
them was resolved within the limit in a container that needs no version above it but the first
one. -/
theorem walk_visits (limit : Int) (decls : List Decl) :
    Walk.Visits (Walk.ResolvedIn limit (Lifetime.ReachesBy (max 1 limit))) (items decls)
      (History.walk limit decls) :=
  Walk.visits_types limit (fun _ => Item.reachesBy_of_resolved)
    ⟨Lifetime.proper_unbounded, le_max_left 1 limit⟩ 0 [] decls

end SchemaHistory
