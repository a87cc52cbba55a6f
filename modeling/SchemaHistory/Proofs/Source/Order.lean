import SchemaHistory.Proofs.Source.Layout

/-! # The order of the places of a text

Places are ordered by line and column, and further on in a text is further on in this order.  So a
place belongs to one beginning of a text only (`prefix_unique`), and the tokens of a layout stand
one behind the other (`LaidOut.increasing`), all of them in front of what is left
(`LaidOut.precedes_tail`). -/
set_option autoImplicit false
namespace SchemaHistory

def Cursor.Precedes (p q : Cursor) : Prop := p.line < q.line ∨ p.line = q.line ∧ p.column < q.column

/-- Both positions are places of a text, and the first one comes first. -/
def Position.Precedes (p q : Position) : Prop :=
  ∃ a b : Cursor, a.Precedes b ∧ p = a.position p.file ∧ q = b.position q.file

def Position.AtOrBefore (p q : Position) : Prop := p = q ∨ p.Precedes q

theorem Cursor.position_inj {a b : Cursor} {f g : Option Text}
    (same : a.position f = b.position g) : a = b := by
  have lines : (a.line : Int) = b.line := Json.int.inj (congrArg Position.line same)
  have columns : (a.column : Int) = b.column := Json.int.inj (congrArg Position.column same)
  cases a
  cases b
  simp only [Cursor.mk.injEq] at lines columns ⊢
  omega

theorem Cursor.precedes_asymm {p q : Cursor} (before : p.Precedes q) : ¬(q = p ∨ q.Precedes p) := by
  unfold Precedes at *
  rintro (rfl | after) <;> omega

theorem Position.Precedes.not_atOrBefore {p q : Position} (before : p.Precedes q) :
    ¬q.AtOrBefore p := by
  obtain ⟨a, b, first, here, there⟩ := before
  intro back
  refine Cursor.precedes_asymm first ?_
  rcases back with same | ⟨c, d, second, there', here'⟩
  · rw [here, there] at same
    exact .inl (Cursor.position_inj same)
  · obtain rfl := Cursor.position_inj (there'.symm.trans there)
    obtain rfl := Cursor.position_inj (here'.symm.trans here)
    exact .inr second

section
variable {file : Option Text} {front s t b c tail : Text} {ts : List Token} {token : Token}

theorem precedes_append (front : Text) (something : s ≠ []) :
    ((Cursor.ofFront front).position file).Precedes
      ((Cursor.ofFront (front ++ s)).position file) := by
  refine ⟨_, _, ?_, rfl, rfl⟩
  rw [Cursor.ofFront_append]
  have grows := (Cursor.ofFront front).afterAll_grows s
  have long := List.length_pos_iff.mpr something
  unfold Cursor.Precedes
  omega

theorem atOrBefore_of_prefix (shorter : b <+: c) :
    ((Cursor.ofFront b).position file).AtOrBefore ((Cursor.ofFront c).position file) := by
  obtain ⟨s, rfl⟩ := shorter
  by_cases empty : s = []
  · rw [empty, List.append_nil]
    exact .inl rfl
  · exact .inr (precedes_append b empty)

/-- No two beginnings of a text end in one place. -/
theorem prefix_unique (left : b <+: t) (right : c <+: t)
    (same : (Cursor.ofFront b).position file = (Cursor.ofFront c).position file) : b = c := by
  have unique {b c : Text} (shorter : b <+: c)
      (same : (Cursor.ofFront b).position file = (Cursor.ofFront c).position file) : b = c := by
    obtain ⟨s, rfl⟩ := shorter
    by_contra other
    have something : s ≠ [] := fun empty => other (by rw [empty, List.append_nil])
    exact (precedes_append b something).not_atOrBefore (.inl same.symm)
  rcases List.prefix_or_prefix_of_prefix left right with shorter | longer
  · exact unique shorter same
  · exact (unique longer same.symm).symm

/-- Every token stands somewhere in front of what is left. -/
theorem LaidOut.places (laid : LaidOut file front t ts tail) : ∀ token ∈ ts,
    ∃ b s, s ≠ [] ∧ t = b ++ (s ++ tail) ∧
      token.position = (Cursor.ofFront (front ++ b)).position file := by
  induction laid with
  | done last => exact fun token member => absurd member List.not_mem_nil
  | @token front gap rest tail lexeme ts between whole later ih =>
      obtain ⟨read, rfl, -⟩ := later.cuts
      refine List.forall_mem_cons.mpr ⟨?_, fun token member => ?_⟩
      · exact ⟨gap, lexeme.text ++ read,
          List.append_ne_nil_of_left_ne_nil whole.text_ne_nil _,
          by simp only [List.append_assoc], rfl⟩
      · obtain ⟨b, s, something, split, here⟩ := ih token member
        rw [List.append_assoc] at here
        exact ⟨gap ++ lexeme.text ++ b, s, something, by simp only [split, List.append_assoc], here⟩

theorem LaidOut.precedes_tail (laid : LaidOut file [] t ts tail) (split : t = c ++ tail)
    (member : token ∈ ts) : token.position.Precedes ((Cursor.ofFront c).position file) := by
  obtain ⟨b, s, something, same, here⟩ := laid.places token member
  rw [split, ← List.append_assoc] at same
  obtain rfl := List.append_cancel_right same
  rw [here]
  exact precedes_append b something

theorem LaidOut.increasing (laid : LaidOut file front t ts tail) :
    ts.Pairwise fun a b => a.position.Precedes b.position := by
  induction laid with
  | done last => exact .nil
  | @token front gap rest tail lexeme ts between whole later ih =>
      refine .cons (fun token member => ?_) ih
      obtain ⟨b, -, -, -, here⟩ := later.places token member
      have something : lexeme.text ++ b ≠ [] :=
        List.append_ne_nil_of_left_ne_nil whole.text_ne_nil _
      rw [here, ← List.append_assoc front, List.append_assoc]
      exact precedes_append (front ++ gap) something

end
end SchemaHistory
