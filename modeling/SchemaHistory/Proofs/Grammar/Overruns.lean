import SchemaHistory.Proofs.Grammar.Beginnings

/-! # Refused headers

Inside of a header any clauses are read, whatever stands before them.  So a header that is refused
is tenable up to there (`Reading.refuses_header?`), but its reader may have overrun it. -/
set_option autoImplicit false
namespace SchemaHistory

open Grammar

namespace Grammar

def Clause.specifier (c : Clause) : Reading.Specifier :=
  ⟨c.action, c.start, ⟨Text.digitsValue c.digits, some c.version⟩⟩

theorem Clause.spelled {c : Clause} (fits : Fits c.digits) :
    SpecifierTokens c.action.keyword c.tokens c.specifier.version :=
  .mk fits

def continued (cs : List (Clause × Position)) : List Token :=
  cs.flatMap fun c => c.1.tokens ++ [⟨.symbol ',', c.2⟩]

inductive Clauses (rest : List Token) : List Token → List Clause → Prop
  | last {c : Clause} {p : Position} : Clauses rest (c.tokens ++ ⟨.symbol ']', p⟩ :: rest) [c]
  | more {c : Clause} {p : Position} {ts : List Token} {cs : List Clause}
      (later : Clauses rest ts cs) : Clauses rest (c.tokens ++ ⟨.symbol ',', p⟩ :: ts) (c :: cs)

section
variable {taken : List Token} {c d : Clause} {p q r s : Position}

theorem exists_header_of_clause (fits : Fits c.digits) :
    ∃ h, HeaderTokens (⟨.symbol '#', p⟩ :: ⟨.symbol '[', q⟩ :: (c.tokens ++ [⟨.symbol ']', r⟩]))
      h := by
  have spelled := c.spelled fits
  cases action : c.action with
  | add =>
      rw [action] at spelled
      exact ⟨_, .add spelled⟩
  | rem =>
      rw [action] at spelled
      exact ⟨_, .rem spelled⟩

theorem exists_header_of_clauses (adds : c.action = .add) (removes : d.action = .rem)
    (fits : Fits c.digits) (fitsToo : Fits d.digits) :
    ∃ h, HeaderTokens (⟨.symbol '#', p⟩ :: ⟨.symbol '[', q⟩ ::
      (c.tokens ++ ⟨.symbol ',', r⟩ :: (d.tokens ++ [⟨.symbol ']', s⟩]))) h := by
  have added := c.spelled fits
  have removed := d.spelled fitsToo
  rw [adds] at added
  rw [removes] at removed
  exact ⟨_, .both added removed⟩

theorem overruns_of_rem (removes : c.action = .rem) (more : List Token) :
    Overruns (taken ++ ⟨.symbol '#', p⟩ :: ⟨.symbol '[', q⟩ ::
      (c.tokens ++ ⟨.symbol ',', r⟩ :: more)) :=
  ⟨taken, _, .symbol ',', r, more, by simp, .afterRem (p := p) (q := q) removes⟩

theorem overruns_of_adds (adds : c.action = .add) (more : List Token) :
    Overruns (taken ++ ⟨.symbol '#', p⟩ :: ⟨.symbol '[', q⟩ ::
      (c.tokens ++ ⟨.symbol ',', r⟩ :: ⟨.word "add", s⟩ :: more)) :=
  ⟨taken, _, .word "add", s, more, by simp, .addAgain (p := p) (q := q) (r := r) adds⟩

theorem overruns_of_both (adds : c.action = .add) (removes : d.action = .rem)
    (more : List Token) :
    Overruns (taken ++ ⟨.symbol '#', p⟩ :: ⟨.symbol '[', q⟩ ::
      (c.tokens ++ ⟨.symbol ',', r⟩ :: (d.tokens ++ ⟨.symbol ',', s⟩ :: more))) :=
  ⟨taken, _, .symbol ',', s, more, by simp,
    .afterBoth (p := p) (q := q) (r := r) adds removes⟩

/-- Two clauses with commas behind them have overrun the header. -/
theorem overruns_of_two (cs : List (Clause × Position)) (more : List Token) :
    Overruns (taken ++ ⟨.symbol '#', p⟩ :: ⟨.symbol '[', q⟩ ::
      (continued ((c, r) :: (d, s) :: cs) ++ more)) := by
  have split : continued ((c, r) :: (d, s) :: cs) ++ more =
      c.tokens ++ ⟨.symbol ',', r⟩ :: (d.tokens ++ ⟨.symbol ',', s⟩ :: (continued cs ++ more)) := by
    simp [continued]
  rw [split]
  cases action : c.action with
  | rem => exact overruns_of_rem action _
  | add =>
      cases other : d.action with
      | rem => exact overruns_of_both action other _
      | add =>
          have keyword : d.tokens = ⟨.word "add", d.start⟩ :: d.tokens.tail := by
            rw [Clause.tokens, other]
            rfl
          rw [keyword]
          exact overruns_of_adds action _

end

section
variable {finish : Position} {taken : List Token}
  (goes : ∀ hs h, HeaderTokens hs h → Begins (taken ++ hs)) {p q r : Position}
include goes

/-- Behind clauses and their commas, the beginning of any clause is tenable. -/
theorem tenable_of_continued {cs : List (Clause × Position)} (fits : ∀ c ∈ cs, Fits c.1.digits)
    {c : Clause} (own : Fits c.digits) {us vs : List Token} (split : c.tokens = us ++ vs)
    (writable : vs.all Token.isWritable = true) :
    Tenable (taken ++ ⟨.symbol '#', p⟩ :: ⟨.symbol '[', q⟩ :: (continued cs ++ us)) := by
  have closable : (vs ++ [⟨.symbol ']', p⟩] : List Token).all Token.isWritable = true := by
    rw [List.all_append, writable]
    rfl
  match cs with
  | [] =>
      obtain ⟨h, whole⟩ := exists_header_of_clause (p := p) (q := q) (r := p) own
      exact .inl ((goes _ _ whole).cut (vs ++ [⟨.symbol ']', p⟩]) closable
        (by simp [continued, split]))
  | [(a, r)] =>
      have fitsFirst : Fits a.digits := fits (a, r) List.mem_cons_self
      have first : continued [(a, r)] ++ us = a.tokens ++ ⟨.symbol ',', r⟩ :: us := by
        simp [continued]
      rw [first]
      cases action : a.action with
      | rem => exact .inr (overruns_of_rem action us)
      | add =>
          cases other : c.action with
          | rem =>
              obtain ⟨h, whole⟩ := exists_header_of_clauses (p := p) (q := q) (r := r) (s := p)
                action other fitsFirst own
              exact .inl ((goes _ _ whole).cut (vs ++ [⟨.symbol ']', p⟩]) closable
                (by simp [split]))
          | add =>
              cases us with
              | nil =>
                  have zero : Fits (Clause.mk .rem "0" p p p p).digits := fits_zero
                  obtain ⟨h, whole⟩ := exists_header_of_clauses (p := p) (q := q) (r := r) (s := p)
                    action rfl fitsFirst zero
                  refine .inl ((goes _ _ whole).cut
                    ((Clause.mk .rem "0" p p p p).tokens ++ [⟨.symbol ']', p⟩]) rfl (by simp))
              | cons x us =>
                  obtain ⟨rfl, -⟩ := List.cons.inj split
                  rw [other]
                  exact .inr (overruns_of_adds action us)
  | (a, r) :: (b, s) :: others => exact .inr (overruns_of_two others us)

end
end Grammar

namespace Reading
variable {finish : Position} {taken ts rest : List Token} {ss : List Specifier}

theorem clause_of_reads {s : Specifier} (read : Reads (specifier finish ts) s rest) :
    ∃ c : Clause, Fits c.digits ∧ ts = c.tokens ++ rest ∧ s = c.specifier := by
  unfold specifier at read
  obtain ⟨⟨b, p⟩, behindAction, _, acts, read⟩ := read.of_bind
  obtain ⟨q, behindOpening, _, opening, read⟩ := read.of_bind
  obtain ⟨⟨k, r⟩, behindNumber, _, version, read⟩ := read.of_bind
  obtain ⟨t, behind, _, closing, read⟩ := read.of_bind
  simp only [reads_ok] at read
  obtain ⟨rfl, rfl⟩ := read
  obtain rfl := reads_action.mp acts
  obtain rfl := reads_symbol.mp opening
  obtain ⟨digits, fits, rfl, rfl⟩ := reads_number.mp version
  obtain rfl := reads_symbol.mp closing
  exact ⟨⟨b, digits, p, q, r, t⟩, fits, rfl, rfl⟩

theorem clauses_of_reads (read : Reads (specifiers finish ts) ss rest) :
    ∃ cs, ss = cs.map Clause.specifier ∧ Clauses rest ts cs ∧ ∀ c ∈ cs, Fits c.digits := by
  induction ts using shorter_induction generalizing ss with
  | _ ts ih =>
  obtain ⟨s, mid, first, rest⟩ := reads_specifiers.mp read
  obtain ⟨c, fits, rfl, rfl⟩ := clause_of_reads first
  rcases rest with ⟨p, rfl, rfl⟩ | ⟨p, later, others, rfl, next, rfl⟩
  · exact ⟨[c], rfl, .last, List.forall_mem_singleton.mpr fits⟩
  · have shorter : later.length < (c.tokens ++ ⟨.symbol ',', p⟩ :: later).length := by
      simp only [List.length_append, List.length_cons]
      omega
    obtain ⟨cs, rfl, clauses, fitting⟩ := ih _ shorter next
    exact ⟨c :: cs, rfl, .more clauses, List.forall_mem_cons.mpr ⟨fits, fitting⟩⟩

theorem refuses_specifier
    (tenable : ∀ (c : Clause) us vs, Fits c.digits → c.tokens = us ++ vs →
      vs.all Token.isWritable = true → Tenable (taken ++ us)) :
    Refuses finish taken ts (specifier finish ts) := by
  unfold specifier
  have begun := tenable ⟨.add, "0", finish, finish, finish, finish⟩ [] _ fits_zero rfl rfl
  rw [List.append_nil] at begun
  refine (refuses_action begun).bind fun a behindAction _ acts => ?_
  obtain ⟨action, p⟩ := a
  obtain rfl := reads_action.mp acts
  refine Refuses.behind [⟨.word action.keyword, p⟩] ?_
  refine (refuses_symbol ?_ '(').bind fun q behindOpening _ opening => ?_
  · exact tenable ⟨action, "0", p, finish, finish, finish⟩ [_] _ fits_zero rfl rfl
  obtain rfl := reads_symbol.mp opening
  refine Refuses.behind [⟨.symbol '(', q⟩] ?_
  rw [List.append_assoc]
  refine (refuses_number ?_ .version).bind fun a behindNumber _ version => ?_
  · exact tenable ⟨action, "0", p, q, finish, finish⟩ [_, _] _ fits_zero rfl rfl
  obtain ⟨n, r⟩ := a
  obtain ⟨digits, fits, rfl, rfl⟩ := reads_number.mp version
  refine Refuses.behind [⟨.number digits, r⟩] ?_
  rw [List.append_assoc]
  refine (refuses_symbol ?_ ')').bind fun _ _ _ _ => refuses_ok
  exact tenable ⟨action, digits, p, q, r, finish⟩ [_, _, _] _ fits rfl rfl

theorem headerOf_third (hash : Position) (s t third : Specifier) (more : List Specifier) :
    headerOf hash (s :: t :: third :: more) =
      .error (.fault ⟨.text .thirdSpecifier, some third.position⟩) := by
  obtain ⟨a, -, -⟩ := s
  obtain ⟨b, -, -⟩ := t
  cases a <;> cases b <;> rfl

section
variable (goes : ∀ hs h, HeaderTokens hs h → Begins (taken ++ hs)) {hash p : Position}
include goes

theorem refuses_specifiers {cs : List (Clause × Position)} (fits : ∀ c ∈ cs, Fits c.1.digits) :
    Refuses finish (taken ++ ⟨.symbol '#', hash⟩ :: ⟨.symbol '[', p⟩ :: continued cs) ts
      (specifiers finish ts) := by
  induction ts using shorter_induction generalizing cs with
  | _ ts ih =>
  have begun (c : Clause) (us vs : List Token) (own : Fits c.digits) (split : c.tokens = us ++ vs)
      (writable : vs.all Token.isWritable = true) :
      Tenable (taken ++ ⟨.symbol '#', hash⟩ :: ⟨.symbol '[', p⟩ :: continued cs ++ us) := by
    have tenable := tenable_of_continued goes fits own split writable (p := hash) (q := p)
    simpa only [List.append_assoc, List.cons_append] using tenable
  rw [specifiers]
  refine (refuses_specifier begun).bind fun s mid shorter read => ?_
  obtain ⟨c, own, rfl, rfl⟩ := clause_of_reads read
  refine Refuses.behind c.tokens ?_
  by_cases closes : StartsWith ']' mid
  · obtain ⟨q, left, rfl⟩ := closes
    simp only [symbol?_symbol]
    exact refuses_ok
  · simp only [symbol?_eq_none closes]
    have complete := begun c c.tokens [] own (List.append_nil _).symm rfl
    refine (refuses_symbol complete ',').bind fun q later behind comma => ?_
    obtain rfl := reads_symbol.mp comma
    have smaller : later.length < (c.tokens ++ ⟨.symbol ',', q⟩ :: later).length :=
      Nat.lt_trans behind shorter
    have fitting : ∀ d ∈ cs ++ [(c, q)], Fits d.1.digits :=
      List.forall_mem_append.mpr ⟨fits, List.forall_mem_singleton.mpr own⟩
    have more := ih _ smaller fitting
    refine Refuses.behind [⟨.symbol ',', q⟩] (Refuses.bind ?_ fun _ _ _ _ => refuses_ok)
    simpa only [continued, List.flatMap_append, List.flatMap_cons, List.flatMap_nil,
      List.append_nil, List.append_assoc, List.cons_append] using more

/-- Behind clauses and their commas, a fault at the next keyword is refused. -/
theorem refuses_keyword {γ : Type} {fault : TextFault} {cs : List (Clause × Position)}
    (fits : ∀ c ∈ cs, Fits c.1.digits) (c : Clause) (back : List Token)
    (split : ts = continued cs ++ (c.tokens ++ back)) :
    Refuses finish taken (⟨.symbol '#', hash⟩ :: ⟨.symbol '[', p⟩ :: ts)
      (.error (.fault ⟨.text fault, some c.start⟩) : Except Misreading γ) := by
  have zero : Fits (Clause.mk .add "0" p p p p).digits := fits_zero
  have tenable := tenable_of_continued goes fits zero (List.nil_append _).symm rfl
    (p := hash) (q := p)
  rw [List.append_nil] at tenable
  rintro _ ⟨⟩
  exact ⟨⟨.symbol '#', hash⟩ :: ⟨.symbol '[', p⟩ :: continued cs, c.tokens ++ back,
    by simp only [split, List.cons_append], ⟨fault, rfl⟩, tenable⟩

/-- What is wrong with the clauses of a header is found at one of its keywords. -/
theorem refuses_headerOf {cs : List Clause} (clauses : Clauses rest ts cs)
    (fits : ∀ c ∈ cs, Fits c.digits) :
    Refuses finish taken (⟨.symbol '#', hash⟩ :: ⟨.symbol '[', p⟩ :: ts)
      (headerOf hash (cs.map Clause.specifier)) := by
  cases clauses with
  | @last c q =>
      obtain ⟨a, -⟩ := c
      cases a <;> exact refuses_ok
  | @more c q us cs later =>
      have first : ∀ b ∈ [(c, q)], Fits b.1.digits :=
        List.forall_mem_singleton.mpr (fits c List.mem_cons_self)
      cases later with
      | @last d r =>
          have refused (fault : TextFault) :
              Refuses finish taken
                (⟨.symbol '#', hash⟩ :: ⟨.symbol '[', p⟩ ::
                  (c.tokens ++ ⟨.symbol ',', q⟩ :: (d.tokens ++ ⟨.symbol ']', r⟩ :: rest)))
                (.error (.fault ⟨.text fault, some d.start⟩) : Except Misreading Header) :=
            refuses_keyword goes first d (⟨.symbol ']', r⟩ :: rest) (by simp [continued])
          obtain ⟨a, _, _, _, _, _⟩ := c
          obtain ⟨b, _, _, _, _, _⟩ := d
          cases a <;> cases b
          · exact refused _
          · exact refuses_ok
          · exact refused _
          · exact refused _
      | @more d r us ds later =>
          have both : ∀ b ∈ [(c, q), (d, r)], Fits b.1.digits :=
            List.forall_mem_cons.mpr ⟨fits c List.mem_cons_self, List.forall_mem_singleton.mpr
              (fits d (List.mem_cons_of_mem _ List.mem_cons_self))⟩
          cases later with
          | @last e s =>
              rw [List.map_cons, List.map_cons, List.map_cons, headerOf_third]
              exact refuses_keyword goes both e (⟨.symbol ']', s⟩ :: rest) (by simp [continued])
          | @more e s us es later =>
              rw [List.map_cons, List.map_cons, List.map_cons, headerOf_third]
              exact refuses_keyword goes both e (⟨.symbol ',', s⟩ :: us) (by simp [continued])

theorem refuses_header? (owner : HeaderOwner) :
    Refuses finish taken ts (header? finish owner ts) := by
  by_cases starts : StartsWith '#' ts
  · obtain ⟨hash, left, rfl⟩ := starts
    have zero : Fits (Clause.mk .add "0" finish finish finish finish).digits := fits_zero
    obtain ⟨h, whole⟩ := exists_header_of_clause (p := hash) (q := finish) (r := finish) zero
    have opened : Begins (taken ++ [⟨.symbol '#', hash⟩]) := (goes _ _ whole).cut _ rfl
      (List.append_cons taken ⟨.symbol '#', hash⟩ (⟨.symbol '[', finish⟩ :: (_ ++ _)))
    unfold header?
    rw [symbol?_symbol]
    refine Refuses.bind ((refuses_symbol (.inl opened) '[').behind [_]) fun q mid _ opening => ?_
    obtain rfl := reads_symbol.mp opening
    refine Refuses.bind ?_ fun specs behind _ body => ?_
    · unfold headerBody
      by_cases closes : StartsWith ']' mid
      · obtain ⟨p, rest, rfl⟩ := closes
        rw [symbol?_symbol]
        exact refuses_ok
      · rw [symbol?_eq_none closes]
        have fits : ∀ c ∈ ([] : List (Clause × Position)), Fits c.1.digits :=
          List.forall_mem_nil _
        exact Refuses.behind [⟨.symbol '#', hash⟩, ⟨.symbol '[', q⟩] (refuses_specifiers goes fits)
    · by_cases none : specs = []
      · subst none
        exact refuses_here (.inl (opened.of_append rfl)) ⟨_, rfl⟩
      · obtain ⟨cs, rfl, clauses, fits⟩ := clauses_of_reads ((reads_headerBody none).mp body)
        refine Refuses.check (refuses_headerOf goes clauses fits) fun h accepted => ?_
        obtain ⟨front, rfl, spelled⟩ := headerTokens_iff.mp ⟨_, body, accepted⟩
        by_cases again : StartsWith '#' behind
        · obtain ⟨r, later, rfl⟩ := again
          simp only [symbol?_symbol]
          rintro _ ⟨⟩
          exact ⟨⟨.symbol '#', hash⟩ :: ⟨.symbol '[', q⟩ :: front, ⟨.symbol '#', r⟩ :: later, rfl,
            ⟨_, rfl⟩, .inl (goes _ _ spelled)⟩
        · simp only [symbol?_eq_none again]
          exact refuses_ok
  · unfold header?
    rw [symbol?_eq_none starts]
    exact refuses_ok

end
end Reading
end SchemaHistory
