import SchemaHistory.Proofs.Grammar.Followed

/-! # Readers and their counterparts

Every reader by position follows its counterpart on lists.  So items are only put together from
parts that fit: words are not empty, a header has a specifier, and the payload of a variant has the
shape that was read.  The budgets suffice, as every iteration and every type expression inside
another one leaves a shorter rest. -/
set_option autoImplicit false
namespace SchemaHistory

open Grammar Reading

/-! ## Version headers -/

namespace Reading
variable (finish : Position)

def laterSpecifiers (ts : List Token) : Reading (List Specifier) ts.length :=
  match symbol? ']' ts with
  | some closing => .ok (closing.map fun _ => [])
  | none => do
    let comma ← symbol finish ',' ts
    let more ← specifiers finish comma.rest
    .ok ⟨more.value, more.rest, Nat.lt_trans more.shorter comma.shorter⟩

theorem specifiers_eq (ts : List Token) : specifiers finish ts =
    specifier finish ts >>= fun first => laterSpecifiers finish first.rest >>= fun more =>
      .ok ⟨first.value :: more.value, more.rest, Nat.lt_trans more.shorter first.shorter⟩ := by
  rw [specifiers]
  refine bind_congr fun first => ?_
  rw [laterSpecifiers]
  cases symbol? ']' first.rest with
  | some closing => rfl
  | none =>
      simp only [bind_assoc]
      rfl

def nextSpecifier (first : Bool) (ts : List Token) : Reading Specifier ts.length :=
  if first then specifier finish ts
  else do
    let comma ← symbol finish ',' ts
    let next ← specifier finish comma.rest
    .ok ⟨next.value, next.rest, Nat.lt_trans next.shorter comma.shorter⟩

def specifiersFrom (first : Bool) (ts : List Token) : Reading (List Specifier) ts.length :=
  if first then headerBody finish ts else laterSpecifiers finish ts

theorem specifiersFrom_eq (first : Bool) (ts : List Token) : specifiersFrom finish first ts =
    match symbol? ']' ts with
    | some closing => .ok ⟨[], closing.rest, closing.shorter⟩
    | none => nextSpecifier finish first ts >>= fun a =>
        specifiersFrom finish false a.rest >>= fun more =>
          .ok ⟨a.value :: more.value, more.rest, Nat.lt_trans more.shorter a.shorter⟩ := by
  cases first with
  | true =>
      change headerBody finish ts = _
      rw [headerBody]
      cases symbol? ']' ts with
      | some closing => rfl
      | none => exact specifiers_eq finish ts
  | false =>
      change laterSpecifiers finish ts = _
      rw [laterSpecifiers]
      cases symbol? ']' ts with
      | some closing => rfl
      | none =>
          simp only [nextSpecifier, Bool.false_eq_true, if_false, specifiers_eq, bind_assoc]
          rfl

def header (ts : List Token) : Reading Header ts.length := do
  let hash ← symbol finish '#' ts
  let opening ← symbol finish '[' hash.rest
  let body ← headerBody finish opening.rest
  let header ← headerOf hash.value body.value
  .ok ⟨header, body.rest,
    Nat.lt_trans body.shorter (Nat.lt_trans opening.shorter hash.shorter)⟩

def lone (owner : HeaderOwner) {n : Nat} (found : Parsed Token Header n) :
    Reading (Option Header) (n + 1) :=
  match symbol? '#' found.rest with
  | some again => .error (.fault ⟨.text (.secondHeader owner), some again.value⟩)
  | none => .ok ⟨some found.value, found.rest, Nat.lt_succ_of_lt found.shorter⟩

theorem header?_eq (owner : HeaderOwner) (ts : List Token) : header? finish owner ts =
    match symbol? '#' ts with
    | none => .ok ⟨none, ts, Nat.lt_succ_self _⟩
    | some _ => header finish ts >>= lone owner := by
  rw [header?]
  by_cases starts : StartsWith '#' ts
  · obtain ⟨q, rest, rfl⟩ := starts
    have first : symbol finish '#' (⟨.symbol '#', q⟩ :: rest) =
        .ok ⟨q, rest, Nat.lt_succ_self _⟩ := by rw [symbol, symbol?_symbol]
    simp only [symbol?_symbol, header, first, bind_assoc]
    refine bind_congr fun opening => bind_congr fun body => bind_congr fun found => ?_
    change _ = lone owner ⟨found, body.rest, _⟩
    rw [lone]
    cases symbol? '#' body.rest <;> rfl
  · rw [symbol?_eq_none starts]

/-! ## Schemas -/

def allDecls (ts : List Token) : Reading (List Decl) 1 :=
  decls finish ts >>= fun ds => .ok ⟨ds, [], Nat.one_pos⟩

theorem allDecls_cons (token : Token) (rest : List Token) : allDecls finish (token :: rest) =
    decl finish (token :: rest) >>= fun first => allDecls finish first.rest >>= fun more =>
      .ok ⟨first.value :: more.value, more.rest, more.shorter⟩ := by
  rw [allDecls, decls_of_ne_nil (List.cons_ne_nil _ _)]
  simp only [allDecls, bind_assoc]
  rfl

end Reading

namespace Tape
variable {tape : Tape} {low p : Nat} {ts : List Token}

theorem follows_action (here : tape.At p ts) (from_ : low ≤ 3 * p + 2) :
    tape.Follows low p (tape.take asAction .specifier p) (Reading.action tape.finish ts) := by
  rcases ts with - | ⟨⟨lexeme, q⟩, rest⟩
  · exact follows_untaken rfl here
  cases lexeme with
  | number digits => exact follows_untaken rfl here
  | symbol c => exact follows_untaken rfl here
  | word w =>
      have same : asAction ⟨.word w, q⟩ = if w = "add" then some (.add, q)
          else if w = "rem" then some (.rem, q) else none := rfl
      simp only [Reading.action]
      split_ifs at same ⊢
      · exact follows_taken same here from_
      · exact follows_taken same here from_
      · exact follows_untaken same here

theorem follows_specifier (here : tape.At p ts) (from_ : low ≤ 3 * p + 2) :
    tape.Follows low p (tape.specifier p) (Reading.specifier tape.finish ts) := by
  refine (follows_action here from_).bind fun act q _ _ _ there _ => ?_
  refine (follows_symbol there (by omega)).bind fun _ r _ _ _ there _ => ?_
  refine (follows_number there (by omega)).bind fun version s _ _ _ there _ => ?_
  refine (follows_symbol there (by omega)).bind fun _ t _ _ _ there _ => ?_
  exact follows_pure there

theorem follows_nextSpecifier (first : Bool) (here : tape.At p ts) (from_ : low ≤ 3 * p + 2) :
    tape.Follows low p (tape.nextSpecifier first p)
      (Reading.nextSpecifier tape.finish first ts) := by
  cases first with
  | true => exact follows_specifier here from_
  | false =>
      change tape.Follows low p ((tape.symbol ',' >>= fun _ => tape.specifier) p) _
      refine (follows_symbol here from_).bind fun _ q _ _ _ there _ => ?_
      exact (follows_specifier there (by omega)).handedOn

theorem headerOf_at (hash : Position) (specifiers : List Specifier) (p : Nat) :
    Tape.headerOf hash specifiers p = match Reading.headerOf hash specifiers with
      | .ok header => ⟨[], .ok (header, p)⟩
      | .error m => ⟨[], .error (failure m)⟩ := by
  rcases specifiers with - | ⟨⟨a, r, n⟩, - | ⟨⟨b, s, m⟩, - | ⟨third, others⟩⟩⟩
  · rfl
  · cases a <;> rfl
  · cases a <;> cases b <;> rfl
  · cases a <;> cases b <;> rfl

theorem follows_header (here : tape.At p ts) (from_ : low ≤ 3 * p + 2) :
    tape.Follows low p (tape.header p) (Reading.header tape.finish ts) := by
  refine (follows_symbol here from_).bind fun hash q _ _ _ opening _ => ?_
  refine (follows_symbol opening (by omega)).bind fun _ r us shorter _ there _ => ?_
  have before := opening.length
  have length := there.length
  have body : tape.Follows (max (max low (3 * q)) (3 * r)) r
      (tape.loop ']' tape.nextSpecifier true tape.budget r)
      (Reading.headerBody tape.finish us) :=
    follows_loop (fun first ts _ => specifiersFrom tape.finish first ts)
      (fun first ts _ => Reading.nextSpecifier tape.finish first ts)
      (fun first ts _ => specifiersFrom_eq tape.finish first ts)
      (fun first p ts _ here => follows_nextSpecifier first here (Nat.le_succ _))
      (le_refl _) there (by omega) there.enough
  refine body.bind fun specifiers s _ _ _ there _ => ?_
  rw [headerOf_at]
  cases Reading.headerOf hash specifiers with
  | error m => exact .refused climbs_nil
  | ok header => exact .reads climbs_nil (List.forall_mem_nil _) there (le_refl _)

theorem follows_header? (owner : HeaderOwner) (here : tape.At p ts) (from_ : low ≤ 3 * p + 2) :
    tape.Follows low p (tape.header? owner p) (Reading.header? tape.finish owner ts) := by
  rw [Tape.header?, sees_bind here, header?_eq]
  by_cases starts : StartsWith '#' ts
  · obtain ⟨q, rest, rfl⟩ := starts
    rw [symbol?_symbol]
    refine (follows_header here from_).bind fun header r us _ _ there _ => ?_
    rw [peek_bind there, bind_asSymbol, lone]
    cases symbol? '#' us with
    | some again => exact follows_fail (.fault _)
    | none => exact follows_pure there
  · rw [symbol?_eq_none starts]
    exact follows_pure here

/-! ## Type expressions -/

theorem follows_wordExpr {text : Text} {q : Position} {n : Nat} {shorter : ts.length < n}
    (here : tape.At p ts) :
    tape.Follows low p (wordExpr text q p) (.ok ⟨.ofWord text (some q), ts, shorter⟩) := by
  rw [wordExpr, TypeExpr.ofWord]
  cases Primitive.named? text with
  | some kind => exact follows_pure here
  | none => exact follows_pure here

theorem follows_bracketEnd {type : TypeExpr} {q : Position} (here : tape.At p ts)
    (from_ : low ≤ 3 * p + 2) :
    tape.Follows low p (tape.bracketEnd type q p) (Reading.bracketEnd tape.finish type q ts) := by
  rw [Tape.bracketEnd, sees_bind here, Reading.bracketEnd]
  by_cases sized : StartsWith ';' ts
  · obtain ⟨r, rest, rfl⟩ := sized
    rw [symbol?_symbol]
    refine follows_next here from_ ?_
    refine (follows_number here.behind (by omega)).bind fun size s _ _ _ there _ => ?_
    refine (follows_symbol there (by omega)).bind fun _ t _ _ _ there _ => ?_
    exact follows_pure there
  · rw [symbol?_eq_none sized]
    refine (follows_symbol here from_).bind fun _ s _ _ _ there _ => ?_
    exact follows_pure there

section
variable {inner : Reader TypeExpr} {rest : List Token} {q : Position}
  (nested : ∀ {low p us}, tape.At p us → low ≤ 3 * p + 1 → us.length ≤ rest.length →
    tape.Follows low p (inner p) (Reading.typeExpr tape.finish us))
include nested

theorem follows_wrapped {wrap : TypeExpr → TypeExpr} {n : Nat}
    {shorter : ∀ (opening : Parsed Token Position rest.length)
      (type : Parsed Token TypeExpr opening.rest.length)
      (closing : Parsed Token Position type.rest.length), closing.rest.length < n}
    (here : tape.At p rest) (from_ : low ≤ 3 * p) :
    tape.Follows low p (tape.wrapped inner wrap p)
      (Reading.symbol tape.finish '<' rest >>= fun opening =>
        Reading.typeExpr tape.finish opening.rest >>= fun type =>
          Reading.symbol tape.finish '>' type.rest >>= fun closing =>
            .ok ⟨wrap type.value, closing.rest, shorter opening type closing⟩) := by
  refine (follows_symbol here (by omega)).bind fun _ r us less _ there _ => ?_
  refine (nested there (by omega) (Nat.le_of_lt less)).bind fun type s _ _ _ there _ => ?_
  refine (follows_symbol there (by omega)).bind fun _ t _ _ _ there _ => ?_
  exact follows_pure there

theorem follows_tuple (here : tape.At p (⟨.symbol '(', q⟩ :: rest)) (from_ : low ≤ 3 * p + 2) :
    tape.Follows low p (tape.tuple inner p)
      (Reading.items tape.finish ')' rest (fun us _ => Reading.typeExpr tape.finish us) rest
        (le_refl _)) := by
  have opening := follows_symbol (c := '(') here from_
  rw [Reading.symbol, symbol?_symbol] at opening
  refine opening.behind fun r there _ => ?_
  have := here.length
  have := there.length
  refine follows_items (fun s us inside here => nested here (le_refl _) inside) _ there ?_
  simp only [List.length_cons] at *
  omega

theorem follows_bracketed (here : tape.At p (⟨.symbol '[', q⟩ :: rest)) (from_ : low ≤ 3 * p + 2) :
    tape.Follows low p (tape.bracketed inner q p)
      (Reading.typeExpr tape.finish rest >>= fun type =>
        Reading.bracketEnd tape.finish type.value q type.rest >>= fun closed =>
          .ok ⟨closed.value, closed.rest,
            Nat.lt_succ_of_lt (Nat.lt_trans closed.shorter type.shorter)⟩) := by
  refine follows_next here from_ ?_
  refine (nested here.behind (by omega) (le_refl _)).bind fun type r us _ _ there _ => ?_
  exact (follows_bracketEnd there (by omega)).handedOn

end

theorem follows_typeExpr {budget : Nat} (here : tape.At p ts) (from_ : low ≤ 3 * p + 1)
    (enough : ts.length < budget) :
    tape.Follows low p (tape.typeExpr budget p) (Reading.typeExpr tape.finish ts) := by
  -- a type expression inside another one starts behind at least one token of it
  induction budget generalizing ts p low with
  | zero => exact absurd enough (Nat.not_lt_zero _)
  | succ budget ih =>
  refine follows_logged here from_ ?_
  rw [peek_bind here, Reading.typeExpr.eq_def]
  rcases ts with - | ⟨⟨lexeme, q⟩, rest⟩
  · exact follows_unexpected here
  have nested {low p : Nat} {us : List Token} (here : tape.At p us) (from_ : low ≤ 3 * p + 1)
      (inside : us.length ≤ rest.length) :
      tape.Follows low p (tape.typeExpr budget p) (Reading.typeExpr tape.finish us) :=
    ih here from_ (Nat.lt_of_le_of_lt inside (Nat.lt_of_succ_lt_succ enough))
  cases lexeme with
  | number digits => exact follows_unexpected here
  | word text =>
      simp only [List.head?_cons]
      refine follows_next here (le_refl _) ?_
      by_cases ref : text = "ref"
      · rw [if_pos ref, if_pos (.inl ref), if_pos ref]
        exact follows_wrapped nested here.behind (le_refl _)
      by_cases opt : text = "opt"
      · rw [if_neg ref, if_pos opt, if_pos (.inr opt), if_neg ref]
        exact follows_wrapped nested here.behind (le_refl _)
      · rw [if_neg ref, if_neg opt, if_neg (not_or.mpr ⟨ref, opt⟩)]
        exact follows_wordExpr here.behind
  | symbol c =>
      simp only [List.head?_cons]
      split_ifs with square round
      · subst square
        exact follows_bracketed nested here (le_refl _)
      · subst round
        refine (follows_tuple nested here (le_refl _)).bind fun types r _ _ _ there _ => ?_
        exact follows_pure there
      · exact follows_unexpected here

/-! ## Members -/

theorem checkedName_str {fault : DocumentFault} {w : Text} (named : w ≠ []) :
    Document.checkedName fault (.str w) = .ok (.str w) := by
  cases w with
  | nil => exact absurd rfl named
  | cons l rest => rfl

theorem At.ne_nil {expected : Expected} {name : Text × Position} {rest : List Token}
    {shorter : rest.length < ts.length} (here : tape.At p ts)
    (read : Reading.word tape.finish expected ts = .ok ⟨name, rest, shorter⟩) : name.1 ≠ [] := by
  obtain ⟨w, q⟩ := name
  obtain rfl := reads_word.mp ⟨shorter, read⟩
  rintro rfl
  exact tape.named q here.mem

theorem follows_field (here : tape.At p ts) (from_ : low ≤ 3 * p + 1) :
    tape.Follows low p (tape.field p) (Reading.field tape.finish ts) := by
  refine (follows_header? .field here (by omega)).bind fun header q us _ _ behindHeader _ => ?_
  refine (follows_word behindHeader (by omega)).bind fun name r _ _ read there _ => ?_
  refine (follows_symbol there (by omega)).bind fun _ s _ _ _ there _ => ?_
  refine (follows_typeExpr there (by omega) there.enough).bind fun type t _ _ _ there _ => ?_
  rw [Field.make, checkedName_str (behindHeader.ne_nil read)]
  exact follows_pure there

theorem follows_fields (here : tape.At p ts) (from_ : low ≤ 3 * p) :
    tape.Follows low p (tape.items '\x7d' tape.field p) (Reading.fields tape.finish ts) :=
  follows_items (fun _ _ _ here => follows_field here (le_refl _)) (le_refl _) here from_

theorem payload_unit (brace : ¬StartsWith '\x7b' ts) (round : ¬StartsWith '(' ts)
    (equals : ¬StartsWith '=' ts) :
    Reading.payload tape.finish ts = .ok ⟨.unit, ts, Nat.lt_succ_self _⟩ := by
  rcases ts with - | ⟨⟨lexeme, q⟩, rest⟩
  · rfl
  · cases lexeme with
    | word w => rfl
    | number digits => rfl
    | symbol c =>
        rw [startsWith_symbol] at brace round equals
        simp only [Reading.payload, if_neg brace, if_neg round, if_neg equals]

section
variable {header : Option Header} {name : Text × Position} (named : name.1 ≠ [])
include named

theorem makeVariant_eq {shape : Variant.Shape} {discriminant : Option Literal}
    {types : List TypeExpr} {fields : List Field} {carried : Payload}
    (fits : Variant.payloadOf (.str name.1) shape discriminant types fields = .ok carried) :
    make (makeVariant header name shape discriminant types fields) =
      pure ⟨.str name.1, carried, header, some name.2⟩ := by
  rw [makeVariant, checkedName_str named]
  change make (Variant.payloadOf (.str name.1) shape discriminant types fields >>= _) = _
  rw [fits]
  rfl

theorem follows_payload {n : Nat}
    {shorter : ∀ carried : Parsed Token Payload (ts.length + 1), carried.rest.length < n}
    (here : tape.At p ts) (from_ : low ≤ 3 * p + 1) :
    tape.Follows low p (tape.payload header name p)
      (Reading.payload tape.finish ts >>= fun carried =>
        .ok ⟨⟨.str name.1, carried.value, header, some name.2⟩, carried.rest,
          shorter carried⟩) := by
  rw [Tape.payload, sees_bind here]
  by_cases brace : StartsWith '\x7b' ts
  · obtain ⟨q, rest, rfl⟩ := brace
    rw [symbol?_symbol]
    refine follows_next here (by omega) ?_
    simp only [Reading.payload, if_true, bind_assoc]
    refine (follows_fields here.behind (le_refl _)).bind fun fields r _ _ _ there _ => ?_
    have fits : Variant.payloadOf (.str name.1) .struct none [] fields = .ok (.struct fields) := by
      simp [Variant.payloadOf]
    rw [makeVariant_eq named fits]
    exact follows_pure there
  rw [symbol?_eq_none brace]
  change tape.Follows low p ((tape.sees '(' >>= _) p) _
  rw [sees_bind here]
  by_cases round : StartsWith '(' ts
  · obtain ⟨q, rest, rfl⟩ := round
    rw [symbol?_symbol]
    have nested {low p : Nat} {us : List Token} (here : tape.At p us) (from_ : low ≤ 3 * p + 1)
        (_ : us.length ≤ rest.length) :
        tape.Follows low p (tape.typeExpr tape.budget p) (Reading.typeExpr tape.finish us) :=
      follows_typeExpr here from_ here.enough
    simp only [Reading.payload, Char.reduceEq, if_false, if_true, bind_assoc]
    refine (follows_tuple nested here (by omega)).bind fun types r _ _ _ there _ => ?_
    have fits : Variant.payloadOf (.str name.1) .tuple none types [] = .ok (.tuple types) := by
      simp [Variant.payloadOf]
    rw [makeVariant_eq named fits]
    exact follows_pure there
  rw [symbol?_eq_none round]
  change tape.Follows low p ((tape.sees '=' >>= _) p) _
  rw [sees_bind here]
  by_cases equals : StartsWith '=' ts
  · obtain ⟨q, rest, rfl⟩ := equals
    rw [symbol?_symbol]
    refine follows_next here (by omega) ?_
    simp only [Reading.payload, Char.reduceEq, if_false, if_true, bind_assoc]
    refine (follows_number here.behind (by omega)).bind fun value r _ _ _ there _ => ?_
    have positive : ¬((value.1 : Int) < 0) := Int.not_lt.mpr (Int.natCast_nonneg _)
    have fits : Variant.payloadOf (.str name.1) .int (some ⟨value.1, some value.2⟩) [] [] =
        .ok (.int ⟨value.1, some value.2⟩) := by
      simp [Variant.payloadOf, positive]
    rw [makeVariant_eq named fits]
    exact follows_pure there
  rw [symbol?_eq_none equals, payload_unit brace round equals]
  change tape.Follows low p (make (makeVariant header name .unit none [] []) p) _
  rw [makeVariant_eq named rfl]
  exact follows_pure here

end

theorem follows_variant (here : tape.At p ts) (from_ : low ≤ 3 * p + 1) :
    tape.Follows low p (tape.variant p) (Reading.variant tape.finish ts) := by
  refine (follows_header? .variant here (by omega)).bind fun header q us _ _ behindHeader _ => ?_
  refine (follows_word behindHeader (by omega)).bind fun name r _ _ read there _ => ?_
  exact follows_payload (behindHeader.ne_nil read) there (by omega)

/-! ## Types -/

theorem follows_kind (here : tape.At p ts) (from_ : low ≤ 3 * p + 2) :
    tape.Follows low p (tape.take asKind .typeKeyword p) (Reading.kind tape.finish ts) := by
  rcases ts with - | ⟨⟨lexeme, q⟩, rest⟩
  · exact follows_untaken rfl here
  cases lexeme with
  | number digits => exact follows_untaken rfl here
  | symbol c => exact follows_untaken rfl here
  | word w =>
      have same : asKind ⟨.word w, q⟩ = if w = "struct" then some .struct
          else if w = "node" then some .node else if w = "enum" then some .enum else none := rfl
      simp only [Reading.kind]
      split_ifs at same ⊢
      · exact follows_taken same here from_
      · exact follows_taken same here from_
      · exact follows_taken same here from_
      · exact follows_untaken same here

theorem makeDecl_eq {header : Option Header} {name : Text × Position} {body : Body}
    (named : name.1 ≠ []) :
    make (makeDecl header name body) = pure ⟨.str name.1, body, header, some name.2⟩ := by
  rw [makeDecl, checkedName_str named]
  rfl

theorem follows_body {kind : Kind} {header : Option Header} {name : Text × Position}
    (named : name.1 ≠ []) {n : Nat}
    {shorter : ∀ body : Parsed Token Body ts.length, body.rest.length < n}
    (here : tape.At p ts) (from_ : low ≤ 3 * p) :
    tape.Follows low p (tape.body kind header name p)
      (Reading.body tape.finish kind ts >>= fun body =>
        .ok ⟨⟨.str name.1, body.value, header, some name.2⟩, body.rest, shorter body⟩) := by
  have records (node : Bool) : tape.Follows low p
      ((tape.items '\x7d' tape.field >>= fun fields =>
        make (makeDecl header name (.record node fields))) p)
      (Reading.fields tape.finish ts >>= fun fields =>
        .ok ⟨⟨.str name.1, .record node fields.value, header, some name.2⟩, fields.rest,
          shorter (fields.map (Body.record node))⟩) := by
    refine (follows_fields here from_).bind fun fields q _ _ _ there _ => ?_
    rw [makeDecl_eq named]
    exact follows_pure there
  cases kind with
  | struct =>
      simp only [Reading.body, bind_assoc]
      exact records false
  | node =>
      simp only [Reading.body, bind_assoc]
      exact records true
  | enum =>
      have variants : tape.Follows low p (tape.items '\x7d' tape.variant p)
          (Reading.items tape.finish '\x7d' ts (fun us _ => Reading.variant tape.finish us) ts
            (le_refl _)) :=
        follows_items (fun _ _ _ here => follows_variant here (le_refl _)) (le_refl _) here from_
      simp only [Reading.body, bind_assoc]
      refine variants.bind fun vs q _ _ _ there _ => ?_
      rw [makeDecl_eq named]
      exact follows_pure there

theorem follows_decl (here : tape.At p ts) (from_ : low ≤ 3 * p + 1) :
    tape.Follows low p (tape.decl p) (Reading.decl tape.finish ts) := by
  refine (follows_header? .type here (by omega)).bind fun header q _ _ _ there _ => ?_
  refine (follows_kind there (by omega)).bind fun kind r us _ _ behindKind _ => ?_
  refine (follows_word behindKind (by omega)).bind fun name s _ _ read opening _ => ?_
  refine (follows_symbol opening (by omega)).bind fun _ t _ shorter _ there _ => ?_
  have before := opening.length
  have length := there.length
  exact follows_body (behindKind.ne_nil read) there (by omega)

theorem follows_decls {budget : Nat} (here : tape.At p ts) (from_ : low ≤ 3 * p)
    (enough : ts.length < budget) :
    tape.Follows low p (tape.decls budget p) (Reading.allDecls tape.finish ts) := by
  induction budget generalizing ts p low with
  | zero => exact absurd enough (Nat.not_lt_zero _)
  | succ budget ih =>
  rw [Tape.decls, peek_bind here]
  rcases ts with - | ⟨token, rest⟩
  · rw [Reading.allDecls, Reading.decls]
    exact follows_pure here
  · rw [Reading.allDecls_cons]
    have first : tape.Follows low p (logged .iteration tape.decl p)
        (Reading.decl tape.finish (token :: rest)) :=
      follows_logged here from_ (follows_decl here (le_refl _))
    refine first.bind fun d q us shorter _ there _ => ?_
    have place := here.length
    have length := there.length
    refine (ih there (by omega) (by omega)).bind fun more r left _ _ beyond _ => ?_
    exact follows_pure beyond

end Tape
end SchemaHistory
