import SchemaHistory.Declaration.Basic
import SchemaHistory.Source.Parsed
import SchemaHistory.Source.Token
import SchemaHistory.Text.Numeral

/-! # Schemas written as text

Every construct of the schema language is read from the front of a list of tokens and leaves a
shorter rest.  Keywords are ordinary words elsewhere: `struct`, `node` and `enum` count only where
a type starts, `add` and `rem` only inside a version header, and `ref` and `opt` only where a type
expression starts.  Lists are separated by commas, and a comma may follow their last item.

Where a construct is broken, the diagnostic is about the first token that cannot stand where it
stands; the rules that concern the header as a whole are checked once its bracket is closed.  A
numeral that has too many digits ends the reading without a diagnostic. -/
set_option autoImplicit false
namespace SchemaHistory

/-- Why a schema text is not read. -/
inductive Misreading
  | fault (d : Diagnostic)
  | overlong (numeral : Text.Overlong)
  deriving DecidableEq, Repr

instance : Coe Diagnostic Misreading := ⟨Misreading.fault⟩

/-- What a reader of tokens returns. -/
abbrev Reading (α : Type) (bound : Nat) := Except Misreading (Parsed Token α bound)

namespace Reading

/-- The greatest number that a schema text may contain. -/
def greatestNumber : Nat := 4294967295

/-- The text and the place of the next token, where `finish` is the end of the text. -/
def next (finish : Position) : List Token → Text × Position
  | [] => ("end of input", finish)
  | token :: _ => (token.lexeme.text, token.position)

def unexpected (finish : Position) (expected : Expected) (ts : List Token) : Diagnostic :=
  ⟨.text (.unexpectedToken expected (next finish ts).1), some (next finish ts).2⟩

def symbol? (c : Char) : (ts : List Token) → Option (Parsed Token Position ts.length)
  | ⟨.symbol d, p⟩ :: rest => if d = c then some ⟨p, rest, Nat.lt_succ_self _⟩ else none
  | _ => none

def symbol (finish : Position) (c : Char) (ts : List Token) : Reading Position ts.length :=
  match symbol? c ts with
  | some p => .ok p
  | none => .error (unexpected finish (.symbol c) ts)

def word (finish : Position) (expected : Expected) :
    (ts : List Token) → Reading (Text × Position) ts.length
  | ⟨.word text, p⟩ :: rest => .ok ⟨(text, p), rest, Nat.lt_succ_self _⟩
  | ts => .error (unexpected finish expected ts)

def number (finish : Position) (role : NumberRole) :
    (ts : List Token) → Reading (Nat × Position) ts.length
  | ⟨.number digits, p⟩ :: rest =>
    match Text.natural digits with
    | .error numeral => .error (.overlong numeral)
    | .ok n =>
      if greatestNumber < n then .error (.fault ⟨.text (.numberTooLarge role), some p⟩)
      else .ok ⟨(n, p), rest, Nat.lt_succ_self _⟩
  | ts => .error (unexpected finish (.number role) ts)

/-- The end of an item: a comma, after which the list goes on (`true`), or the symbol that closes
the list (`false`). -/
def separator (finish : Position) (close : Char) : (ts : List Token) → Reading Bool ts.length
  | ⟨.symbol c, p⟩ :: rest =>
    if c = ',' then .ok ⟨true, rest, Nat.lt_succ_self _⟩
    else if c = close then .ok ⟨false, rest, Nat.lt_succ_self _⟩
    else .error (unexpected finish (.separator close) (⟨.symbol c, p⟩ :: rest))
  | ts => .error (unexpected finish (.separator close) ts)

/-- Items up to the symbol that closes their list.  The reader of one item is only given lists that
are no longer than `whole`. -/
def items {α : Type} (finish : Position) (close : Char) (whole : List Token)
    (item : (ts : List Token) → ts.length ≤ whole.length → Reading α ts.length)
    (ts : List Token) (inside : ts.length ≤ whole.length) : Reading (List α) ts.length :=
  match symbol? close ts with
  | some p => .ok ⟨[], p.rest, p.shorter⟩
  | none => do
    let first ← item ts inside
    let sep ← separator finish close first.rest
    have sepShorter : sep.rest.length < ts.length :=
      Nat.lt_trans sep.shorter first.shorter
    if sep.value then
      let more ← items finish close whole item sep.rest
        (Nat.le_trans (Nat.le_of_lt sepShorter) inside)
      .ok ⟨first.value :: more.value, more.rest, Nat.lt_trans more.shorter sepShorter⟩
    else .ok ⟨[first.value], sep.rest, sepShorter⟩
termination_by ts.length

/-! ## Version headers -/

inductive Action
  | add
  | rem
  deriving DecidableEq, Repr

structure Specifier where
  action : Action
  position : Position
  version : Literal
  deriving DecidableEq, Repr

def action (finish : Position) :
    (ts : List Token) → Reading (Action × Position) ts.length
  | ⟨.word text, p⟩ :: rest =>
    if text = "add" then .ok ⟨(.add, p), rest, Nat.lt_succ_self _⟩
    else if text = "rem" then .ok ⟨(.rem, p), rest, Nat.lt_succ_self _⟩
    else .error (unexpected finish .specifier (⟨.word text, p⟩ :: rest))
  | ts => .error (unexpected finish .specifier ts)

def specifier (finish : Position) (ts : List Token) : Reading Specifier ts.length := do
  let act ← action finish ts
  let opening ← symbol finish '(' act.rest
  let version ← number finish .version opening.rest
  let closing ← symbol finish ')' version.rest
  let literal : Literal := ⟨version.value.1, some version.value.2⟩
  .ok ⟨⟨act.value.1, act.value.2, literal⟩, closing.rest, by
    have := act.shorter
    have := opening.shorter
    have := version.shorter
    have := closing.shorter
    omega⟩

/-- Specifiers up to the bracket that closes the header; one is due at once and after each comma. -/
def specifiers (finish : Position) (ts : List Token) : Reading (List Specifier) ts.length := do
  let first ← specifier finish ts
  match symbol? ']' first.rest with
  | some p => .ok ⟨[first.value], p.rest, Nat.lt_trans p.shorter first.shorter⟩
  | none =>
    let comma ← symbol finish ',' first.rest
    have shorter : comma.rest.length < ts.length := Nat.lt_trans comma.shorter first.shorter
    let more ← specifiers finish comma.rest
    .ok ⟨first.value :: more.value, more.rest, Nat.lt_trans more.shorter shorter⟩
termination_by ts.length

/-- A header has an `add`, a `rem`, or both in this order.  `hash` is its first character. -/
def headerOf (hash : Position) : List Specifier → Except Misreading Header
  | [] => .error (.fault ⟨.text .emptyHeader, some hash⟩)
  | [⟨.add, _, n⟩] => .ok (.adding n none (some hash))
  | [⟨.rem, _, n⟩] => .ok (.removing n (some hash))
  | [⟨.add, _, n⟩, ⟨.rem, _, m⟩] => .ok (.adding n (some m) (some hash))
  | [⟨.add, _, _⟩, ⟨.add, p, _⟩] => .error (.fault ⟨.text .repeatedAdd, some p⟩)
  | [⟨.rem, _, _⟩, ⟨.add, p, _⟩] => .error (.fault ⟨.text .addAfterRem, some p⟩)
  | [⟨.rem, _, _⟩, ⟨.rem, p, _⟩] => .error (.fault ⟨.text .repeatedRem, some p⟩)
  | _ :: _ :: third :: _ => .error (.fault ⟨.text .thirdSpecifier, some third.position⟩)

/-- What stands between the brackets of a header, with the closing one. -/
def headerBody (finish : Position) (ts : List Token) : Reading (List Specifier) ts.length :=
  match symbol? ']' ts with
  | some p => .ok ⟨[], p.rest, p.shorter⟩
  | none => specifiers finish ts

/-- The header of an item, if it has one; a second header may not follow. -/
def header? (finish : Position) (owner : HeaderOwner) (ts : List Token) :
    Reading (Option Header) (ts.length + 1) :=
  match symbol? '#' ts with
  | none => .ok ⟨none, ts, Nat.lt_succ_self _⟩
  | some hash => do
    let opening ← symbol finish '[' hash.rest
    let body ← headerBody finish opening.rest
    let header ← headerOf hash.value body.value
    match symbol? '#' body.rest with
    | some again => .error (.fault ⟨.text (.secondHeader owner), some again.value⟩)
    | none =>
      .ok ⟨some header, body.rest, by
        have := hash.shorter
        have := opening.shorter
        have := body.shorter
        omega⟩

/-! ## Type expressions -/

/-- The end of a bracketed type: a length and a bracket for an array, the bracket for a slice. -/
def bracketEnd (finish : Position) (inner : TypeExpr) (p : Position) (ts : List Token) :
    Reading TypeExpr ts.length :=
  match symbol? ';' ts with
  | some semicolon => do
    let size ← number finish .arraySize semicolon.rest
    let closing ← symbol finish ']' size.rest
    .ok ⟨.array inner (.int size.value.1) (some p), closing.rest, by
      have := semicolon.shorter
      have := size.shorter
      have := closing.shorter
      omega⟩
  | none => do
    let closing ← symbol finish ']' ts
    .ok ⟨.slice inner (some p), closing.rest, closing.shorter⟩

def typeExpr (finish : Position) (ts : List Token) : Reading TypeExpr ts.length :=
  match ts with
  | ⟨.symbol c, p⟩ :: rest =>
    if c = '[' then do
      let inner ← typeExpr finish rest
      let closed ← bracketEnd finish inner.value p inner.rest
      .ok ⟨closed.value, closed.rest,
        Nat.lt_succ_of_lt (Nat.lt_trans closed.shorter inner.shorter)⟩
    else if c = '(' then do
      let inner ← items finish ')' rest (fun us _ => typeExpr finish us) rest (Nat.le_refl _)
      .ok ⟨.tuple inner.value (some p), inner.rest, Nat.lt_succ_of_lt inner.shorter⟩
    else .error (unexpected finish .typeExpr (⟨.symbol c, p⟩ :: rest))
  | ⟨.word text, p⟩ :: rest =>
    if text = "ref" ∨ text = "opt" then do
      let opening ← symbol finish '<' rest
      have openingShorter := opening.shorter
      let inner ← typeExpr finish opening.rest
      let closing ← symbol finish '>' inner.rest
      let wrapped := if text = "ref" then TypeExpr.reference else TypeExpr.optional
      .ok ⟨wrapped inner.value (some p), closing.rest, by
        have := inner.shorter
        have := closing.shorter
        simp only [List.length_cons]
        omega⟩
    else .ok ⟨.ofWord text (some p), rest, Nat.lt_succ_self _⟩
  | ts => .error (unexpected finish .typeExpr ts)
termination_by ts.length

/-! ## Members and types -/

def field (finish : Position) (ts : List Token) : Reading Field ts.length := do
  let header ← header? finish .field ts
  let name ← word finish .fieldName header.rest
  let colon ← symbol finish ':' name.rest
  let type ← typeExpr finish colon.rest
  .ok ⟨⟨.str name.value.1, type.value, header.value, some name.value.2⟩, type.rest, by
    have := header.shorter
    have := name.shorter
    have := colon.shorter
    have := type.shorter
    omega⟩

def fields (finish : Position) (ts : List Token) : Reading (List Field) ts.length :=
  items finish '\x7d' ts (fun us _ => field finish us) ts (Nat.le_refl _)

/-- What follows the name of a variant; nothing has to. -/
def payload (finish : Position) (ts : List Token) : Reading Payload (ts.length + 1) :=
  match ts with
  | ⟨.symbol c, p⟩ :: rest =>
    if c = '\x7b' then do
      let inner ← fields finish rest
      .ok ((inner.map Payload.struct).weaken (by simp only [List.length_cons]; omega))
    else if c = '(' then do
      let inner ← items finish ')' rest (fun us _ => typeExpr finish us) rest (Nat.le_refl _)
      .ok ((inner.map Payload.tuple).weaken (by simp only [List.length_cons]; omega))
    else if c = '=' then do
      let n ← number finish .discriminant rest
      .ok ⟨.int ⟨n.value.1, some n.value.2⟩, n.rest, by
        have := n.shorter
        simp only [List.length_cons]
        omega⟩
    else .ok ⟨.unit, ⟨.symbol c, p⟩ :: rest, Nat.lt_succ_self _⟩
  | ts => .ok ⟨.unit, ts, Nat.lt_succ_self _⟩

def variant (finish : Position) (ts : List Token) : Reading Variant ts.length := do
  let header ← header? finish .variant ts
  let name ← word finish .variantName header.rest
  let payload ← payload finish name.rest
  .ok ⟨⟨.str name.value.1, payload.value, header.value, some name.value.2⟩, payload.rest, by
    have := header.shorter
    have := name.shorter
    have := payload.shorter
    omega⟩

def kind (finish : Position) : (ts : List Token) → Reading Kind ts.length
  | ⟨.word text, p⟩ :: rest =>
    if text = "struct" then .ok ⟨.struct, rest, Nat.lt_succ_self _⟩
    else if text = "node" then .ok ⟨.node, rest, Nat.lt_succ_self _⟩
    else if text = "enum" then .ok ⟨.enum, rest, Nat.lt_succ_self _⟩
    else .error (unexpected finish .typeKeyword (⟨.word text, p⟩ :: rest))
  | ts => .error (unexpected finish .typeKeyword ts)

/-- The members of a type with the brace that closes it. -/
def body (finish : Position) (kind : Kind) (ts : List Token) : Reading Body ts.length :=
  match kind with
  | .enum => do
    let variants ← items finish '\x7d' ts (fun us _ => variant finish us) ts (Nat.le_refl _)
    .ok (variants.map Body.enum)
  | kind => do
    let fields ← fields finish ts
    .ok (fields.map (Body.record (kind == .node)))

def decl (finish : Position) (ts : List Token) : Reading Decl ts.length := do
  let header ← header? finish .type ts
  let kind ← kind finish header.rest
  let name ← word finish .typeName kind.rest
  let opening ← symbol finish '\x7b' name.rest
  let body ← body finish kind.value opening.rest
  .ok ⟨⟨.str name.value.1, body.value, header.value, some name.value.2⟩, body.rest, by
    have := header.shorter
    have := kind.shorter
    have := name.shorter
    have := opening.shorter
    have := body.shorter
    omega⟩

def decls (finish : Position) (ts : List Token) : Except Misreading (List Decl) :=
  match ts with
  | [] => .ok []
  | token :: rest => do
    let first ← decl finish (token :: rest)
    let more ← decls finish first.rest
    .ok (first.value :: more)
termination_by ts.length
decreasing_by exact first.shorter

end Reading

/-- Reads a schema text.  A character that starts no token is reported before any other fault. -/
def declarationsOfText (text : Text) (file : Option Text) : Except Misreading (List Decl) :=
  match (scan text file).ending with
  | .error fault => .error (.fault fault)
  | .ok finish => Reading.decls finish (scan text file).tokens

end SchemaHistory
