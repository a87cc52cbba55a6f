import SchemaHistory.Declaration.Document
import SchemaHistory.Declaration.OfText
import SchemaHistory.Proofs.Source.Cuts

/-! # Reading by position

The readers of `SchemaHistory.Reading` take tokens from the front of a list.  Here the tokens stay
where they are and a reader moves a position along them: it looks at the token there, steps over it
and asks again.  The end of the text is the place behind the last token, where a step stays.  Loops
go on until they see the symbol that closes their list, and whether they ever do is not known when
they start; `budget` only bounds how often a loop looks for it and how deep type expressions nest.

A run keeps a log.  It says where an iteration of a loop, the reading of a type expression and a
step over a token started and, unless it failed, where it stopped.  Besides a refusal of the text,
a run can fail because a numeral has too many digits (`overlong`), because an item was put together
from parts that do not fit (`faulty`), because a token behind the end was asked for (`outside`), or
because a budget was used up (`endless`). -/
set_option autoImplicit false
namespace SchemaHistory

/-- The tokens of a text with the place of its end.  No word is empty. -/
structure Tape where
  tokens : List Token
  finish : Position
  named : ∀ p, ⟨.word [], p⟩ ∉ tokens

namespace Tape

inductive Failure
  | refused (d : Diagnostic)
  | overlong (numeral : Text.Overlong)
  | faulty (fault : DocumentFault)
  | outside
  | endless
  deriving Repr

inductive Step
  | iteration
  | expression
  | token
  deriving DecidableEq, Repr

structure Event where
  step : Step
  start : Nat
  stop : Option Nat
  deriving DecidableEq, Repr

/-- The log of a run, and its value with the position that was reached. -/
structure Run (α : Type) where
  events : List Event
  result : Except Failure (α × Nat)

def Reader (α : Type) : Type := Nat → Run α

def Run.followedBy {α β : Type} (run : Run α) (next : α → Reader β) : Run β :=
  match run.result with
  | .error failure => ⟨run.events, .error failure⟩
  | .ok (a, p) => ⟨run.events ++ (next a p).events, (next a p).result⟩

instance : Monad Reader where
  pure a := fun p => ⟨[], .ok (a, p)⟩
  bind reader next := fun p => (reader p).followedBy next

def fail {α : Type} (failure : Failure) : Reader α := fun _ => ⟨[], .error failure⟩

def refuse {α : Type} (fault : TextFault) (p : Position) : Reader α :=
  fail (.refused ⟨.text fault, some p⟩)

def make {α : Type} : Except DocumentFault α → Reader α
  | .ok a => pure a
  | .error fault => fail (.faulty fault)

def logged {α : Type} (step : Step) (reader : Reader α) : Reader α := fun p =>
  let run := reader p
  ⟨⟨step, p, run.result.toOption.map Prod.snd⟩ :: run.events, run.result⟩

section
variable (tape : Tape)

/-- No list of the text has more items, and no type expression is nested deeper. -/
def budget : Nat := tape.tokens.length + 1

/-! ## Single tokens -/

def peek : Reader (Option Token) := fun p =>
  if p ≤ tape.tokens.length then ⟨[], .ok (tape.tokens[p]?, p)⟩ else ⟨[], .error .outside⟩

def advance : Reader Unit := logged .token fun p => ⟨[], .ok ((), p + 1)⟩

def next : Reader Unit := do
  match ← tape.peek with
  | some _ => advance
  | none => pure ()

def asSymbol (c : Char) (token : Token) : Option Position :=
  if token.lexeme = .symbol c then some token.position else none

def sees (c : Char) : Reader Bool := do
  let token ← tape.peek
  pure (token.bind (asSymbol c)).isSome

def unexpected {α : Type} (expected : Expected) : Reader α := do
  let token ← tape.peek
  fail (.refused (Reading.unexpected tape.finish expected token.toList))

def take {α : Type} (read : Token → Option α) (expected : Expected) : Reader α := do
  let token ← tape.peek
  match token.bind read with
  | some a => do
    tape.next
    pure a
  | none => tape.unexpected expected

def asWord (token : Token) : Option (Text × Position) :=
  match token.lexeme with
  | .word text => some (text, token.position)
  | _ => none

def asNumber (token : Token) : Option (Text × Position) :=
  match token.lexeme with
  | .number digits => some (digits, token.position)
  | _ => none

def asAction (token : Token) : Option (Reading.Action × Position) :=
  match token.lexeme with
  | .word text =>
    if text = "add" then some (.add, token.position)
    else if text = "rem" then some (.rem, token.position)
    else none
  | _ => none

def asKind (token : Token) : Option Kind :=
  match token.lexeme with
  | .word text =>
    if text = "struct" then some .struct
    else if text = "node" then some .node
    else if text = "enum" then some .enum
    else none
  | _ => none

def symbol (c : Char) : Reader Position := tape.take (asSymbol c) (.symbol c)

def word (expected : Expected) : Reader (Text × Position) := tape.take asWord expected

/-- A numeral is converted and its number is judged when it has been stepped over. -/
def number (role : NumberRole) : Reader (Nat × Position) := do
  let digits ← tape.take asNumber (.number role)
  match Text.natural digits.1 with
  | .error numeral => fail (.overlong numeral)
  | .ok n =>
    if Reading.greatestNumber < n then refuse (.numberTooLarge role) digits.2
    else pure (n, digits.2)

/-! ## Lists -/

def listItem {α : Type} (close : Char) (item : Reader α) : Reader α := do
  let a ← item
  if ← tape.sees ',' then do
    tape.next
    pure a
  else if ← tape.sees close then pure a
  else tape.unexpected (.separator close)

/-- Iterations up to the symbol that closes the list, which is stepped over.  An iteration is told
whether it is the first one. -/
def loop {α : Type} (close : Char) (iteration : Bool → Reader α) :
    Bool → Nat → Reader (List α)
  | _, 0 => fail .endless
  | first, budget + 1 => do
    if ← tape.sees close then do
      let _ ← tape.symbol close
      pure []
    else do
      let a ← logged .iteration (iteration first)
      let more ← loop close iteration false budget
      pure (a :: more)

def items {α : Type} (close : Char) (item : Reader α) : Reader (List α) :=
  tape.loop close (fun _ => tape.listItem close item) true tape.budget

/-! ## Version headers -/

def specifier : Reader Reading.Specifier := do
  let action ← tape.take asAction .specifier
  let _ ← tape.symbol '('
  let version ← tape.number .version
  let _ ← tape.symbol ')'
  pure ⟨action.1, action.2, ⟨version.1, some version.2⟩⟩

def nextSpecifier (first : Bool) : Reader Reading.Specifier :=
  if first then tape.specifier
  else do
    let _ ← tape.symbol ','
    tape.specifier

/-- Assigns the specifiers to the two places of a header, one after the other. -/
def assign (added removed : Option Literal) :
    List Reading.Specifier → Reader (Option Literal × Option Literal)
  | [] => pure (added, removed)
  | ⟨.add, p, n⟩ :: rest =>
    if removed.isSome then refuse .addAfterRem p
    else if added.isSome then refuse .repeatedAdd p
    else assign (some n) removed rest
  | ⟨.rem, p, n⟩ :: rest =>
    if removed.isSome then refuse .repeatedRem p
    else assign added (some n) rest

def headerOf (hash : Position) : List Reading.Specifier → Reader Header
  | [] => refuse .emptyHeader hash
  | _ :: _ :: third :: _ => refuse .thirdSpecifier third.position
  | specifiers => do
    let (added, removed) ← assign none none specifiers
    make (Header.make added removed (some hash))

def header : Reader Header := do
  let hash ← tape.symbol '#'
  let _ ← tape.symbol '['
  let specifiers ← tape.loop ']' tape.nextSpecifier true tape.budget
  headerOf hash specifiers

def header? (owner : HeaderOwner) : Reader (Option Header) := do
  if ← tape.sees '#' then do
    let header ← tape.header
    let token ← tape.peek
    match token.bind (asSymbol '#') with
    | some again => refuse (.secondHeader owner) again
    | none => pure (some header)
  else pure none

/-! ## Type expressions -/

/-- A word that is a primitive is looked up again when the expression is put together. -/
def wordExpr (text : Text) (p : Position) : Reader TypeExpr :=
  if (Primitive.named? text).isSome then
    make (match Primitive.named? text with
      | some kind => .ok (.primitive kind (some p))
      | none => .error (.unknownPrimitive (.str text)))
  else pure (.named (.str text) (some p))

def wrapped (inner : Reader TypeExpr) (wrap : TypeExpr → TypeExpr) : Reader TypeExpr := do
  let _ ← tape.symbol '<'
  let type ← inner
  let _ ← tape.symbol '>'
  pure (wrap type)

def bracketEnd (type : TypeExpr) (p : Position) : Reader TypeExpr := do
  if ← tape.sees ';' then do
    tape.next
    let size ← tape.number .arraySize
    let _ ← tape.symbol ']'
    pure (.array type (.int size.1) (some p))
  else do
    let _ ← tape.symbol ']'
    pure (.slice type (some p))

def bracketed (inner : Reader TypeExpr) (p : Position) : Reader TypeExpr := do
  tape.next
  let type ← inner
  tape.bracketEnd type p

def tuple (item : Reader TypeExpr) : Reader (List TypeExpr) := do
  let _ ← tape.symbol '('
  tape.items ')' item

def typeExpr : Nat → Reader TypeExpr
  | 0 => fail .endless
  | budget + 1 => logged .expression do
    match ← tape.peek with
    | some ⟨.symbol c, p⟩ =>
      if c = '[' then tape.bracketed (typeExpr budget) p
      else if c = '(' then do
        let types ← tape.tuple (typeExpr budget)
        pure (.tuple types (some p))
      else tape.unexpected .typeExpr
    | some ⟨.word text, p⟩ => do
      tape.next
      if text = "ref" then tape.wrapped (typeExpr budget) (.reference · (some p))
      else if text = "opt" then tape.wrapped (typeExpr budget) (.optional · (some p))
      else wordExpr text p
    | _ => tape.unexpected .typeExpr

/-! ## Members and types -/

def field : Reader Field := do
  let header ← tape.header? .field
  let name ← tape.word .fieldName
  let _ ← tape.symbol ':'
  let type ← tape.typeExpr tape.budget
  make (Field.make (.str name.1) type header (some name.2))

def makeVariant (header : Option Header) (name : Text × Position) (shape : Variant.Shape)
    (discriminant : Option Literal) (types : List TypeExpr) (fields : List Field) :
    Except DocumentFault Variant := do
  let checked ← Document.checkedName .emptyVariantName (.str name.1)
  let payload ← Variant.payloadOf checked shape discriminant types fields
  .ok ⟨checked, payload, header, some name.2⟩

def payload (header : Option Header) (name : Text × Position) : Reader Variant := do
  if ← tape.sees '\x7b' then do
    tape.next
    let fields ← tape.items '\x7d' tape.field
    make (makeVariant header name .struct none [] fields)
  else if ← tape.sees '(' then do
    let types ← tape.tuple (tape.typeExpr tape.budget)
    make (makeVariant header name .tuple none types [])
  else if ← tape.sees '=' then do
    tape.next
    let n ← tape.number .discriminant
    make (makeVariant header name .int (some ⟨n.1, some n.2⟩) [] [])
  else make (makeVariant header name .unit none [] [])

def variant : Reader Variant := do
  let header ← tape.header? .variant
  let name ← tape.word .variantName
  tape.payload header name

def makeDecl (header : Option Header) (name : Text × Position) (body : Body) :
    Except DocumentFault Decl := do
  let checked ← Document.checkedName .emptyTypeName (.str name.1)
  .ok ⟨checked, body, header, some name.2⟩

def body (kind : Kind) (header : Option Header) (name : Text × Position) : Reader Decl :=
  match kind with
  | .enum => do
    let variants ← tape.items '\x7d' tape.variant
    make (makeDecl header name (.enum variants))
  | kind => do
    let fields ← tape.items '\x7d' tape.field
    make (makeDecl header name (.record (kind == .node) fields))

def decl : Reader Decl := do
  let header ← tape.header? .type
  let kind ← tape.take asKind .typeKeyword
  let name ← tape.word .typeName
  let _ ← tape.symbol '\x7b'
  tape.body kind header name

def decls : Nat → Reader (List Decl)
  | 0 => fail .endless
  | budget + 1 => do
    match ← tape.peek with
    | none => pure []
    | some _ => do
      let first ← logged .iteration tape.decl
      let more ← decls budget
      pure (first :: more)

end

def ofText (text : Text) (file : Option Text) (finish : Position) : Tape where
  tokens := (scan text file).tokens
  finish := finish
  named := fun _ found => Bool.false_ne_true (Scan.isName_of_mem found)

def read (text : Text) (file : Option Text) : Run (List Decl) :=
  match (scan text file).ending with
  | .error fault => ⟨[], .error (.refused fault)⟩
  | .ok finish => (ofText text file finish).decls (ofText text file finish).budget 0

end Tape
end SchemaHistory
