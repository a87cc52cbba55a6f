import SchemaHistory.Compiled
import SchemaHistory.Upgrade.Change

/-! # Comparing two versions

The types of two versions are matched by name, and so are the variants of an enum and the fields of
a record or of a struct variant that is the same declaration in both versions.  In every scope the
removals come first and then the names of the newer version one after the other, where the changes
inside a type or a variant stand in its place.  An upgrade is safe when no change is breaking.

The items of a scope are looked up by the keys of their names.  Of items that are looked up alike
the last one counts, under the name of the first one.  Two versions cannot be compared when a name
cannot be looked up, when an item that changed cannot be written, or when a member of a record
lists fields of its own. -/
set_option autoImplicit false
namespace SchemaHistory.Upgrade

/-- What a comparison needs to know about the items of a scope: their names, what they look like
alone, whether that can be written, and when two namesakes are the same declaration. -/
structure View (α : Type) where
  name : α → Json
  form : α → Json
  isWritable : α → Bool
  same : α → α → Bool

/-- An item with the name that it is shown under. -/
structure Entry (α : Type) where
  name : Json
  item : α

/-- The entries of a scope by the keys of their names. -/
abbrev Entries (α : Type) := List (Json × Entry α)

/-- The name of the first of the items that are looked up like the given one. -/
def nameAmong {α : Type} (view : View α) (items : List α) (item : α) : Json :=
  match items.find? fun other => (view.name other).key = (view.name item).key with
  | some first => view.name first
  | none => view.name item

def entriesOf {α : Type} (view : View α) (items : List α) : Entries α :=
  Table.ofList (items.map fun item => ((view.name item).key, ⟨nameAmong view items item, item⟩))

/-- Compares one scope; `inside` are the changes inside of an item that is in both versions and is
shown under the given name. -/
def compare {α : Type} (scope : Scope) (view : View α) (inside : Json → α → α → List Change)
    (old new : Entries α) : List Change :=
  let gone := old.filterMap fun (key, before) =>
    match Table.find? key new with
    | some _ => none
    | none => some ⟨scope, before.name, .removed (view.form before.item)⟩
  let rest := new.flatMap fun (key, after) =>
    match Table.find? key old with
    | none => [⟨scope, after.name, .added (view.form after.item)⟩]
    | some before =>
      if view.same before.item after.item then inside after.name before.item after.item
      else
        [⟨scope, after.name, .redefined (view.form before.item) (view.form after.item)⟩]
  gone ++ rest

/-- Whether one scope can be compared; `inside` says so of an item that is in both versions. -/
def comparable {α : Type} (view : View α) (inside : α → α → Bool) (old new : Entries α) : Bool :=
  ((old ++ new).all fun (_, entry) => entry.name.canBeLookedUp) &&
  (old.all fun (key, before) => (Table.find? key new).isSome || view.isWritable before.item) &&
  new.all fun (key, after) =>
    match Table.find? key old with
    | none => view.isWritable after.item
    | some before =>
      if view.same before.item after.item then inside before.item after.item
      else view.isWritable before.item && view.isWritable after.item

/-! ## Fields -/

/-- A field with its place in the list of all fields of its container. -/
def fieldView : View (Nat × Field) where
  name f := f.2.name
  form f := f.2.type.form
  isWritable f := f.2.type.isWritable
  same f g := f.1 == g.1

def fieldTable (fields : List Field) (indices : List Nat) : Entries (Nat × Field) :=
  entriesOf fieldView (indices.filterMap fun i => fields[i]?.map fun f => (i, f))

def fieldChanges (owner : Text) (fields : List Field) (old new : List Nat) : List Change :=
  compare (.field owner) fieldView (fun _ _ _ => []) (fieldTable fields old) (fieldTable fields new)

def fieldsComparable (fields : List Field) (old new : List Nat) : Bool :=
  comparable fieldView (fun _ _ => true) (fieldTable fields old) (fieldTable fields new)

/-! ## Variants -/

def variantView : View (MemberSlot × Variant) where
  name v := v.2.name
  form v := v.2.form
  isWritable v := v.2.isWritable
  same v w := v.1.index == w.1.index

/-- Variants by name.  Slots of the same variant count once, with the last one's fields. -/
def variantTable (variants : List Variant) (slots : List MemberSlot) :
    Entries (MemberSlot × Variant) :=
  let byIndex := Table.ofList (slots.map fun s => (s.index, s))
  entriesOf variantView
    (byIndex.filterMap fun entry => variants[entry.1]?.map fun v => (entry.2, v))

/-- A struct variant that lives in both versions may have gained or lost fields. -/
def insideVariant (enumName : Text) (name : Json) (old new : MemberSlot × Variant) : List Change :=
  match old.1, new.1 with
  | .struct _ before, .struct _ after =>
    fieldChanges (Scope.memberPath enumName name) new.2.payload.fields before after
  | _, _ => []

def insideVariantComparable (old new : MemberSlot × Variant) : Bool :=
  match old.1, new.1 with
  | .struct _ before, .struct _ after => fieldsComparable new.2.payload.fields before after
  | _, _ => true

def variantChanges (enumName : Text) (variants : List Variant) (old new : List MemberSlot) :
    List Change :=
  compare (.variant enumName) variantView (insideVariant enumName) (variantTable variants old)
    (variantTable variants new)

def variantsComparable (variants : List Variant) (old new : List MemberSlot) : Bool :=
  comparable variantView insideVariantComparable (variantTable variants old)
    (variantTable variants new)

/-! ## Types -/

def typeView : View (TypeSlot × Decl) where
  name t := t.2.name
  form t := .str t.2.kind.name
  isWritable _ := true
  same t u := t.1.index == u.1.index

def typeTable (decls : List Decl) (s : Snapshot) : Entries (TypeSlot × Decl) :=
  entriesOf typeView (s.declared decls)

/-- Owners are shown under the name of their own declaration. -/
def insideType (_ : Json) (old new : TypeSlot × Decl) : List Change :=
  match new.2.body with
  | .record _ fields =>
    fieldChanges new.2.name.shown fields (old.1.members.map MemberSlot.index)
      (new.1.members.map MemberSlot.index)
  | .enum variants => variantChanges new.2.name.shown variants old.1.members new.1.members

def insideTypeComparable (old new : TypeSlot × Decl) : Bool :=
  match new.2.body with
  | .record _ fields =>
    old.1.members.all MemberSlot.isPlain && new.1.members.all MemberSlot.isPlain &&
      fieldsComparable fields (old.1.members.map MemberSlot.index)
        (new.1.members.map MemberSlot.index)
  | .enum variants => variantsComparable variants old.1.members new.1.members

/-! ## Versions -/

def snapshotChanges (decls : List Decl) (old new : Snapshot) : List Change :=
  compare .type typeView insideType (typeTable decls old) (typeTable decls new)

def snapshotsComparable (decls : List Decl) (old new : Snapshot) : Bool :=
  comparable typeView insideTypeComparable (typeTable decls old) (typeTable decls new)

/-- Why two versions have no difference. -/
inductive Fault
  | missing (version : MissingVersion)
  | incomparable
  deriving DecidableEq, Repr

def Fault.message : Fault → Text
  | .missing version => version.message
  | .incomparable => "the versions cannot be compared"

def namesUsable (decls : List Decl) (s : Snapshot) : Bool :=
  (s.typeNames decls).all Json.canBeLookedUp

/-- One of the two versions, if its types can be looked up by name. -/
def side (c : Compiled) (version : Int) : Except Fault Snapshot := do
  let s ← (c.snapshot? version).mapError Fault.missing
  if namesUsable c.decls s then .ok s else .error .incomparable

/-- All changes from the old version to the new one.  The old version is looked at first. -/
def diff (c : Compiled) (old new : Int) : Except Fault (List Change) := do
  let before ← side c old
  let after ← side c new
  if snapshotsComparable c.decls before after then .ok (snapshotChanges c.decls before after)
  else .error .incomparable

/-- Why an upgrade is refused. -/
inductive Refusal
  | fault (fault : Fault)
  | breaking (changes : List Change)
  deriving Repr

/-- The message about breaking changes. -/
def breakingText (changes : List Change) : Text :=
  "Schema compatibility check failed with " ++ Text.ofNat changes.length ++
    " breaking change(s):\n" ++ Text.join "\n" (changes.map Change.text)

/-- All changes of an upgrade, provided that none of them is breaking. -/
def check (c : Compiled) (old new : Int) : Except Refusal (List Change) :=
  match diff c old new with
  | .error fault => .error (.fault fault)
  | .ok changes =>
    let breaking := changes.filter Change.isBreaking
    if breaking.isEmpty then .ok changes else .error (.breaking breaking)

end SchemaHistory.Upgrade
