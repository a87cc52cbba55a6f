import SchemaHistory.Json.Equality
import SchemaHistory.Json.Quoted

/-! # Places in a schema text

A cursor counts lines and columns while a text is read: lines are ended by `'\n'` alone and columns
count letters, so reading on by one letter is `Cursor.after`.  A position says where an item was
written: a line, a column and, when the text came from a file, that file's name.  The positions of
a document are kept as they were given, so their lines and columns may be any values. -/
set_option autoImplicit false
namespace SchemaHistory

structure Position where
  line : Json
  column : Json
  file : Option Text
  deriving DecidableEq, Repr

namespace Position

def withoutFile (p : Position) : Position := { p with file := none }

/-- An empty file name is as good as none. -/
def text (p : Position) : Text :=
  let place := p.line.shown ++ ":" ++ p.column.shown
  match p.file with
  | none => place
  | some file => if file.isEmpty then place else file ++ ":" ++ place

end Position

structure Cursor where
  line : Nat
  column : Nat
  deriving DecidableEq, Repr

namespace Cursor

def start : Cursor := ⟨1, 1⟩

/-- Where the letter that follows `l` stands, if `l` stands at `p`. -/
def after (p : Cursor) (l : Letter) : Cursor :=
  if l = .char '\n' then ⟨p.line + 1, 1⟩ else ⟨p.line, p.column + 1⟩

def afterAll (p : Cursor) (t : Text) : Cursor := t.foldl after p

def position (file : Option Text) (p : Cursor) : Position := ⟨.int p.line, .int p.column, file⟩

@[simp] theorem afterAll_nil (p : Cursor) : p.afterAll [] = p := rfl

@[simp] theorem afterAll_cons (p : Cursor) (l : Letter) (t : Text) :
    p.afterAll (l :: t) = (p.after l).afterAll t := rfl

theorem afterAll_append (p : Cursor) (s t : Text) :
    p.afterAll (s ++ t) = (p.afterAll s).afterAll t :=
  List.foldl_append

end Cursor

/-- What stands in front of a message about the place. -/
def locator : Option Position → Text
  | none => []
  | some p => p.text ++ ": "

/-- A value with the place where it was written, if that is known. -/
structure Located (α : Type) where
  value : α
  position : Option Position
  deriving DecidableEq, Repr

abbrev Literal := Located Int

end SchemaHistory
