import SchemaHistory.Text.Basic

/-! # Primitive types

The thirteen built-in types and the words that name them.  A word that names none of them is the
name of a declared type. -/
set_option autoImplicit false
namespace SchemaHistory

inductive Primitive
  | i8 | i16 | i32 | i64
  | u8 | u16 | u32 | u64
  | f32 | f64
  | bool
  | str
  | any
  deriving DecidableEq, Repr

namespace Primitive

def all : List Primitive :=
  [.i8, .i16, .i32, .i64, .u8, .u16, .u32, .u64, .f32, .f64, .bool, .str, .any]

def name : Primitive → String
  | .i8 => "i8"
  | .i16 => "i16"
  | .i32 => "i32"
  | .i64 => "i64"
  | .u8 => "u8"
  | .u16 => "u16"
  | .u32 => "u32"
  | .u64 => "u64"
  | .f32 => "f32"
  | .f64 => "f64"
  | .bool => "bool"
  | .str => "str"
  | .any => "any"

def named? (word : Text) : Option Primitive :=
  all.find? fun p => decide (Text.ofString p.name = word)

theorem mem_all (p : Primitive) : p ∈ all := by cases p <;> decide

theorem named?_name (p : Primitive) : named? p.name = some p := by cases p <;> decide

theorem name_of_named? {word : Text} {p : Primitive} (found : named? word = some p) :
    Text.ofString p.name = word := by
  simpa using List.find?_some found

end Primitive
end SchemaHistory
