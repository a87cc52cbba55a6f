import SchemaHistory.Diagnostic

/-! # Rejections

A schema that is not compiled is rejected with a diagnostic, or else because a document names
something by a value that cannot serve as a name: an array or an object cannot be looked up, and
only a text can be one of several names that are written in a row.  A snapshot that comes from
elsewhere is also rejected when it lists fields inside of a member of a record. -/
set_option autoImplicit false
namespace SchemaHistory

inductive Rejection
  | diagnostic (d : Diagnostic)
  | unusableName
  | misplacedFields
  deriving DecidableEq, Repr

def Rejection.message : Rejection → Text
  | .diagnostic d => d.text
  | .unusableName => "a name is neither a text nor a number"
  | .misplacedFields => "a member of a record has fields of its own"

end SchemaHistory
