import SchemaHistory.Text.Basic

/-! # Line ends

A text file may end its lines with a line feed, with a carriage return, or with both in this order.
Read as text, each of them is one line feed. -/
set_option autoImplicit false
namespace SchemaHistory.Text

/-- `acc` is what was read so far, in reverse. -/
def unifyNewlines (acc : Text) : Text → Text
  | [] => acc.reverse
  | .char '\r' :: .char '\n' :: rest => unifyNewlines (.char '\n' :: acc) rest
  | .char '\r' :: rest => unifyNewlines (.char '\n' :: acc) rest
  | l :: rest => unifyNewlines (l :: acc) rest

def withUnifiedNewlines (t : Text) : Text := unifyNewlines [] t

end SchemaHistory.Text
