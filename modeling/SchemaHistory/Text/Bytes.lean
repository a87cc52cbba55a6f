import SchemaHistory.Text.Basic

/-! # Bytes of texts

In bytes a character is its UTF-8 form, and a surrogate from U+DC80 to U+DCFF is one byte, the one
that the last two digits of its code name.  So there is a text for every list of bytes: where they
form no character, a byte is read as its surrogate.  Two texts may have the same bytes, since the
surrogates of a character's bytes in a row are one of its spellings. -/
set_option autoImplicit false
namespace SchemaHistory

namespace Letter

/-- The surrogates from U+DC80 to U+DCFF stand for single bytes; others for nothing. -/
def standsForByte (l : Letter) : Bool := decide (0xDC80 ≤ l.code) && decide (l.code ≤ 0xDCFF)

/-- The surrogate that stands for a byte above 127. -/
def ofByte (b : UInt8) : Letter := ofUnit (0xDC00 + b.toNat)

def bytes : Letter → List UInt8
  | .char c => String.utf8EncodeChar c
  | .surrogate offset => [UInt8.ofNat offset.val]

end Letter

namespace Text

def bytes (t : Text) : List UInt8 := t.flatMap Letter.bytes

/-- The character at the start of some bytes, none of which takes more than four. -/
def characterAt? (bytes : List UInt8) : Option Char :=
  (bytes.take 4).toByteArray.utf8DecodeChar? 0

def ofBytes : List UInt8 → Text
  | [] => []
  | b :: rest =>
    match characterAt? (b :: rest) with
    | some c => .char c :: ofBytes (rest.drop (c.utf8Size - 1))
    | none => .ofByte b :: ofBytes rest
termination_by bytes => bytes.length

end Text
end SchemaHistory
