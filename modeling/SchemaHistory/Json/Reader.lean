import SchemaHistory.Json.Basic
import SchemaHistory.Source.Parsed
import SchemaHistory.Text.Numeral

/-! # Reading JSON text

`Json.read` accepts the JSON grammar and the three words `NaN`, `Infinity` and `-Infinity`.  A
numeral without a fraction and an exponent is a whole number; every other one is the nearest binary
number.  A whole number with too many digits ends the reading, whatever stands behind it.  A
repeated member keeps its first place and its last value.  Two escapes that name the halves of a
character beyond U+FFFF stand for that character; an escape that names one half alone stands for a
surrogate. -/
set_option autoImplicit false
namespace SchemaHistory.Json

/-- Why a text is not read. -/
inductive ReadFault
  | malformed
  | overlong (numeral : Text.Overlong)
  deriving DecidableEq, Repr

def isSpace (l : Letter) : Bool :=
  l.satisfies fun c => c == ' ' || c == '\t' || c == '\n' || c == '\r'

def skipSpace (t : Text) : Text := t.dropWhile isSpace

theorem length_skipSpace_le (t : Text) : (skipSpace t).length ≤ t.length :=
  (List.dropWhile_sublist _).length_le

/-- What follows the first letter after the space is shorter than the whole. -/
theorem shorter_of_skipSpace {t tail : Text} {l : Letter} (shape : skipSpace t = l :: tail) :
    tail.length < t.length := by
  have le := length_skipSpace_le t
  rw [shape, List.length_cons] at le
  omega

def hexValue? (c : Char) : Option Nat :=
  if c.isDigit then some (c.toNat - '0'.toNat)
  else if 'a' ≤ c ∧ c ≤ 'f' then some (c.toNat - 'a'.toNat + 10)
  else if 'A' ≤ c ∧ c ≤ 'F' then some (c.toNat - 'A'.toNat + 10)
  else none

def hexLetter? : Letter → Option Nat
  | .char c => hexValue? c
  | .surrogate _ => none

def unit? (a b c d : Letter) : Option Nat := do
  let a ← hexLetter? a
  let b ← hexLetter? b
  let c ← hexLetter? c
  let d ← hexLetter? d
  pure (((a * 16 + b) * 16 + c) * 16 + d)

def isHighHalf (n : Nat) : Bool := 0xD800 ≤ n && n < 0xDC00
def isLowHalf (n : Nat) : Bool := 0xDC00 ≤ n && n < 0xE000

def joinedHalves (high low : Nat) : Letter :=
  .char (Char.ofNat (0x10000 + (high - 0xD800) * 0x400 + (low - 0xDC00)))

def shortEscape? : Letter → Option Letter
  | .char '"' => some (.char '"')
  | .char '\\' => some (.char '\\')
  | .char '/' => some (.char '/')
  | .char 'b' => some (.char '\x08')
  | .char 'f' => some (.char '\x0c')
  | .char 'n' => some (.char '\n')
  | .char 'r' => some (.char '\r')
  | .char 't' => some (.char '\t')
  | _ => none

/-- The letters between the quotes with their escapes resolved; `acc` is what comes before them, in
reverse. -/
def unescape? (acc : Text) : Text → Option Text
  | [] => some acc.reverse
  | .char '\\' :: .char 'u' :: a :: b :: c :: d ::
      .char '\\' :: .char 'u' :: a' :: b' :: c' :: d' :: rest =>
    match unit? a b c d, unit? a' b' c' d' with
    | some high, some low =>
      if isHighHalf high && isLowHalf low then unescape? (joinedHalves high low :: acc) rest
      else
        unescape? (Letter.ofUnit high :: acc)
          (.char '\\' :: .char 'u' :: a' :: b' :: c' :: d' :: rest)
    | _, _ => none
  | .char '\\' :: .char 'u' :: a :: b :: c :: d :: rest =>
    match unit? a b c d with
    | some n => unescape? (Letter.ofUnit n :: acc) rest
    | none => none
  | .char '\\' :: e :: rest =>
    match shortEscape? e with
    | some l => unescape? (l :: acc) rest
    | none => none
  | l :: rest => if l = .char '\\' then none else unescape? (l :: acc) rest

/-- Splits after the quote that ends a string; no control character may stand before it. -/
def splitString? (acc : Text) : Text → Option (Text × Text)
  | [] => none
  | .char '"' :: rest => some (acc.reverse, rest)
  | .char '\\' :: l :: rest => splitString? (l :: .char '\\' :: acc) rest
  | l :: rest => if l.code < 0x20 then none else splitString? (l :: acc) rest

theorem splitString?_shorter {acc t raw rest : Text}
    (split : splitString? acc t = some (raw, rest)) : rest.length < t.length := by
  fun_induction splitString? acc t with
  | case1 => simp at split
  | case2 acc rest' =>
      simp only [Option.some.injEq, Prod.mk.injEq] at split
      simp [split.2]
  | case3 acc l rest' ih => have := ih split; simp only [List.length_cons]; omega
  | case4 => simp at split
  | case5 acc l rest' _ _ _ ih => have := ih split; simp only [List.length_cons]; omega

/-- Reads a string whose opening quote has been read. -/
def readString? (t : Text) : Option (Parsed Letter Text t.length) :=
  match split : splitString? [] t with
  | none => none
  | some (raw, rest) =>
    (unescape? [] raw).map fun text => ⟨text, rest, splitString?_shorter split⟩

/-- The digits after the point, if there is a point with a digit behind it. -/
def fraction (t : Text) : Text × Text :=
  match t with
  | .char '.' :: rest =>
    if (rest.takeWhile Text.isWesternDigit).isEmpty then ([], t)
    else (rest.takeWhile Text.isWesternDigit, rest.dropWhile Text.isWesternDigit)
  | _ => ([], t)

/-- The sign and the digits of the exponent, if there is one. -/
def exponent (t : Text) : Option Int × Text :=
  let signed (sign : Int) (rest : Text) : Option Int × Text :=
    if (rest.takeWhile Text.isWesternDigit).isEmpty then (none, t)
    else (some (sign * (Text.digitsValue (rest.takeWhile Text.isWesternDigit) : Int)),
      rest.dropWhile Text.isWesternDigit)
  match t with
  | [] => (none, t)
  | l :: rest =>
    if l = .char 'e' ∨ l = .char 'E' then
      match rest with
      | .char '-' :: rest => signed (-1) rest
      | .char '+' :: rest => signed 1 rest
      | rest => signed 1 rest
    else (none, t)

/-- Reads a numeral without its sign: a zero, or digits that do not start with one, then a
fraction and an exponent if there are any. -/
def readNumeral (negative : Bool) (t : Text) : Except ReadFault (Json × Text) :=
  let digits : Text := match t with
    | .char '0' :: _ => [.char '0']
    | _ => t.takeWhile Text.isWesternDigit
  if digits.isEmpty then .error .malformed
  else
    let (places, rest) := fraction (t.drop digits.length)
    let (power, rest) := exponent rest
    if places.isEmpty ∧ power.isNone then do
      let n ← (Text.natural digits).mapError ReadFault.overlong
      .ok (.int (if negative then -n else n), rest)
    else
      let x := Binary64.ofDecimal negative (Text.digitsValue (digits ++ places))
        (power.getD 0 - (places.length : Int))
      .ok (.real x, rest)

/-- The words that stand for values. -/
def words : List (String × Json) :=
  [("null", .null), ("true", .bool true), ("false", .bool false), ("NaN", .real .nan),
    ("Infinity", .real (.infinite false)), ("-Infinity", .real (.infinite true))]

def readWord? (t : Text) : Option (Json × Text) :=
  words.findSome? fun entry => (Text.after? entry.1 t).map fun rest => (entry.2, rest)

/-- Reads a word or a number. -/
def readScalar (t : Text) : Except ReadFault (Json × Text) :=
  match readWord? t, t with
  | some found, _ => .ok found
  | none, .char '-' :: rest => readNumeral true rest
  | none, t => readNumeral false t

mutual

/-- Reads a value that starts with the first letter. -/
def readValue (t : Text) : Except ReadFault (Parsed Letter Json t.length) :=
  match t with
  | .char '"' :: rest =>
    match readString? rest with
    | none => .error .malformed
    | some p => .ok ((p.map Json.str).weaken (Nat.le_succ _))
  | .char '[' :: rest =>
    match shape : skipSpace rest with
    | .char ']' :: tail => .ok ⟨.arr [], tail, Nat.lt_succ_of_lt (shorter_of_skipSpace shape)⟩
    | _ => (readItems rest).map fun p => (p.map Json.arr).weaken (Nat.le_succ _)
  | .char '\x7b' :: rest =>
    match shape : skipSpace rest with
    | .char '\x7d' :: tail => .ok ⟨.obj [], tail, Nat.lt_succ_of_lt (shorter_of_skipSpace shape)⟩
    | _ => (readMembers rest).map fun p => (p.map Json.ofMembers).weaken (Nat.le_succ _)
  | t =>
    match readScalar t with
    | .error fault => .error fault
    | .ok (value, rest) =>
      if h : rest.length < t.length then .ok ⟨value, rest, h⟩ else .error .malformed
termination_by 2 * t.length

/-- Reads items up to the bracket that closes the array; at least one is due. -/
def readItems (t : Text) : Except ReadFault (Parsed Letter (List Json) t.length) :=
  have start := length_skipSpace_le t
  match readValue (skipSpace t) with
  | .error fault => .error fault
  | .ok item =>
    have itemEnds := item.shorter
    match shape : skipSpace item.rest with
    | .char ']' :: tail =>
      .ok ⟨[item.value], tail, by have := shorter_of_skipSpace shape; omega⟩
    | .char ',' :: tail =>
      have tailShorter : tail.length < t.length := by
        have := shorter_of_skipSpace shape
        omega
      (readItems tail).map fun p =>
        (p.map (item.value :: ·)).weaken (Nat.le_of_lt tailShorter)
    | _ => .error .malformed
termination_by 2 * t.length + 1

/-- Reads members up to the brace that closes the object; at least one is due. -/
def readMembers (t : Text) : Except ReadFault (Parsed Letter (List (Text × Json)) t.length) :=
  match opening : skipSpace t with
  | .char '"' :: named =>
    have start := shorter_of_skipSpace opening
    match readString? named with
    | none => .error .malformed
    | some name =>
      have nameEnds := name.shorter
      match colon : skipSpace name.rest with
      | .char ':' :: body =>
        have bodyShorter := shorter_of_skipSpace colon
        have bodyStart := length_skipSpace_le body
        match readValue (skipSpace body) with
        | .error fault => .error fault
        | .ok value =>
          have valueEnds := value.shorter
          match shape : skipSpace value.rest with
          | .char '\x7d' :: tail =>
            .ok ⟨[(name.value, value.value)], tail, by
              have := shorter_of_skipSpace shape
              omega⟩
          | .char ',' :: tail =>
            have tailShorter : tail.length < t.length := by
              have := shorter_of_skipSpace shape
              omega
            (readMembers tail).map fun p =>
              (p.map ((name.value, value.value) :: ·)).weaken (Nat.le_of_lt tailShorter)
          | _ => .error .malformed
      | _ => .error .malformed
  | _ => .error .malformed
termination_by 2 * t.length + 1

end

/-- Reads a text that holds one value. -/
def read (text : Text) : Except ReadFault Json := do
  let p ← readValue (skipSpace text)
  if (skipSpace p.rest).isEmpty then .ok p.value else .error .malformed

end SchemaHistory.Json
