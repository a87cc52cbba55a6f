import SchemaHistory.Text.Numeral

/-! # Arguments of a command line

An argument is a word, an option, or the two dashes behind which everything is a word.  A long
option may be cut short as long as only one option starts that way, and takes its value from behind
an equals sign or from the next argument; a short one may also have its value attached.  A short
flag, which takes no value, may have other short options attached, as if each had a dash of its own.
What looks like a negative number is a word, and so is an unknown option with a space in it. -/
set_option autoImplicit false
namespace SchemaHistory.CommandLine

/-- An option by its spellings; the first one names it. -/
structure OptionForm where
  name : String
  others : List String
  takesValue : Bool
  deriving DecidableEq, Repr

/-- What an argument is.  The last option of a `bundle` of short options takes the next argument as
its value, behind flags that are already settled. -/
inductive Argument
  | separator
  | word (text : Text)
  | option (form : OptionForm) (value : Option Text)
  | bundle (flag last : OptionForm)
  | unknown
  deriving DecidableEq, Repr

/-- Why a command line is not carried out: it breaks the rules, or only asks for help. -/
inductive Stop
  | usage
  | help
  deriving DecidableEq, Repr

def helpOption : OptionForm := ⟨"--help", ["-h"], false⟩

/-- Every spelling with the option that it belongs to. -/
def spellings (forms : List OptionForm) : List (Text × OptionForm) :=
  forms.flatMap fun f => (f.name :: f.others).map fun s => (Text.ofString s, f)

def spelled? (forms : List OptionForm) (arg : Text) : Option OptionForm :=
  ((spellings forms).find? fun s => s.1 == arg).map Prod.snd

def dash : Letter := .char '-'

def twoDashes : Text := [dash, dash]

def isEquals (l : Letter) : Bool := decide (l = .char '=')

def afterEquals (arg : Text) : Option Text :=
  match arg.dropWhile fun l => !isEquals l with
  | _ :: value => some value
  | [] => none

def beforeEquals (arg : Text) : Text := arg.takeWhile fun l => !isEquals l

/-- A short flag with letters attached to it.  They are short options in a row, up to one that takes
the letters behind it as its value.  A letter that is no option is no value of a flag either. -/
def bundled (forms : List OptionForm) (flag : OptionForm) : Text → Argument
  | [] => .option flag none
  | l :: rest =>
    match spelled? forms [dash, l] with
    | none => .option flag (some (l :: rest))
    | some form =>
      if !form.takesValue then bundled forms form rest
      else if rest.isEmpty then .bundle flag form
      else .option flag none

/-- An option in the given spelling, with a value right behind it. -/
def withValue (forms : List OptionForm) (form : OptionForm) (spelling value : Text) : Argument :=
  if form.takesValue || value.isEmpty || spelling[1]? == some dash then .option form (some value)
  else bundled forms form value

/-- All readings of an argument as an option that is cut short or has something attached. -/
def readings (forms : List OptionForm) (arg : Text) : List Argument :=
  (spellings forms).filterMap fun s =>
    if arg[1]? == some dash then
      if (beforeEquals arg).isPrefixOf s.1 then some (.option s.2 (afterEquals arg)) else none
    else if s.1 == arg.take 2 then some (withValue forms s.2 s.1 (arg.drop 2))
    else none

/-! ## Negative numbers -/

def isDigit (l : Letter) : Bool := l.satisfies fun c => (Text.digit? c).isSome

def areDigits (t : Text) : Bool := !t.isEmpty && t.all isDigit

def withoutLineFeed (t : Text) : Text :=
  if t.getLast? = some (.char '\n') then t.dropLast else t

/-- Digits, with a point in front of or between them if there is one. -/
def isPlainNumber (t : Text) : Bool :=
  areDigits t ||
    match t.dropWhile isDigit with
    | .char '.' :: places => areDigits places
    | _ => false

/-- A plain number behind a dash; it may stand in a line of its own. -/
def isNegativeNumber (arg : Text) : Bool :=
  arg.head? == some dash && isPlainNumber (withoutLineFeed arg.tail)

/-! ## Whole command lines -/

def isOptionLike (arg : Text) : Bool := arg.head? == some dash && decide (1 < arg.length)

def classify (forms : List OptionForm) (arg : Text) : Except Stop Argument :=
  if !isOptionLike arg then .ok (.word arg)
  else match spelled? forms arg with
    | some form => .ok (.option form none)
    | none =>
      match afterEquals arg, spelled? forms (beforeEquals arg) with
      | some value, some form => .ok (withValue forms form (beforeEquals arg) value)
      | _, _ =>
        match readings forms arg with
        | [reading] => .ok reading
        | _ :: _ :: _ => .error .usage
        | [] =>
          if isNegativeNumber arg || arg.contains (.char ' ') then .ok (.word arg)
          else .ok .unknown

/-- The arguments as they were written, each with what it is. -/
def classifyAll (forms : List OptionForm) : List Text → Except Stop (List (Text × Argument))
  | [] => .ok []
  | arg :: rest =>
    if arg = twoDashes then
      .ok ((arg, .separator) :: rest.map fun arg => (arg, .word arg))
    else do
      let first ← classify forms arg
      let others ← classifyAll forms rest
      .ok ((arg, first) :: others)

end SchemaHistory.CommandLine
