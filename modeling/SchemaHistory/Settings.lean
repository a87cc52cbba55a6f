import SchemaHistory.Json.Basic
import SchemaHistory.Table
import SchemaHistory.Text.Numeral

/-! # Settings

A setting is taken from the arguments, else from the environment variable that is named after it,
else it has its default.  Variable names count without regard to case, and of two
spellings of one name the later wins.  All settings that fail are reported, in their fixed order.
The level of the log is kept as it was written, and what it stands for is looked up later. -/
set_option autoImplicit false
namespace SchemaHistory

inductive LogFormat
  | text
  | json
  deriving DecidableEq, Repr

def LogFormat.name : LogFormat → String
  | .text => "text"
  | .json => "json"

structure Settings where
  maxVersion : Int
  logLevel : Text
  logFormat : LogFormat
  deriving DecidableEq, Repr

inductive Setting
  | maxVersion
  | logLevel
  | logFormat
  deriving DecidableEq, Repr

def Setting.name : Setting → String
  | .maxVersion => "max_version"
  | .logLevel => "log_level"
  | .logFormat => "log_format"

namespace Settings

/-- Environment variables in the order in which they were set. -/
abbrev Environment := List (Text × Text)

def variableName (s : Setting) : Text := "verschema_" ++ s.name

def lowerLetter : Letter → Letter
  | .char c => .char c.toLower
  | other => other

def lowerCase (t : Text) : Text := t.map lowerLetter

def fromEnvironment? (s : Setting) (env : Environment) : Option Text :=
  Table.find? (variableName s) (Table.ofList (env.map fun v => (lowerCase v.1, v.2)))

/-- The value that was given for a setting, an argument before a variable. -/
def given? (s : Setting) (args : List (Text × Json)) (env : Environment) : Option Json :=
  match Json.find? s.name args with
  | some value => some value
  | none => (fromEnvironment? s env).map Json.str

/-! ## The highest version -/

def withoutPlus : Text → Text
  | .char '+' :: rest => rest
  | t => t

/-- Zeros in front, and underscores among them, count for nothing. -/
def significant : Text → Text
  | .char '0' :: rest => rest.dropWhile fun l => decide (l = .char '0') || decide (l = .char '_')
  | t => t

/-- Places behind a point do not make a numeral a fraction if there are some and all are zeros. -/
def withoutPlaces? (t : Text) : Option Text :=
  match t.dropWhile fun l => decide (l ≠ .char '.') with
  | [] => some t
  | _ :: places =>
    if !places.isEmpty && places.all fun l => decide (l = .char '0') then
      some (t.takeWhile fun l => decide (l ≠ .char '.'))
    else none

def westernDigit? (c : Char) : Option Nat :=
  if c.isDigit then some (c.toNat - '0'.toNat) else none

/-- The number above zero that a numeral denotes. -/
def positive? (t : Text) : Option Int := do
  let whole ← withoutPlaces? (significant (withoutPlus (Text.trimmed t)))
  let digits ← Text.groupedDigits? westernDigit? true whole
  (Text.converted digits).toOption

/-- Numbers with a fraction or an exponent are taken as whole ones only below this bound. -/
def realBound : Int := 9223372036854775808

def int? : Json → Option Int
  | .int n => some n
  | .bool b => some (if b then 1 else 0)
  | .real x => x.whole?.filter fun n => decide (n < realBound)
  | .str s => positive? s
  | _ => none

def maxVersion? (value : Option Json) : Option Int :=
  match value with
  | none => some 1024
  | some value => (int? value).filter fun n => decide (1 ≤ n)

/-! ## The log -/

def logLevel? (value : Option Json) : Option Text :=
  match value with
  | none => some "INFO"
  | some (.str s) => some s
  | some _ => none

def logFormat? (value : Option Json) : Option LogFormat :=
  match value with
  | none => some .text
  | some (.str s) =>
    if lowerCase s = "text" then some .text
    else if lowerCase s = "json" then some .json
    else none
  | some _ => none

/-- The settings, or the ones that failed. -/
def make (args : List (Text × Json)) (env : Environment) : Except (List Setting) Settings :=
  let maxVersion := maxVersion? (given? .maxVersion args env)
  let logLevel := logLevel? (given? .logLevel args env)
  let logFormat := logFormat? (given? .logFormat args env)
  match maxVersion, logLevel, logFormat with
  | some v, some l, some f => .ok ⟨v, l, f⟩
  | v, l, f =>
    .error ((if v.isNone then [Setting.maxVersion] else [])
      ++ (if l.isNone then [Setting.logLevel] else [])
      ++ (if f.isNone then [Setting.logFormat] else []))

/-- The log knows two more names in capitals, of its pattern and of the table of its styles.  They
are no levels, so it refuses them. -/
inductive LevelFault
  | pattern
  | styles
  deriving DecidableEq, Repr

def LevelFault.message : LevelFault → Text
  | .pattern => "Unknown level: '%(levelname)s:%(name)s:%(message)s'"
  | .styles => "Level not an integer or a valid string"

/-- Upper case as far as the names of levels need it: four letters outside ASCII have an upper case
inside. -/
def upperLetter : Letter → Text
  | .char c =>
    if c = 'ſ' then "S"
    else if c = 'ı' then "I"
    else if c = 'ﬅ' ∨ c = 'ﬆ' then "ST"
    else [.char c.toUpper]
  | other => [other]

def levels : List (Text × Except LevelFault Nat) :=
  [("NOTSET", .ok 0), ("DEBUG", .ok 10), ("INFO", .ok 20), ("WARN", .ok 30), ("WARNING", .ok 30),
    ("ERROR", .ok 40), ("CRITICAL", .ok 50), ("FATAL", .ok 50), ("BASIC_FORMAT", .error .pattern),
    ("_STYLES", .error .styles)]

/-- The number of the level; an unknown level counts as `INFO`. -/
def level (s : Settings) : Except LevelFault Nat :=
  (Table.find? (s.logLevel.flatMap upperLetter) levels).getD (.ok 20)

end Settings
end SchemaHistory
