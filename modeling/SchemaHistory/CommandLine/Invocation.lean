import SchemaHistory.CommandLine.Arguments

/-! # Invocations

The commands of the program and how a list of arguments asks for one of them.  Options that belong
to the whole program come before the name of the command; every command takes one file, before,
between or behind its own options.  Of an option that is given twice the last value counts.  The two
dashes are no value: an option that has them attached is given without one.  That is enough where an
option has to be given, and elsewhere it is as if the option were left out. -/
set_option autoImplicit false
namespace SchemaHistory.CommandLine

inductive OutputFormat
  | text
  | json
  deriving DecidableEq, Repr

inductive Command
  | compile (file : Text) (output : Option Text)
  | check (file : Text)
  | versions (file : Text)
  | diff (file : Text) (old new : Option Int) (format : OutputFormat)
  deriving DecidableEq, Repr

structure Invocation where
  maxVersion : Option Int
  command : Command
  deriving DecidableEq, Repr

/-- What has been read of the arguments of a command: its file and the options by name, the last
one first, each with its value if it has one. -/
structure Collected where
  file : Option Text
  values : List (String × Option Text)
  leftOver : Bool
  deriving DecidableEq, Repr

def maxVersionOption : OptionForm := ⟨"--max-version", [], true⟩
def outputOption : OptionForm := ⟨"--output", ["-o"], true⟩
def oldOption : OptionForm := ⟨"--old", [], true⟩
def newOption : OptionForm := ⟨"--new", [], true⟩
def formatOption : OptionForm := ⟨"--format", [], true⟩

/-- Whether an option accepts the value that it was given. -/
def accepts (form : OptionForm) (value : Text) : Bool :=
  if form.name = formatOption.name then decide (value = "text") || decide (value = "json")
  else if form.name = outputOption.name then true
  else (Text.int? value).isSome

/-- The value of an option, if it is one that the option accepts. -/
def checkedValue (form : OptionForm) (value : Text) : Except Stop (Option Text) :=
  if value = twoDashes then .ok none
  else if accepts form value then .ok (some value)
  else .error .usage

def takeValue (form : OptionForm) (value : Text) (r : Collected) : Except Stop Collected := do
  let value ← checkedValue form value
  .ok { r with values := (form.name, value) :: r.values }

/-- The first word is the file; there is no use for a second one. -/
def addWord (text : Text) (r : Collected) : Collected :=
  match r.file with
  | none => { r with file := some text }
  | some _ => { r with leftOver := true }

/-- Reads the arguments of a command one after the other. -/
def readAll (r : Collected) : List Argument → Except Stop Collected
  | [] => .ok r
  | .unknown :: rest => readAll { r with leftOver := true } rest
  | .option form (some value) :: rest =>
    if form.takesValue then do
      let r ← takeValue form value r
      readAll r rest
    else .error .usage
  | .option form none :: .word value :: rest =>
    if form.takesValue then do
      let r ← takeValue form value r
      readAll r rest
    else .error .help
  | .option form none :: _ => .error (if form.takesValue then .usage else .help)
  | .bundle _ _ :: .word _ :: _ => .error .help
  | .bundle _ _ :: _ => .error .usage
  | .word text :: .separator :: rest => readAll (addWord text r) rest
  | .word text :: rest => readAll (addWord text r) rest
  | .separator :: .word text :: rest => readAll (addWord text r) rest
  | .separator :: rest => readAll { r with leftOver := true } rest

def Collected.value? (r : Collected) (form : OptionForm) : Option Text :=
  (r.values.lookup form.name).join

/-- The whole number of an option that has to be given, although perhaps without a value. -/
def Collected.int? (r : Collected) (form : OptionForm) : Option (Option Int) :=
  (r.values.lookup form.name).map fun value => value.bind Text.int?

/-- The options of a command, and how it is put together; a part that is missing is a breach. -/
structure CommandForm where
  options : List OptionForm
  build : (file : Text) → Collected → Option Command

def outputFormat (r : Collected) : OutputFormat :=
  if r.value? formatOption = some (Text.ofString "json") then .json else .text

def commandForms : List (Text × CommandForm) :=
  [("compile", ⟨[helpOption, outputOption],
      fun file r => some (.compile file (r.value? outputOption))⟩),
    ("check", ⟨[helpOption], fun file _ => some (.check file)⟩),
    ("versions", ⟨[helpOption], fun file _ => some (.versions file)⟩),
    ("diff", ⟨[helpOption, oldOption, newOption, formatOption], fun file r => do
      let old ← r.int? oldOption
      let new ← r.int? newOption
      some (.diff file old new (outputFormat r))⟩)]

def readCommand (name : Text) (args : List Text) : Except Stop Command :=
  match commandForms.lookup name with
  | none => .error .usage
  | some form => do
    let arguments ← classifyAll form.options args
    let r ← readAll ⟨none, [], false⟩ (arguments.map Prod.snd)
    match r.file.bind fun file => form.build file r with
    | none => .error .usage
    | some command => if r.leftOver then .error .usage else .ok command

/-- Reads the options of the program up to the name of a command, which takes the rest. -/
def readProgram (leftOver : Bool) (maxVersion : Option Int) :
    List (Text × Argument) → Except Stop Invocation
  | [] => .error .usage
  | (_, .separator) :: _ => .error .usage
  | (_, .unknown) :: rest => readProgram true maxVersion rest
  | (name, .word _) :: rest => do
    let command ← readCommand name (rest.map Prod.fst)
    if leftOver then .error .usage else .ok ⟨maxVersion, command⟩
  | (_, .option form (some value)) :: rest =>
    if form.takesValue then do
      let value ← checkedValue form value
      readProgram leftOver (value.bind Text.int?) rest
    else .error .usage
  | (_, .option form none) :: (_, .word value) :: rest =>
    if form.takesValue then do
      let value ← checkedValue form value
      readProgram leftOver (value.bind Text.int?) rest
    else .error .help
  | (_, .option form none) :: _ => .error (if form.takesValue then .usage else .help)
  | (_, .bundle _ _) :: (_, .word _) :: _ => .error .help
  | (_, .bundle _ _) :: _ => .error .usage

def readArguments (args : List Text) : Except Stop Invocation := do
  let arguments ← classifyAll [helpOption, maxVersionOption] args
  readProgram false none arguments

end SchemaHistory.CommandLine
