import SchemaHistory.CommandLine.Files
import SchemaHistory.CommandLine.Invocation
import SchemaHistory.Declaration.Document
import SchemaHistory.Declaration.OfText
import SchemaHistory.Json.Reader
import SchemaHistory.Settings
import SchemaHistory.Text.Newlines
import SchemaHistory.Upgrade.Diff

/-! # Running a command

A command reads one file and responds with what is to be printed, or with a file that is to be
written first.  Results go to the standard output and messages to the standard error, except that
`check` prints the diagnostic of a bad schema as its result.  The exit code is 0 for success and 1
for a bad schema, an unreadable file or a breaking difference.  Arguments are judged before the
settings, and the settings before the file is read. -/
set_option autoImplicit false
namespace SchemaHistory.CommandLine

/-- Why the declarations of a file could not be had. -/
inductive LoadFault
  | file (fault : FileFault)
  | notJson
  | overlong (numeral : Text.Overlong)
  | document (fault : DocumentFault)
  | schema (rejection : Rejection)
  deriving Repr

structure Output where
  exit : Nat
  stdout : Text
  stderr : Text
  deriving DecidableEq, Repr

/-- How a run ends.  It is `aborted` by a document in which something without members was asked for
one: that fault is not turned into a message, and neither are faults of the settings. -/
inductive Ending
  | finished (output : Output)
  | stopped (stop : Stop)
  | badSettings (settings : List Setting)
  | badLevel (fault : Settings.LevelFault)
  | aborted
  deriving DecidableEq, Repr

/-- What a command comes to: an ending, or a file to write and then to announce. -/
inductive Response
  | ending (ending : Ending)
  | save (path content : Text)
  deriving DecidableEq, Repr

/-- What the reader of files says about a path. -/
abbrev ReadFile := Text → Except FileFault Text

def printed (text : Text) : Output := ⟨0, text ++ "\n", []⟩

def failed (message : Text) : Output := ⟨1, [], "error: " ++ message ++ "\n"⟩

def isDocumentName (path : Text) : Bool := (Text.ofString ".json").isSuffixOf path

/-- A file whose name ends in `.json` holds a declaration document, any other one schema text. -/
def load (read : ReadFile) (path : Text) : Except LoadFault (List Decl) :=
  match read path with
  | .error fault => .error (.file fault)
  | .ok content =>
    let text := Text.withUnifiedNewlines content
    if isDocumentName path then
      match Json.read text with
      | .error .malformed => .error .notJson
      | .error (.overlong numeral) => .error (.overlong numeral)
      | .ok value =>
        match declarationsOfDocument value with
        | .error fault => .error (.document fault)
        | .ok decls => .ok decls
    else
      match declarationsOfText text (some path) with
      | .error (.fault diagnostic) => .error (.schema (.diagnostic diagnostic))
      | .error (.overlong numeral) => .error (.overlong numeral)
      | .ok decls => .ok decls

def compileFile (limit : Int) (read : ReadFile) (path : Text) : Except LoadFault Compiled := do
  let decls ← load read path
  (Compiled.ofDeclarations limit decls).mapError LoadFault.schema

def LoadFault.ending : LoadFault → Ending
  | .file fault => .finished (failed fault.message)
  | .notJson => .finished (failed "the file holds no JSON value")
  | .overlong numeral => .finished (failed numeral.message)
  | .document .noMembers => .aborted
  | .document fault => .finished (failed fault.message)
  | .schema rejection => .finished (failed rejection.message)

/-- What `check` says about a file that cannot be compiled. -/
def LoadFault.checkEnding : LoadFault → Ending
  | .schema (.diagnostic diagnostic) => .finished ⟨1, diagnostic.text ++ "\n", []⟩
  | fault => fault.ending

def exportJson (c : Compiled) : Json :=
  .obj [("fingerprint", .str c.fingerprint), ("schema", c.json)]

def exportLayout : Json.Layout := .indentedBy 2

def exportText (c : Compiled) : Text := (exportJson c).sorted.write exportLayout

def compileResponse (output : Option Text) (c : Compiled) : Response :=
  match output with
  | none => .ending (.finished (printed (exportText c)))
  | some path =>
    if path.isEmpty then .ending (.finished (printed (exportText c)))
    else .save path (exportText c)

def versionLine (c : Compiled) (s : Snapshot) : Text :=
  "v" ++ Text.ofInt s.version ++ ": " ++
    Text.join ", " ((s.typeNames c.decls).map Json.shown) ++ "\n"

/-- Names are written in a row, so all of them have to be texts. -/
def canBeListed (c : Compiled) (s : Snapshot) : Bool := (s.typeNames c.decls).all Json.isText

/-- The lines of the versions up to the first one that cannot be listed. -/
def versionsOutput (c : Compiled) : Output :=
  let lines := ((c.snapshots.takeWhile (canBeListed c)).map (versionLine c)).flatten
  if c.snapshots.all (canBeListed c) then ⟨0, lines, []⟩
  else { failed Rejection.unusableName.message with stdout := lines }

def changeLines (c : Change) : Text :=
  "  " ++ c.headline ++ "\n          " ++ c.message ++ "\n"

def changesText (format : OutputFormat) (changes : List Change) : Text :=
  match format with
  | .json => (Json.arr (changes.map Change.json)).write exportLayout ++ "\n"
  | .text =>
    if changes.isEmpty then "No changes detected\n"
    else "Found " ++ Text.ofNat changes.length ++ " change(s):\n" ++
      (changes.map changeLines).flatten

/-- Why there is nothing to say about two versions. -/
inductive DiffFault
  | unnamed (form : OptionForm)
  | upgrade (fault : Upgrade.Fault)
  deriving Repr

def DiffFault.message : DiffFault → Text
  | .unnamed form => "no version is given by " ++ form.name
  | .upgrade fault => fault.message

/-- The changes between two versions.  The old version has to be named and has to exist before the
new one is looked for. -/
def changesBetween (c : Compiled) (old new : Option Int) : Except DiffFault (List Change) := do
  let some old := old | .error (.unnamed oldOption)
  let _ ← (Upgrade.side c old).mapError DiffFault.upgrade
  let some new := new | .error (.unnamed newOption)
  (Upgrade.diff c old new).mapError DiffFault.upgrade

def diffOutput (format : OutputFormat) (old new : Option Int) (c : Compiled) : Output :=
  match changesBetween c old new with
  | .error fault => failed fault.message
  | .ok changes =>
    ⟨if changes.any Change.isBreaking then 1 else 0, changesText format changes, []⟩

def checkOutput (c : Compiled) : Output :=
  printed ("Schema is valid (" ++ Text.ofNat c.versions ++ " versions)")

def Command.file : Command → Text
  | .compile file _ => file
  | .check file => file
  | .versions file => file
  | .diff file _ _ _ => file

/-- The response of a command once its file is compiled. -/
def Command.response (c : Compiled) : Command → Response
  | .compile _ output => compileResponse output c
  | .check _ => .ending (.finished (checkOutput c))
  | .versions _ => .ending (.finished (versionsOutput c))
  | .diff _ old new format => .ending (.finished (diffOutput format old new c))

/-- The response of a command whose file cannot be compiled. -/
def Command.faultEnding (fault : LoadFault) : Command → Ending
  | .check _ => fault.checkEnding
  | _ => fault.ending

def respondTo (limit : Int) (read : ReadFile) (command : Command) : Response :=
  match compileFile limit read command.file with
  | .error fault => .ending (command.faultEnding fault)
  | .ok c => command.response c

/-- The highest version that headers may mention; the command line is not bound by the range of the
setting. -/
def limitOf (settings : Settings) (invocation : Invocation) : Int :=
  invocation.maxVersion.getD settings.maxVersion

def respond (env : Settings.Environment) (args : List Text) (read : ReadFile) : Response :=
  match readArguments args with
  | .error stop => .ending (.stopped stop)
  | .ok invocation =>
    match Settings.make [] env with
    | .error settings => .ending (.badSettings settings)
    | .ok settings =>
      match settings.level with
      | .error fault => .ending (.badLevel fault)
      | .ok _ => respondTo (limitOf settings invocation) read invocation.command

def savedOutput (path : Text) : Output := ⟨0, [], "Schema exported to " ++ path ++ "\n"⟩

/-- A text that has gone to a stream of the run stands in front of what else is printed there. -/
def Output.behind (output : Output) (content : Text) : Option Stream → Output
  | none => output
  | some .output => { output with stdout := content ++ output.stdout }
  | some .error => { output with stderr := content ++ output.stderr }

/-- Carries a response out on the files of a machine. -/
def perform (machine : Machine) (files : Files) : Response → Ending × Files
  | .ending ending => (ending, files)
  | .save path content =>
    match Files.write machine path content files with
    | (.error fault, after) => (.finished (failed fault.message), after)
    | (.ok stream, after) => (.finished ((savedOutput path).behind content stream), after)

def readerOf (machine : Machine) (files : Files) : ReadFile := fun path =>
  Files.read machine path files

/-- A whole run on the given files. -/
def run (machine : Machine) (env : Settings.Environment) (args : List Text) (files : Files) :
    Ending × Files :=
  perform machine files (respond env args (readerOf machine files))

end SchemaHistory.CommandLine
