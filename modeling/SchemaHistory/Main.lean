import SchemaHistory.CommandLine.Run

/-! # The program

Reads the file that the arguments name, prints the response and exits with its code. -/
set_option autoImplicit false
namespace SchemaHistory.Program
open CommandLine

/-- The settings that the environment holds, under the names in capitals. -/
def environment : IO Settings.Environment := do
  let names := ["VERSCHEMA_MAX_VERSION", "VERSCHEMA_LOG_LEVEL", "VERSCHEMA_LOG_FORMAT"]
  let found ← names.mapM fun name => do
    return (← IO.getEnv name).map fun value => (Text.ofString name, Text.ofString value)
  return found.filterMap id

/-- The operating system's numbers of two faults that share their class with another one. -/
def directoryCode : UInt32 := 21

def badArgumentCode : UInt32 := 22

def faultOf (path : Text) : IO.Error → FileFault
  | .inappropriateType _ code _ =>
    if code = directoryCode then .isDirectory path else .notDirectory path
  | .invalidArgument _ code _ =>
    if code = badArgumentCode then .nullCharacter else .nameTooLong path
  | _ => .notFound path

def readFile (path : Text) : IO (Except FileFault Text) := do
  try
    return .ok (Text.ofString (← IO.FS.readFile path.string))
  catch fault =>
    return .error (faultOf path fault)

def writeFile (path content : Text) : IO Ending := do
  try
    IO.FS.writeFile path.string content.string
    return .finished (savedOutput path)
  catch fault =>
    return .finished (failed (faultOf path fault).message)

def usage : String := "usage: [--max-version N] compile|check|versions|diff FILE"

def finish : Ending → IO UInt32
  | .finished output => do
    IO.print output.stdout.string
    IO.eprint output.stderr.string
    return UInt32.ofNat output.exit
  | .stopped .usage => do
    IO.eprintln usage
    return 2
  | .stopped .help => do
    IO.println usage
    return 0
  | .badSettings settings => do
    IO.eprintln ("bad settings: " ++ ", ".intercalate (settings.map Setting.name))
    return 1
  | .badLevel fault => do
    IO.eprintln fault.message.string
    return 1
  | .aborted => do
    IO.eprintln "the declaration document has the wrong shape"
    return 1

def execute (args : List String) : IO UInt32 := do
  let env ← environment
  let args := args.map Text.ofString
  let content ← match readArguments args with
    | .error _ => pure (.ok [])
    | .ok invocation => readFile invocation.command.file
  match respond env args fun _ => content with
  | .ending ending => finish ending
  | .save path text => writeFile path text >>= finish

end SchemaHistory.Program

def main (args : List String) : IO UInt32 := SchemaHistory.Program.execute args
