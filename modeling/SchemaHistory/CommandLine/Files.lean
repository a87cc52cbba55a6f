import SchemaHistory.CommandLine.Machine
import SchemaHistory.Text.Quoted

/-! # Files

The plain files of a machine are a table of places with what stands there.  A directory is there if
it always is, or as soon as a file is in it.  The names in a path are bytes, so two texts with the
same bytes are one path; a fault shows the path as it was given.

A path is walked step by step from the root or from the working directory.  A slash at its end is a
step with an empty name, which has to find a directory.  A link puts its own steps in front of those
that are left, and the steps after the fortieth link are not walked any more.  A file is opened
before anything is written to it, and then its old content is gone, whatever becomes of the new. -/
set_option autoImplicit false
namespace SchemaHistory.CommandLine

abbrev Files := List (Steps × Text)

inductive FileFault
  | notFound (path : Text)
  | notDirectory (path : Text)
  | isDirectory (path : Text)
  | nameTooLong (path : Text)
  | tooManyLinks (path : Text)
  | refused (errno : Errno) (path : Text)
  | broken (errno : Errno)
  | nullCharacter
  | surrogates (first : Letter) (index count : Nat)
  deriving DecidableEq, Repr

def FileFault.message : FileFault → Text
  | .notFound path => "[Errno 2] No such file or directory: " ++ Text.quoted path
  | .notDirectory path => "[Errno 20] Not a directory: " ++ Text.quoted path
  | .isDirectory path => "[Errno 21] Is a directory: " ++ Text.quoted path
  | .nameTooLong path => "[Errno 36] File name too long: " ++ Text.quoted path
  | .tooManyLinks path => "[Errno 40] Too many levels of symbolic links: " ++ Text.quoted path
  | .refused errno path => errno.message ++ ": " ++ Text.quoted path
  | .broken errno => errno.message
  | .nullCharacter => "embedded null byte"
  | .surrogates first index count =>
    if count = 1 then
      "'utf-8' codec can't encode character " ++ Text.quoted [first] ++ " in position " ++
        Text.ofNat index ++ ": surrogates not allowed"
    else
      "'utf-8' codec can't encode characters in position " ++ Text.ofNat index ++ "-" ++
        Text.ofNat (index + count - 1) ++ ": surrogates not allowed"

namespace Files

/-! ## Paths -/

def slash : UInt8 := 0x2F

/-- Cuts at every slash. -/
def cutAtSlashes (current : Step) : List UInt8 → Steps
  | [] => [current.reverse]
  | b :: rest =>
    if b = slash then current.reverse :: cutAtSlashes [] rest
    else cutAtSlashes (b :: current) rest

/-- The directories and the name that a path consists of. -/
def names (path : Text) : Steps := (cutAtSlashes [] path.bytes).filter fun step => !step.isEmpty

def endsInSlash (path : Text) : Bool := path.getLast? == some (.char '/')

def route (path : Text) : Steps := names path ++ if endsInSlash path then [[]] else []

def startsAtRoot (path : Text) : Bool := path.head? == some (.char '/')

def here : Step := stepOf "."

def above : Step := stepOf ".."

def isSurrogate : Letter → Bool
  | .char _ => false
  | .surrogate _ => true

def surrogateFault? (index : Nat) : Text → Option FileFault
  | [] => none
  | l :: rest =>
    if isSurrogate l && !l.standsForByte then
      some (.surrogates l index (1 + (rest.takeWhile isSurrogate).length))
    else surrogateFault? (index + 1) rest

/-- A path must have bytes, not be empty and not be longer than the system takes. -/
def checkPath (path : Text) : Except FileFault Unit :=
  match surrogateFault? 0 path with
  | some fault => .error fault
  | none =>
    if path.contains (.char '\x00') then .error .nullCharacter
    else if path.isEmpty then .error (.notFound path)
    else if 4095 < path.bytes.length then .error (.nameTooLong path)
    else .ok ()

section
variable (machine : Machine)

/-! ## Directories -/

def isDirectory (place : Steps) (files : Files) : Bool :=
  machine.standing.contains place ||
    files.any fun f => place.isPrefixOf f.1 && decide (place ≠ f.1)

def content? (place : Steps) (files : Files) : Option Text := Table.find? place files

def isThere (place : Steps) (files : Files) : Bool :=
  isDirectory machine place files || (machine.device? place).isSome ||
    (content? place files).isSome

/-! ## Following a path -/

/-- Where a walk comes to an end: at a place, or at a link in a directory, with the steps that are
left behind it. -/
inductive Stride
  | arrived (place : Steps)
  | linked (directory : Steps) (target : Text) (rest : Steps)
  deriving DecidableEq, Repr

/-- The step stays where it is. -/
def isStay (step : Step) : Bool := step.isEmpty || step == here

/-- No name of a file comes any more: the step is none, or only a slash is behind it. -/
def isNameless (step : Step) (rest : Steps) : Bool :=
  rest.all List.isEmpty && (!rest.isEmpty || isStay step || step == above)

section
variable (creating : Bool) (path : Text) (files : Files)

/-- Walks on from a place up to the next link.  If a file may be created, the last step may lead to
nothing, but it must be a name. -/
def stride (place : Steps) : Steps → Except FileFault Stride
  | [] => .ok (.arrived place)
  | step :: rest =>
    if !isDirectory machine place files then .error (.notDirectory path)
    else if creating && isNameless step rest then .error (.isDirectory path)
    else if isStay step then stride place rest
    else if step = above then stride place.dropLast rest
    else if 255 < step.length then .error (.nameTooLong path)
    else match machine.link? (place ++ [step]),
        isThere machine (place ++ [step]) files || creating && rest.isEmpty with
      | some target, _ => .ok (.linked place target rest)
      | none, true => stride (place ++ [step]) rest
      | none, false => .error (.notFound path)

/-- Walks on from a place through at most the given number of links. -/
def follow (links : Nat) (place steps : Steps) : Except FileFault Steps := do
  match ← stride machine creating path files place steps with
  | .arrived place => .ok place
  | .linked directory target rest =>
    match links with
    | 0 => .error (.tooManyLinks path)
    | links + 1 =>
      follow links (if startsAtRoot target then [] else directory) (route target ++ rest)

/-- The place that a path leads to. -/
def resolve : Except FileFault Steps := do
  checkPath path
  follow machine creating path files 40 (if startsAtRoot path then [] else machine.current)
    (route path)

end

/-! ## Reading and writing -/

def read (path : Text) (files : Files) : Except FileFault Text := do
  let place ← resolve machine false path files
  match machine.refusal? .reading place with
  | some errno => .error (.refused errno path)
  | none =>
    if isDirectory machine place files then .error (.isDirectory path)
    else match machine.device? place with
      | some device => device.yields.mapError FileFault.broken
      | none => match content? place files with
        | some content => .ok content
        | none => .error (.notFound path)

/-- The place of the file that a path names; the file may be new. -/
def destination (path : Text) (files : Files) : Except FileFault Steps := do
  let place ← resolve machine true path files
  if isDirectory machine place files then .error (.isDirectory path)
  else match machine.refusal? .writing place with
    | some errno => .error (.refused errno path)
    | none => .ok place

/-- Creates a file, or replaces the content of one, or hands the text to a device, which may be one
of the streams of the run. -/
def write (path content : Text) (files : Files) : Except FileFault (Option Stream) × Files :=
  match destination machine path files with
  | .error fault => (.error fault, files)
  | .ok place =>
    match machine.device? place with
    | some device =>
      match device.failure? content with
      | some errno => (.error (.broken errno), files)
      | none => (.ok device.stream, files)
    | none =>
      match machine.loss? place content with
      | some (kept, errno) => (.error (.broken errno), Table.insert place kept files)
      | none => (.ok none, Table.insert place content files)

/-- The files with the given names below the working directory. -/
def ofNames (named : List (Text × Text)) : Files :=
  Table.ofList (named.map fun f => (machine.current ++ names f.1, f.2))

/-- The files below the working directory by their names. -/
def named (files : Files) : List (Text × Text) :=
  files.filterMap fun f =>
    if machine.current.isPrefixOf f.1 then
      some (Text.join "/" ((f.1.drop machine.current.length).map Text.ofBytes), f.2)
    else none

end
end Files
end SchemaHistory.CommandLine
