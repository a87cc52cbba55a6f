import SchemaHistory.Table
import SchemaHistory.Text.Bytes

/-! # Machines

What a file system holds besides plain files, and what it decides.  A place is found by the steps
that lead to it from the root, and the names of the steps are bytes.  Some directories always stand,
a device keeps nothing of what is written to it, and a symbolic link leads on to another path.
Opening a place may be refused, and a write to a plain file may fail after a part of it.

The standard machine has no links, refuses nothing and loses nothing.  Its working directory stands
in the directory for temporary files under a name that nobody knows: its step is empty, which no
path can spell. -/
set_option autoImplicit false
namespace SchemaHistory.CommandLine

abbrev Step := List UInt8

abbrev Steps := List Step

def stepOf (name : String) : Step := (Text.ofString name).bytes

/-- What the operating system says about a call that fails. -/
structure Errno where
  number : Nat
  reason : Text
  deriving DecidableEq, Repr

def Errno.message (e : Errno) : Text := "[Errno " ++ Text.ofNat e.number ++ "] " ++ e.reason

inductive Stream
  | output
  | error
  deriving DecidableEq, Repr

inductive Access
  | reading
  | writing
  deriving DecidableEq, Repr

/-- A device yields a text or fails, takes a text or fails, and may be one of the streams of the run
that writes to it. -/
structure Device where
  yields : Except Errno Text
  failure? : Text → Option Errno
  stream : Option Stream

/-- Takes everything and is always empty. -/
def Device.null : Device := ⟨.ok [], fun _ => none, none⟩

/-- Takes nothing.  What it yields has no end, so no memory can hold it. -/
def Device.full : Device :=
  ⟨.error ⟨12, "Cannot allocate memory"⟩, fun _ => some ⟨28, "No space left on device"⟩, none⟩

structure Machine where
  current : Steps
  standing : List Steps
  /-- The working directory is there. -/
  stands : current ∈ standing
  /-- A directory that is always there stands in such a directory. -/
  above : ∀ place ∈ standing, place.dropLast ∈ standing
  devices : List (Steps × Device)
  /-- The path that a link leads to starts at the root or in the directory of the link. -/
  links : List (Steps × Text)
  refusal? : Access → Steps → Option Errno
  /-- What is kept of a text that cannot be written as a whole, and why it cannot. -/
  loss? : Steps → Text → Option (Text × Errno)

namespace Machine

def device? (machine : Machine) (place : Steps) : Option Device := Table.find? place machine.devices

def link? (machine : Machine) (place : Steps) : Option Text := Table.find? place machine.links

def standardDirectories : List Steps :=
  [stepOf "tmp", []] ::
    [[], ["tmp"], ["bin"], ["boot"], ["dev"], ["etc"], ["home"], ["lib"], ["lib64"], ["media"],
      ["mnt"], ["opt"], ["proc"], ["root"], ["run"], ["sbin"], ["srv"], ["sys"], ["usr"], ["var"],
      ["dev", "shm"], ["usr", "bin"], ["usr", "include"], ["usr", "lib"], ["usr", "local"],
      ["usr", "sbin"], ["usr", "share"], ["usr", "src"], ["var", "cache"], ["var", "lib"],
      ["var", "log"], ["var", "tmp"]].map (List.map stepOf)

def standard : Machine where
  current := [stepOf "tmp", []]
  standing := standardDirectories
  stands := List.mem_cons_self
  above := by decide
  devices := [([stepOf "dev", stepOf "null"], .null), ([stepOf "dev", stepOf "full"], .full)]
  links := []
  refusal? _ _ := none
  loss? _ _ := none

end Machine
end SchemaHistory.CommandLine
