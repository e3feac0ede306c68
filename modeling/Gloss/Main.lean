import Gloss.CommandLine

/-!
# The program

The program runs a command line on the files of the machine. Files are opened
by their paths; a command that needs the names in a directory fails, because
this layer has no way to list them.
-/

namespace Gloss

/-- The number of a failure without the sign that some operations give it. -/
def unsignedCode (code : UInt32) : UInt32 := min code (0 - code)

/-- What a failed operation means. -/
def ReadFault.ofError : IO.Error → ReadFault
  | .noFileOrDirectory .. => .missing
  | .noSuchThing .. => .missing
  | .permissionDenied .. => .denied
  | .inappropriateType _ code _ => if unsignedCode code = 20 then .notDirectory else .isDirectory
  | .invalidArgument _ code details =>
    if unsignedCode code = 36 then .nameTooLong else .failed details
  | error => .failed (toString error)

/-- Runs an operation to its result or its fault. -/
def attempt {α : Type} (action : IO α) : IO (Except ReadFault α) := do
  try
    return .ok (← action)
  catch error => return .error (.ofError error)

/-- Reads a stream to its end. -/
partial def readToEnd (stream : IO.FS.Stream) (bytes : ByteArray) : IO ByteArray := do
  let more ← stream.read 65536
  if more.isEmpty then return bytes
  readToEnd stream (bytes ++ more)

/-- What stands at a path. Reading from a directory fails in its own way. -/
def kindOnMachine (path : String) : IO (Option FileKind) := do
  match ← attempt (do (← IO.FS.Handle.mk path .read).read 1) with
  | .ok _ => return some .file
  | .error .isDirectory => return some .directory
  | .error _ => return none

/-- The files of the machine. -/
def machine : Disk IO where
  kind? := kindOnMachine
  names := fun directory => throw (IO.userError s!"Cannot list the directory {directory}")
  read := fun path => attempt (IO.FS.readBinFile path)
  stdin := do attempt (readToEnd (← IO.getStdin) .empty)
  depth := 4096

/-- The ink for the output of the program. -/
def chooseInk : IO Ink := do
  return .ofEnvironment (← IO.getEnv "CLICOLOR") (← IO.getEnv "NO_COLOR")
    (← IO.getEnv "CLICOLOR_FORCE") (← (← IO.getStdout).isTty)

end Gloss

/-- Runs the program and gives the number that it ends with. -/
def main (args : List String) : IO UInt32 := do
  let outcome ← Gloss.CommandLine.run Gloss.machine (← Gloss.chooseInk) args
  IO.eprint outcome.err
  IO.print outcome.out
  return outcome.code.toUInt32
