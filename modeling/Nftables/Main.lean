import Nftables.CommandLine.Run

/-!
# The program

Reads the files that the command line names, runs it, and prints.
-/

namespace Nftables

open CommandLine

/-- What an error says of the file that was to be read. -/
def fileFault : IO.Error → FileFault
  | .noFileOrDirectory .. => .missing
  | .permissionDenied .. => .forbidden
  | .inappropriateType _ code _ => if code = 20 then .notDirectory else .isDirectory
  | .invalidArgument _ code details => if code = 36 then .nameTooLong else .other details
  | fault => .other (toString fault)

/-- A file that can be read, or what keeps it from being read. -/
def readPath (path : String) : IO (String × Except FileFault String) := do
  try
    let bytes ← IO.FS.readBinFile path
    match String.fromUTF8? bytes with
    | some text => pure (path, .ok text)
    | none => pure (path, .error .notText)
  catch fault => pure (path, .error (fileFault fault))

/-- The files that were read. -/
def filesOf (contents : List (String × Except FileFault String)) : Files := fun path =>
  (contents.lookup path).getD (.error .missing)

/-- Runs the program and gives its exit status. -/
def program (args : List String) : IO UInt32 := do
  match readRequest? args with
  | none =>
    IO.eprintln "error: the arguments cannot be read"
    pure (UInt32.ofNat usageStatus)
  | some request =>
    let contents ← request.files.mapM readPath
    let output := request.run (filesOf contents)
    IO.eprint output.errorText
    IO.print output.out
    pure (UInt32.ofNat output.status)

end Nftables

def main (args : List String) : IO UInt32 := Nftables.program args
