import VimScript.CommandLine

/-!
The program: its surroundings are the files and the standard input of the system.
-/

set_option autoImplicit false

namespace VimScript.Main

open CommandLine (Surroundings Unreadable)

def decode (bytes : ByteArray) : Except String String :=
  (CommandLine.decode bytes).mapError Unreadable.reason

/-- The reason the system gives for a failure. -/
def reason : IO.Error → String
  | .noFileOrDirectory _ code details | .permissionDenied _ code details
  | .inappropriateType _ code details | .invalidArgument _ code details
  | .resourceExhausted _ code details | .noSuchThing _ code details
  | .otherError code details =>
    details ++ " (os error " ++ toString code ++ ")"
  | error => toString error

def readFile (path : String) : IO (Except String String) := do
  try
    let bytes ← IO.FS.withFile path .read fun handle => handle.readBinToEnd
    return decode bytes
  catch error =>
    return .error (reason error)

partial def readAll (stream : IO.FS.Stream) (found : ByteArray) : IO ByteArray := do
  let chunk ← stream.read 65536
  if chunk.isEmpty then return found
  readAll stream (found ++ chunk)

def readInput : IO (Except String String) := do
  return decode (← readAll (← IO.getStdin) .empty)

def surroundings : Surroundings IO where
  readFile := readFile
  readInput := readInput

end VimScript.Main

def main (arguments : List String) : IO UInt32 := do
  let outcome ← VimScript.CommandLine.run VimScript.Main.surroundings arguments
  IO.print outcome.stdout
  IO.eprint outcome.stderr
  return UInt32.ofNat outcome.code
