/-!
Where a run finds its texts: in files, which paths lead to, and on standard input. A path is followed name by
name, from the root or from the working folder, and the first name that leads nowhere tells why it fails.
-/

set_option autoImplicit false

namespace VimScript.CommandLine

/-- Where texts come from. One that cannot be had is answered with the reason. -/
structure Surroundings (m : Type → Type) where
  readFile : String → m (Except String String)
  readInput : m (Except String String)

/-- Why a text cannot be had. -/
inductive Unreadable where
  | missing
  /-- A name on the way is looked up in a file. -/
  | inFile
  | isFolder
  | longName
  | notText
deriving DecidableEq, Repr

def Unreadable.reason : Unreadable → String
  | .missing => "No such file or directory (os error 2)"
  | .inFile => "Not a directory (os error 20)"
  | .isFolder => "Is a directory (os error 21)"
  | .longName => "File name too long (os error 36)"
  | .notText => "stream did not contain valid UTF-8"

/-- Texts are kept in UTF-8. -/
def decode (bytes : ByteArray) : Except Unreadable String :=
  match String.fromUTF8? bytes with
  | some text => .ok text
  | none => .error .notText

/-- The names that lead from the root to a file or a folder. -/
abbrev Route := List String

/-- A tree of files. A folder is whatever lies on the way to a file or to one of the folders that are listed,
these included. -/
structure Files where
  working : Route
  folders : List Route
  contents : List (Route × ByteArray)

namespace Files

/-- The longest name that a folder can hold, in bytes. -/
def nameLimit : Nat := 255

/-- The longest path that can be followed, in bytes. -/
def pathLimit : Nat := 4095

def hasFolder (s : Files) (route : Route) : Bool :=
  (s.working :: s.folders).any (route.isPrefixOf ·) ||
    s.contents.any fun entry => route.isPrefixOf entry.1 && route != entry.1

def hasFile (s : Files) (route : Route) : Bool :=
  (s.contents.lookup route).isSome

@[simp] theorem hasFolder_nil (s : Files) : s.hasFolder [] = true := by
  simp [hasFolder]

@[simp] theorem hasFolder_working (s : Files) : s.hasFolder s.working = true := by
  simp [hasFolder]

/-- The parts of a path between its slashes. -/
def names (path : String) : List String :=
  (path.toList.splitOn '/').map String.ofList

/-- Where a path starts. -/
def base (s : Files) (path : String) : Route :=
  if path.startsWith "/" then [] else s.working

/-- A name that stands for the folder it is looked up in. -/
def staysHere (name : String) : Bool :=
  name == "" || name == "."

/-- One name further. Every name, also one that stands for the folder itself, needs a folder to start in, so a
slash after a file is a fault. -/
def enter (s : Files) (route : Route) (name : String) : Except Unreadable Route :=
  if !s.hasFolder route then .error .inFile
  else if staysHere name then .ok route
  else if name == ".." then .ok route.dropLast
  else if nameLimit < name.utf8ByteSize then .error .longName
  else if s.hasFolder (route ++ [name]) || s.hasFile (route ++ [name]) then .ok (route ++ [name])
  else .error .missing

/-- Follows a path. The empty path leads nowhere. -/
def locate (s : Files) (path : String) : Except Unreadable Route :=
  if path.isEmpty then .error .missing
  else if pathLimit < path.utf8ByteSize then .error .longName
  else (names path).foldlM s.enter (s.base path)

def read (s : Files) (path : String) : Except Unreadable String := do
  match s.contents.lookup (← s.locate path) with
  | some bytes => decode bytes
  | none => throw .isFolder

/-- Keeps a file under a path, and with it the folders on its way. -/
def put (s : Files) (path : String) (bytes : ByteArray) : Files :=
  { s with contents := (s.base path ++ (names path).filter (!staysHere ·), bytes) :: s.contents }

/-- A file stands where none of its parts can be entered. -/
theorem enter_of_not_hasFolder {s : Files} {route : Route} (file : s.hasFolder route = false) (name : String) :
    s.enter route name = .error .inFile := by
  simp [enter, file]

/-- The folder itself is where its own name leads. -/
theorem enter_of_staysHere {s : Files} {route : Route} {name : String} (folder : s.hasFolder route = true)
    (stays : staysHere name = true) : s.enter route name = .ok route := by
  simp [enter, folder, stays]

end Files

/-- The surroundings of a run over a tree of files, with what stands on its input. -/
def Surroundings.ofFiles (files : Files) (input : ByteArray) : Surroundings Id where
  readFile path := (files.read path).mapError Unreadable.reason
  readInput := (decode input).mapError Unreadable.reason

end VimScript.CommandLine
