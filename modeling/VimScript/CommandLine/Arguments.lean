/-!
What the arguments of the command line ask for. They are taken from left to right, and the first one that
cannot be taken, or that asks for the version or for help, settles the answer.
-/

set_option autoImplicit false

namespace VimScript.CommandLine

inductive Format where
  | fingerprint | json
deriving DecidableEq, Repr

structure Settings where
  /-- The script; without one it is read from standard input. -/
  file : Option String := none
  neovim : Bool := false
  config : Option String := none
  format : Option Format := none
  expect : Option String := none
  verbosity : Nat := 0
deriving DecidableEq, Repr

inductive Request where
  | process (settings : Settings)
  | version
  | help
deriving DecidableEq, Repr

inductive Misuse where
  | unknown (argument : String)
  | repeated (name : String)
  | missingValue (name : String)
  | unwantedValue (name : String)
  | badValue (name value : String)
deriving DecidableEq, Repr

def Misuse.message : Misuse → String
  | .unknown argument => "unexpected argument '" ++ argument ++ "' found"
  | .repeated name => "the argument '" ++ name ++ "' cannot be used multiple times"
  | .missingValue name => "a value is required for '" ++ name ++ "' but none was supplied"
  | .unwantedValue name => "no value is taken by '" ++ name ++ "'"
  | .badValue name value => "invalid value '" ++ value ++ "' for '" ++ name ++ "'"

/-- Options that take a value. -/
inductive Setting where
  | config | format | expect
deriving DecidableEq, Repr

namespace Setting

def name : Setting → String
  | .config => "--config"
  | .format => "--format"
  | .expect => "--expect"

def ofName? (name : String) : Option Setting :=
  [config, format, expect].find? (·.name == name)

end Setting

namespace Settings

/-- A value given once. -/
def once {α : Type} (name : String) (found : Option α) (value : α) : Except Misuse (Option α) :=
  match found with
  | none => .ok (some value)
  | some _ => .error (.repeated name)

def set (s : Settings) (setting : Setting) (value : String) : Except Misuse Settings := do
  match setting with
  | .config => return { s with config := ← once setting.name s.config value }
  | .expect => return { s with expect := ← once setting.name s.expect value }
  | .format =>
    let format ←
      match value with
      | "sexp" => Except.ok Format.fingerprint
      | "json" => Except.ok Format.json
      | _ => Except.error (Misuse.badValue setting.name value)
    return { s with format := ← once setting.name s.format format }

def setNeovim (s : Settings) : Except Misuse Settings :=
  if s.neovim then .error (.repeated "--neovim") else .ok { s with neovim := true }

/-- There is one script at most. -/
def setFile (s : Settings) (name : String) : Except Misuse Settings :=
  match s.file with
  | none => .ok { s with file := some name }
  | some _ => .error (.unknown name)

/-- Arguments that are all taken as they are. -/
def setFiles (s : Settings) : List String → Except Misuse Settings
  | [] => .ok s
  | name :: names => do (← s.setFile name).setFiles names

end Settings

/-- An argument that cannot be the value of the option before it; a lone dash can. -/
def isOption (argument : String) : Bool :=
  argument.startsWith "-" && argument != "-"

/-- A long option and the value attached to it with an equals sign. -/
def splitLong (argument : String) : String × Option String :=
  match argument.toList.span (· != '=') with
  | (name, _ :: value) => (String.ofList name, some (String.ofList value))
  | (name, []) => (String.ofList name, none)

/-- How a group of letters after one dash goes on: with the settings, or with an answer at once. -/
def letters (s : Settings) : List Char → Except Misuse (Settings ⊕ Request)
  | [] => .ok (.inl s)
  | 'v' :: cs => letters { s with verbosity := s.verbosity + 1 } cs
  | 'V' :: _ => .ok (.inr .version)
  | 'h' :: _ => .ok (.inr .help)
  | c :: _ => .error (.unknown ("-" ++ String.singleton c))

/-- A long option that takes no value. -/
def word (s : Settings) (name : String) (attached : Bool) : Except Misuse (Settings ⊕ Request) :=
  if ["--neovim", "--version", "--help"].contains name && attached then .error (.unwantedValue name)
  else
    match name with
    | "--neovim" => s.setNeovim.map .inl
    | "--version" => .ok (.inr .version)
    | "--help" => .ok (.inr .help)
    | _ => .error (.unknown name)

def readFrom (s : Settings) : List String → Except Misuse Request
  | [] => .ok (.process s)
  | argument :: rest =>
    if argument == "--" then (s.setFiles rest).map .process
    else if argument.startsWith "--" then
      match splitLong argument with
      | (name, attached) =>
        match Setting.ofName? name, attached with
        | some setting, some value => do readFrom (← s.set setting value) rest
        | some setting, none =>
          match rest with
          | [] => .error (.missingValue name)
          | value :: rest =>
            if isOption value then .error (.missingValue name)
            else do readFrom (← s.set setting value) rest
        | none, _ => do
          match ← word s name attached.isSome with
          | .inl s => readFrom s rest
          | .inr answer => return answer
    else if isOption argument then do
      match ← letters s (argument.toList.drop 1) with
      | .inl s => readFrom s rest
      | .inr answer => return answer
    else do readFrom (← s.setFile argument) rest

def Request.ofArguments (arguments : List String) : Except Misuse Request :=
  readFrom {} arguments

end VimScript.CommandLine
