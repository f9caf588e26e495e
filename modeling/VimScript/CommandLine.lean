import VimScript.CommandLine.Arguments
import VimScript.CommandLine.Surroundings
import VimScript.Fingerprint
import VimScript.LineDiff
import VimScript.Options
import VimScript.Script
import VimScript.Tree.Json

/-!
A run of the program: read a script, print its tree, or compare its fingerprint with one that was kept. The
files and the standard input are asked for through `Surroundings`, whatever they are.
-/

set_option autoImplicit false

namespace VimScript.CommandLine

/-- What keeps a run from its result. -/
inductive Problem where
  | misuse (cause : Misuse)
  | script (path reason : String)
  | input (reason : String)
  | config (path reason : String)
  | fault (name : String) (cause : Fault)
  | unread (name : String)
  | expected (path reason : String)
deriving DecidableEq, Repr

inductive Outcome where
  | printed (text : String)
  | asExpected
  | different (diff : String)
  | refused (problem : Problem)
deriving DecidableEq, Repr

def version : String := "vimlparse 0.1.0\n"

def usage : String := "Usage: vimlparse [OPTIONS] [FILE]\n"

def help : String :=
  "Parse Vim script and print its syntax tree\n\n" ++ usage ++ "\n" ++
  "Arguments:\n" ++
  "  [FILE]  Script file to parse (stdin when omitted)\n\n" ++
  "Options:\n" ++
  "      --neovim           Resolve commands against the Neovim command set\n" ++
  "      --config <CONFIG>  JSON file with parser options\n" ++
  "      --format <FORMAT>  Output format: sexp (the default) or json\n" ++
  "      --expect <EXPECT>  Compare the output with a stored fingerprint and print a diff on mismatch\n" ++
  "  -v...                  Log parser activity to stderr\n" ++
  "  -h, --help             Print help\n" ++
  "  -V, --version          Print version\n"

def Problem.report : Problem → String
  | .misuse cause => "error: " ++ cause.message ++ "\n\n" ++ usage
  | .script path reason => "Error: Cannot read script file: " ++ path ++ ": " ++ reason ++ "\n"
  | .input reason => "Error: Cannot read stdin: " ++ reason ++ "\n"
  | .config path reason => "Error: Cannot load config: " ++ path ++ ": " ++ reason ++ "\n"
  | .fault name cause => name ++ ": " ++ cause.report ++ "\n"
  | .unread name => name ++ ": not read to its end\n"
  | .expected path reason => "Error: Cannot read fingerprint: " ++ path ++ ": " ++ reason ++ "\n"

namespace Outcome

def code : Outcome → Nat
  | .printed _ | .asExpected => 0
  | .refused (.misuse _) => 2
  | .different _ | .refused _ => 1

def stdout : Outcome → String
  | .printed text => text
  | .different diff => diff
  | .asExpected | .refused _ => ""

def stderr : Outcome → String
  | .refused problem => problem.report
  | _ => ""

end Outcome

def render (format : Format) (script : Node) : String :=
  match format with
  | .fingerprint => "\n".intercalate script.fingerprint ++ "\n"
  | .json => script.toJson.pretty 0 ++ "\n"

def parse (name : String) (options : Options) (text : String) : Except Problem Node :=
  match Script.ofText options.neovim text with
  | .ok script _ => .ok script
  | .fail fault _ => .error (.fault name fault)
  | .spent => .error (.unread name)

section

variable {m : Type → Type} [Monad m]

/-- A text from the surroundings; the reason it cannot be had becomes a problem of the run. -/
def demand (problem : String → Problem) (text : m (Except String String)) : ExceptT Problem m String :=
  ExceptT.mk (Except.mapError problem <$> text)

def source (w : Surroundings m) (s : Settings) : ExceptT Problem m String :=
  match s.file with
  | some path => demand (.script path) (w.readFile path)
  | none => demand .input w.readInput

/-- The options of the file, if one is named; the command line can only switch Neovim on. -/
def options (w : Surroundings m) (s : Settings) : ExceptT Problem m Options :=
  match s.config with
  | none => return { neovim := s.neovim }
  | some path => do
    match Options.ofJson? (← demand (.config path) (w.readFile path)) with
    | some found => return { neovim := found.neovim || s.neovim }
    | none => throw (.config path "not a JSON object of options")

/-- The script is read before the options, and both before the fingerprint it is compared with. -/
def process (w : Surroundings m) (s : Settings) : ExceptT Problem m Outcome := do
  let text ← source w s
  let options ← options w s
  let script ← ExceptT.mk (pure (parse (s.file.getD "<stdin>") options text))
  let output := render (s.format.getD .fingerprint) script
  match s.expect with
  | none => return .printed output
  | some path =>
    match LineDiff.compare (← demand (.expected path) (w.readFile path)) output with
    | none => return .asExpected
    | some diff => return .different diff

def run (w : Surroundings m) (arguments : List String) : m Outcome :=
  match Request.ofArguments arguments with
  | .error cause => return .refused (.misuse cause)
  | .ok .version => return .printed version
  | .ok .help => return .printed help
  | .ok (.process s) => do
    match ← (process w s).run with
    | .ok outcome => return outcome
    | .error problem => return .refused problem

end

end VimScript.CommandLine
