import VimScript.Verb

/-!
Ex commands. A command has a full name, the least number of letters it may be shortened to, flags that say
what its argument may hold, and a form that says how the rest of its line is read.
-/

set_option autoImplicit false

namespace VimScript

inductive Flag where
  | range | bang | extra | xfile | nospc | dflall | wholefold | needarg | trlbar | regstr | count
  | notrlcom | zeror | usectrlv | notadr | editcmd | bufname | bufunl | argopt | sboxok | cmdwin
  | modify | exflags | files | file1 | word1 | usercmd
deriving DecidableEq, Repr

namespace Flag

def name : Flag → String
  | .range => "RANGE"
  | .bang => "BANG"
  | .extra => "EXTRA"
  | .xfile => "XFILE"
  | .nospc => "NOSPC"
  | .dflall => "DFLALL"
  | .wholefold => "WHOLEFOLD"
  | .needarg => "NEEDARG"
  | .trlbar => "TRLBAR"
  | .regstr => "REGSTR"
  | .count => "COUNT"
  | .notrlcom => "NOTRLCOM"
  | .zeror => "ZEROR"
  | .usectrlv => "USECTRLV"
  | .notadr => "NOTADR"
  | .editcmd => "EDITCMD"
  | .bufname => "BUFNAME"
  | .bufunl => "BUFUNL"
  | .argopt => "ARGOPT"
  | .sboxok => "SBOXOK"
  | .cmdwin => "CMDWIN"
  | .modify => "MODIFY"
  | .exflags => "EXFLAGS"
  | .files => "FILES"
  | .file1 => "FILE1"
  | .word1 => "WORD1"
  | .usercmd => "USERCMD"

/-- The flags in the order they are listed in. -/
def all : List Flag :=
  [.range, .bang, .extra, .xfile, .nospc, .dflall, .wholefold, .needarg, .trlbar, .regstr, .count,
    .notrlcom, .zeror, .usectrlv, .notadr, .editcmd, .bufname, .bufunl, .argopt, .sboxok, .cmdwin,
    .modify, .exflags, .files, .file1, .word1, .usercmd]

theorem mem_all (f : Flag) : f ∈ all := by
  cases f <;> decide

/-- A set of flags as one line, in the listing order and without repetitions. -/
def join (flags : List Flag) : String :=
  " | ".intercalate ((all.filter (flags.contains ·)).map name)

end Flag

/-- How the rest of a command's line is read. -/
inductive CommandForm where
  | append | insert
  | call | delFunction | eval | throw
  | catchBranch | elseBranch | elseIf | finallyBranch
  | common | userCommand
  | assign (verb : AssignVerb)
  | echo (verb : EchoVerb)
  | echoHl
  | opener (block : BlockSort)
  | closer (block : BlockSort)
  | jump (verb : Jump)
  | finish
  | loadKeymap
  | lock (verb : LockVerb)
  | foreign (language : Language)
  | returnValue
  | highlighting
  | unlet
  | window
deriving DecidableEq, Repr

namespace CommandForm

/-- The name under which a form is listed. -/
def tag : CommandForm → String
  | .append => "Append"
  | .insert => "Insert"
  | .call => "Call"
  | .delFunction => "Delfunction"
  | .eval => "Eval"
  | .throw => "Throw"
  | .catchBranch => "Catch"
  | .elseBranch => "Else"
  | .elseIf => "Elseif"
  | .finallyBranch => "Finally"
  | .common => "Common"
  | .userCommand => "Usercmd"
  | .assign .letVar => "Let"
  | .assign .const => "Const"
  | .echo .echo => "Echo"
  | .echo .echon => "Echon"
  | .echo .echoMsg => "Echomsg"
  | .echo .echoErr => "Echoerr"
  | .echo .execute => "Execute"
  | .echoHl => "Echohl"
  | .opener .function => "Function"
  | .opener .ifBlock => "If"
  | .opener .whileLoop => "While"
  | .opener .forLoop => "For"
  | .opener .tryBlock => "Try"
  | .closer .function => "Endfunction"
  | .closer .ifBlock => "Endif"
  | .closer .whileLoop => "Endwhile"
  | .closer .forLoop => "Endfor"
  | .closer .tryBlock => "Endtry"
  | .jump .leave => "Break"
  | .jump .restart => "Continue"
  | .finish => "Finish"
  | .loadKeymap => "Loadkeymap"
  | .lock .lock => "Lockvar"
  | .lock .unlock => "Unlockvar"
  | .foreign .lua => "Lua"
  | .foreign .mzscheme => "Mzscheme"
  | .foreign .perl => "Perl"
  | .foreign .python => "Python"
  | .foreign .python3 => "Python3"
  | .foreign .ruby => "Ruby"
  | .foreign .tcl => "Tcl"
  | .returnValue => "Return"
  | .highlighting => "Syntax"
  | .unlet => "Unlet"
  | .window => "Wincmd"

end CommandForm

structure Command where
  name : String
  /-- The least number of letters the name may be shortened to. -/
  least : Nat
  flags : List Flag
  form : CommandForm
deriving DecidableEq, Repr

namespace Command

/-- A command that scripts define for themselves. -/
def user (name : String) : Command :=
  ⟨name, 0, [.usercmd], .userCommand⟩

def has (c : Command) (f : Flag) : Bool :=
  c.flags.contains f

/-- Whether the typed letters are an accepted abbreviation of the command. -/
def accepts (c : Command) (typed : List Char) : Bool :=
  typed.isPrefixOf c.name.toList && c.least ≤ typed.length

@[simp] theorem has_user (name : String) (f : Flag) : (user name).has f = (f == .usercmd) := by
  cases f <;> rfl

end Command

end VimScript
