/-!
The words in which commands of one shape differ.
-/

set_option autoImplicit false

namespace VimScript

/-- The blocks that have a closing command. -/
inductive BlockSort where
  | function | ifBlock | whileLoop | forLoop | tryBlock
deriving DecidableEq, Repr

namespace BlockSort

def opener : BlockSort → String
  | .function => "function"
  | .ifBlock => "if"
  | .whileLoop => "while"
  | .forLoop => "for"
  | .tryBlock => "try"

def closer (b : BlockSort) : String :=
  "end" ++ b.opener

end BlockSort

/-- What ends a stretch of script in which every block has to be closed. -/
inductive BlockEnd where
  | script | function
deriving DecidableEq, Repr

/-- Commands that take a list of expressions separated by blanks. -/
inductive EchoVerb where
  | echo | echon | echoMsg | echoErr | execute
deriving DecidableEq, Repr

def EchoVerb.name : EchoVerb → String
  | .echo => "echo"
  | .echon => "echon"
  | .echoMsg => "echomsg"
  | .echoErr => "echoerr"
  | .execute => "execute"

inductive AssignVerb where
  | letVar | const
deriving DecidableEq, Repr

def AssignVerb.name : AssignVerb → String
  | .letVar => "let"
  | .const => "const"

inductive LockVerb where
  | lock | unlock
deriving DecidableEq, Repr

def LockVerb.name : LockVerb → String
  | .lock => "lockvar"
  | .unlock => "unlockvar"

/-- Commands with exactly one operand. -/
inductive OperandVerb where
  | delFunction | call | eval | throw
deriving DecidableEq, Repr

def OperandVerb.name : OperandVerb → String
  | .delFunction => "delfunction"
  | .call => "call"
  | .eval => "eval"
  | .throw => "throw"

/-- Commands that leave or restart a loop. -/
inductive Jump where
  | leave | restart
deriving DecidableEq, Repr

def Jump.name : Jump → String
  | .leave => "break"
  | .restart => "continue"

/-- Languages whose code can stand inside a script. -/
inductive Language where
  | lua | mzscheme | perl | python | python3 | ruby | tcl
deriving DecidableEq, Repr

end VimScript
