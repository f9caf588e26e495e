import VimScript.CharClass
import VimScript.Position
import VimScript.Verb

/-!
What can be wrong with a script. A `Cause` is the reason, `Cause.message` its wording and `Cause.kind` the
family it belongs to; a `Fault` is a cause with the position it is reported at.
-/

set_option autoImplicit false

namespace VimScript

inductive FaultKind where
  | lexical | grammar | context | unterminated
deriving DecidableEq, Repr

inductive Cause where
  | unexpectedCharacter (c : Option Char)
  | openSingleQuoted
  | openDoubleQuoted
  | openEscape
  | openKey
  | oddBlob (a b : Char)
  | unexpectedToken (text : String)
  | unexpectedParameterToken (text : String) (code : Nat)
  | methodWithoutCall
  | tooManyArguments
  | illegalArgument (name : String)
  | duplicateArgument (name : String)
  | blankBeforeComma
  | defaultBeforePlain
  | badBackslashAddress
  | badPattern
  | unknownCommand (text : String)
  | bangNotAllowed
  | badAppendRedirect
  | invalidArgument
  | argumentRequired
  | trailing (c : Char)
  | badTargetList (text : String)
  | missingMarker
  | invalidTarget
  | cannotLock (what : String)
  | illegalVariable (name : String)
  | notACall
  | badFunctionName (name : String)
  | missingIn
  | elseIfWithoutIf
  | elseWithoutIf
  | closerWithoutOpener (block : BlockSort)
  | continueOutsideLoop
  | breakOutsideLoop
  | catchAfterFinally
  | catchWithoutTry
  | finallyWithoutTry
  | returnOutsideFunction
  | missingCloser (block : BlockSort) (stop : BlockEnd)
  | missingEndMarker (marker : String)
  | stackUnderflow
deriving DecidableEq, Repr

namespace Cause

def kind : Cause → FaultKind
  | .unexpectedCharacter _ | .openSingleQuoted | .openDoubleQuoted | .openEscape | .openKey
  | .oddBlob _ _ => .lexical
  | .elseIfWithoutIf | .elseWithoutIf | .closerWithoutOpener _ | .continueOutsideLoop
  | .breakOutsideLoop | .catchAfterFinally | .catchWithoutTry | .finallyWithoutTry
  | .returnOutsideFunction | .stackUnderflow => .context
  | .missingCloser _ _ | .missingEndMarker _ => .unterminated
  | _ => .grammar

def closerMessage : BlockSort → String
  | .function => "E193: :endfunction not inside a function"
  | .ifBlock => "E580: :endif without :if"
  | .whileLoop => "E588: :endwhile without :while"
  | .forLoop => "E588: :endfor without :for"
  | .tryBlock => "E602: :endtry without :try"

/-- The number of the message that reports a block left open. -/
def missingCode : BlockSort → String
  | .function => "E126"
  | .ifBlock => "E171"
  | .whileLoop => "E170"
  | .forLoop => "E170"
  | .tryBlock => "E600"

def stopName : BlockEnd → String
  | .script => "TOPLEVEL"
  | .function => "ENDFUNCTION"

def message : Cause → String
  | .unexpectedCharacter c => "unexpected character: " ++ describeChar c
  | .openSingleQuoted => "unexpected EOL"
  | .openDoubleQuoted => "unexpectd EOL"
  | .openEscape => "ExprTokenizer: unexpected EOL"
  | .openKey => "unexpectd EOL"
  | .oddBlob a b =>
    "E973: Blob literal should have an even number of hex characters:" ++ String.ofList [a, b]
  | .unexpectedToken text => "unexpected token: " ++ text
  | .unexpectedParameterToken text code => "unexpected token: " ++ text ++ ", type: " ++ toString code
  | .methodWithoutCall => "E107: Missing parentheses: lambda"
  | .tooManyArguments => "E740: Too many arguments for function"
  | .illegalArgument name => "E125: Illegal argument: " ++ name
  | .duplicateArgument name => "E853: Duplicate argument name: " ++ name
  | .blankBeforeComma => "E475: Invalid argument: White space is not allowed before comma"
  | .defaultBeforePlain => "E989: Non-default argument follows default argument"
  | .badBackslashAddress => "E10: \\\\ should be followed by /, ? or &"
  | .badPattern => "E682: Invalid search pattern or delimiter"
  | .unknownCommand text => "E492: Not an editor command: " ++ text
  | .bangNotAllowed => "E477: No ! allowed"
  | .badAppendRedirect => "E494: Use w or w>>"
  | .invalidArgument => "E474: Invalid Argument"
  | .argumentRequired => "E471: Argument required"
  | .trailing c => "E488: Trailing characters: " ++ String.singleton c
  | .badTargetList text => "E475 Invalid argument: " ++ text
  | .missingMarker => "E172: Missing marker"
  | .invalidTarget => "Invalid Expression"
  | .cannotLock what => "E996: Cannot lock " ++ what
  | .illegalVariable name => "E461: Illegal variable name: " ++ name
  | .notACall => "Not an function call"
  | .badFunctionName name =>
    "E128: Function name must start with a capital or contain a colon: " ++ name
  | .missingIn => "Missing \"in\" after :for"
  | .elseIfWithoutIf => "E582: :elseif without :if"
  | .elseWithoutIf => "E581: :else without :if"
  | .closerWithoutOpener block => closerMessage block
  | .continueOutsideLoop => "E586: :continue without :while or :for"
  | .breakOutsideLoop => "E587: :break without :while or :for"
  | .catchAfterFinally => "E604: :catch after :finally"
  | .catchWithoutTry => "E603: :catch without :try"
  | .finallyWithoutTry => "E606: :finally without :try"
  | .returnOutsideFunction => "E133: :return not inside a function"
  | .missingCloser block stop =>
    missingCode block ++ ": Missing :" ++ block.closer ++ ":    " ++ stopName stop
  | .missingEndMarker marker => "E990: Missing end marker '" ++ marker ++ "'"
  | .stackUnderflow => "context stack underflow"

end Cause

structure Fault where
  cause : Cause
  position : Position
deriving DecidableEq, Repr

namespace Fault

def message (f : Fault) : String :=
  f.cause.message

/-- The line shown to the user: the program's name, the message, and where it happened. -/
def report (f : Fault) : String :=
  "vimlparser: " ++ f.message ++ ": line " ++ toString f.position.line ++
    " col " ++ toString f.position.column

end Fault

end VimScript
