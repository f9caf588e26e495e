/-!
Character classes of the script language. All of them are ASCII classes: a character outside ASCII is in
none, whatever its Unicode category.
-/

set_option autoImplicit false

namespace VimScript

inductive CharClass where
  | alpha | alnum | digit | octal | hex | binary | word | white | name | nameStart | ident
deriving DecidableEq, Repr

namespace CharClass

def has : CharClass → Char → Bool
  | .alpha, c => c.isAlpha
  | .alnum, c => c.isAlphanum
  | .digit, c => c.isDigit
  | .octal, c => '0' ≤ c && c ≤ '7'
  | .hex, c => c.isDigit || ('a' ≤ c && c ≤ 'f') || ('A' ≤ c && c ≤ 'F')
  | .binary, c => c == '0' || c == '1'
  | .word, c => c.isAlphanum || c == '_'
  | .white, c => c == ' ' || c == '\t'
  | .name, c => c.isAlphanum || c == '_' || c == ':' || c == '#'
  | .nameStart, c => c.isAlpha || c == '_'
  | .ident, c => c.isAlphanum || c == '_'

attribute [grind =] has

/-- The class of a character looked at ahead of the cursor, which may be missing. -/
def hasOpt (k : CharClass) (c : Option Char) : Bool :=
  c.any k.has

@[simp] theorem hasOpt_none (k : CharClass) : k.hasOpt none = false := rfl

@[simp] theorem hasOpt_some (k : CharClass) (c : Char) : k.hasOpt (some c) = k.has c := rfl

theorem has_ident (c : Char) : ident.has c = word.has c := rfl

end CharClass

/-- A character as diagnostics show it. -/
def describeChar : Option Char → String
  | none => "<EOF>"
  | some '\n' => "<EOL>"
  | some c => String.singleton c

/-- Where the argument of a command stops: line end, end of input, a bar or a comment. -/
def endsCommand : Option Char → Bool
  | none => true
  | some c => c == '\n' || c == '|' || c == '"'

/-- A parameter name: a letter or underscore, then word characters. -/
def isArgumentName (s : String) : Bool :=
  match s.toList with
  | [] => false
  | c :: rest => CharClass.nameStart.has c && rest.all CharClass.word.has

def isScopeLetter (c : Char) : Bool :=
  ['v', 'g', 's', 'l', 'a', 'b', 'w', 't'].contains c

def isUnscopedName : List Char → Bool
  | [] => false
  | c :: rest => CharClass.nameStart.has c && rest.all fun d => CharClass.word.has d || d == '#'

/-- A variable name: a bare scope such as `g:`, or a name with an optional scope before it. -/
def isVariableName (s : String) : Bool :=
  match s.toList with
  | [c, ':'] => isScopeLetter c
  | c :: ':' :: rest => isScopeLetter c && isUnscopedName rest
  | cs => isUnscopedName cs

theorem isVariableName_of_isArgumentName {s : String} (h : isArgumentName s = true) :
    isVariableName s = true := by
  unfold isArgumentName at h
  unfold isVariableName
  split at h
  · simp at h
  · rename_i c rest cs
    have word : ∀ d ∈ rest, CharClass.word.has d = true := by simp_all
    have colon : CharClass.word.has ':' = false := by decide
    split
    · grind
    · grind
    · simp_all [isUnscopedName]

/-- White space between words of a logical line as continuation marks see it: ASCII only. -/
def isAsciiSpace (c : Char) : Bool :=
  c == ' ' || ('\t' ≤ c && c ≤ '\r')

end VimScript
