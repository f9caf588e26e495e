import VimScript.Token
import VimScript.Scan

/-!
Reading one token. Blanks before it are skipped; of the operators that could start at the cursor the longest
is taken.
-/

set_option autoImplicit false

namespace VimScript.Token

/-- The comparison in its three written forms, the longer ones first. -/
def comparisonForms (test : Comparison) : List (String × TokenKind) :=
  [CaseMode.ignoring, .matching, .byOption].map fun mode =>
    (test.lexeme ++ mode.suffix, .compare test mode)

/-- Operators of more than one character and the comparisons, in the order they are tried. -/
def operatorForms : List (String × TokenKind) :=
  ([("||", .orOr), ("&&", .andAnd)] : List (String × TokenKind)) ++
    [Comparison.equal, .notEqual, .greaterEqual, .smallerEqual, .matches, .noMatch, .greater,
      .smaller].flatMap comparisonForms ++
    ([("...", .ellipsis), ("->", .arrow), ("..", .dotDot), ("#\x7b", .literalBraceOpen)] : List (String × TokenKind))

def punctuation : List (Char × TokenKind) :=
  [('+', .plus), ('-', .minus), ('.', .dot), ('*', .star), ('/', .slash), ('%', .percent), ('!', .not),
    ('?', .question), (':', .colon), ('#', .sharp), ('(', .parenOpen), (')', .parenClose),
    ('[', .bracketOpen), (']', .bracketClose), ('\x7b', .braceOpen), ('\x7d', .braceClose),
    (',', .comma), ('\'', .singleQuote), ('"', .doubleQuote), ('=', .assign), ('|', .bar),
    (';', .semicolon), ('\x60', .backtick)]

/-- A decimal integer, or a float: an exponent is taken only after a fraction. -/
def decimal : Scan String := do
  let whole ← Scan.takeClass .digit
  if (← Scan.peek) == some '.' && CharClass.digit.hasOpt (← Scan.peekAt 1) then
    let point ← Scan.take 1
    let fraction ← Scan.takeClass .digit
    let mark ← Scan.peek
    let first ← Scan.peekAt 1
    let second ← Scan.peekAt 2
    let signed := (first == some '-' || first == some '+') && CharClass.digit.hasOpt second
    if (mark == some 'e' || mark == some 'E') && (CharClass.digit.hasOpt first || signed) then
      let head ← Scan.take 2
      let digits ← Scan.takeClass .digit
      return whole ++ point ++ fraction ++ head ++ digits
    return whole ++ point ++ fraction
  return whole

/-- A number or a blob, if the digit at the cursor starts one. -/
def number (c : Char) : Scan (Option (TokenKind × String)) := do
  let first ← Scan.peekAt 1
  let second ← Scan.peekAt 2
  if c == '0' && (first == some 'x' || first == some 'X') && CharClass.hex.hasOpt second then
    let head ← Scan.take 3
    let digits ← Scan.takeClass .hex
    return some (.number, head ++ digits)
  else if c == '0' && (first == some 'b' || first == some 'B') && CharClass.binary.hasOpt second then
    let head ← Scan.take 3
    let digits ← Scan.takeClass .binary
    return some (.number, head ++ digits)
  else if c == '0' && (first == some 'z' || first == some 'Z') && second != some '.' then
    let head ← Scan.take 2
    let digits ← Scan.takeBlobDigits
    return some (.blob, head ++ digits)
  else if CharClass.digit.has c then
    let digits ← decimal
    return some (.number, digits)
  else
    return none

/-- An identity test, unless the word goes on. -/
def identityTest (test : Comparison) : Scan (Option (TokenKind × String)) := do
  let found ← Scan.lookingAt test.lexeme
  let after ← Scan.peekAt test.lexeme.length
  if found && !CharClass.ident.hasOpt after then
    let mode : CaseMode :=
      match after with
      | some '?' => .ignoring
      | some '#' => .matching
      | _ => .byOption
    let text ← Scan.take (test.lexeme.length + mode.suffix.length)
    return some (.compare test mode, text)
  else
    return none

def firstForm : List (String × TokenKind) → Scan (Option (TokenKind × String))
  | [] => return none
  | (text, kind) :: forms => do
    if ← Scan.lookingAt text then
      Scan.skip text.length
      return some (kind, text)
    else
      firstForm forms

/-- Environment variables, registers and options: a sigil and what it applies to. A register sigil at the end
of a line stands for the unnamed register. -/
def sigil (c : Char) : Scan (Option (TokenKind × String)) := do
  match c with
  | '$' =>
    let mark ← Scan.take 1
    let word ← Scan.takeClass .word
    return some (.env, mark ++ word)
  | '@' =>
    let text ← Scan.take 2
    return some (.register, text)
  | '&' =>
    let scope ← Scan.peekAt 1
    let colon ← Scan.peekAt 2
    let hasScope := (scope == some 'g' || scope == some 'l') && colon == some ':'
    let mark ← Scan.take (if hasScope then 3 else 1)
    let word ← Scan.takeClass .word
    return some (.option, mark ++ word)
  | _ => return none

/-- The token that starts with a character other than a line end, at the cursor. -/
def lexeme (c : Char) : Scan (TokenKind × String) := do
  if let some found ← number c then return found
  if let some found ← identityTest .isNot then return found
  if let some found ← identityTest .is then return found
  if CharClass.nameStart.has c then
    let text ← Scan.takeClass .name
    return (.identifier, text)
  if let some found ← firstForm operatorForms then return found
  if let some found ← sigil c then return found
  match punctuation.lookup c with
  | some kind =>
    Scan.skip 1
    return (kind, String.singleton c)
  | none => Scan.failHere (.unexpectedCharacter (some c))

def next : Scan Token := do
  Scan.skipWhite
  let position ← Scan.here
  match ← Scan.peek with
  | none => return ⟨.eof, "<EOF>", position⟩
  | some '\n' =>
    Scan.skip 1
    return ⟨.eol, "<EOL>", position⟩
  | some c =>
    let (kind, value) ← lexeme c
    return ⟨kind, value, position⟩

def peek : Scan Token :=
  Scan.peeking next

/-! ### Strings and literal keys -/

/-- The body of a single-quoted string, in which a quote is written twice; it is kept as written. -/
def singleQuoted : Scan String := do
  Scan.skipWhite
  let c ← Scan.peek
  if c != some '\'' then
    Scan.failHere (.unexpectedCharacter c)
  Scan.skip 1
  let start ← Scan.tell
  Scan.loop () fun _ => do
    match ← Scan.peekInLine with
    | none => Scan.failHere .openSingleQuoted
    | some '\'' =>
      let stop ← Scan.tell
      Scan.skip 1
      if (← Scan.peek) == some '\'' then
        Scan.skip 1
        return .again ()
      else
        return .done (← Scan.textBetween start stop)
    | some _ =>
      Scan.skip 1
      return .again ()

/-- The body of a double-quoted string, in which a backslash takes the next character with it; it is kept as
written. -/
def doubleQuoted : Scan String := do
  Scan.skipWhite
  let c ← Scan.peek
  if c != some '"' then
    Scan.failHere (.unexpectedCharacter c)
  Scan.skip 1
  let start ← Scan.tell
  Scan.loop () fun _ => do
    match ← Scan.peekInLine with
    | none => Scan.failHere .openDoubleQuoted
    | some '"' =>
      let stop ← Scan.tell
      Scan.skip 1
      return .done (← Scan.textBetween start stop)
    | some '\\' =>
      Scan.skip 1
      match ← Scan.peekInLine with
      | none => Scan.failHere .openEscape
      | some _ =>
        Scan.skip 1
        return .again ()
    | some _ =>
      Scan.skip 1
      return .again ()

def isKeyChar (c : Char) : Bool :=
  CharClass.alnum.has c || c == '_' || c == '-'

/-- A key of a literal dictionary. Its position is that of its second character. -/
def literalKey : Scan (String × Position) := do
  Scan.skipWhite
  let c ← Scan.peek
  if !c.any isKeyChar then
    Scan.failHere (.unexpectedCharacter c)
  let start ← Scan.tell
  Scan.skip 1
  let position ← Scan.here
  Scan.skipWhile isKeyChar
  if (← Scan.peekInLine).isNone then
    Scan.failHere .openKey
  return (← Scan.textSince start, position)

end VimScript.Token
