import VimScript.Token.Lexer
import VimScript.Tree

/-!
Names, with expressions in braces as parts of them.
-/

set_option autoImplicit false

namespace VimScript.Expr

def unexpected {α : Type} (token : Token) : Scan α :=
  Scan.fail (.unexpectedToken token.value) token.position

def sameIgnoringCase (a b : String) : Bool :=
  a.toList.map Char.toLower == b.toList.map Char.toLower

/-- Whether what follows a `<` makes it a script-local name. -/
def afterAngleIsScriptId : Scan Bool := do
  return sameIgnoringCase (← Scan.peekRun 4) "SID>"

/-- The parts of a name at the cursor: runs of name characters and expressions in braces. -/
def nameParts (expr : Scan Node) : Scan (List Node) := do
  let position ← Scan.here
  let isScriptLocal := sameIgnoringCase (← Scan.peekRun 5) "<SID>"
  let scope ← (do
    if isScriptLocal then
      let text ← Scan.take 5
      return [Node.leaf .curlyPart text position]
    else
      return [])
  Scan.loop scope fun parts => do
    match ← Scan.peek with
    | some '\x7b' =>
      Scan.skip 1
      let position ← Scan.here
      let inner ← expr
      Scan.skipWhite
      let c ← Scan.peek
      if c != some '\x7d' then
        Scan.failHere (.unexpectedToken (describeChar c))
      Scan.skip 1
      return .again (parts ++ [.mk position (.curlyExpr inner)])
    | c =>
      if CharClass.name.hasOpt c then
        let position ← Scan.here
        let text ← Scan.takeClass .name
        return .again (parts ++ [.leaf .curlyPart text position])
      else
        return .done parts

/-- A name of a single written part is an identifier. -/
def nameOfParts (position : Position) : List Node → Node
  | [.mk _ (.leaf .curlyPart text)] => .identifier text position
  | parts => .mk position (.curlyName parts)

def name (expr : Scan Node) : Scan Node := do
  Scan.skipWhite
  let position ← Scan.here
  let parts ← nameParts expr
  return nameOfParts position parts

end VimScript.Expr
