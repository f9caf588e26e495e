import VimScript.Statement.Pattern

/-!
The range before a command: addresses with offsets, joined by commas and semicolons.
-/

set_option autoImplicit false

namespace VimScript.Statement

/-- The offsets after an address: numbers with or without a sign, blanks between. -/
def offsets (found : List String) : Scan (List String) :=
  Scan.loop found fun found => do
    Scan.skipWhite
    let number ← Scan.takeInteger
    if number.isEmpty then return .done found
    else return .again (found ++ [number])

/-- What an address starts from, if it starts from anything. -/
def addressBase : Scan (List String) := do
  match ← Scan.peekInLine with
  | some '.' | some '$' => return [← Scan.take 1]
  | some '\'' =>
    let _ ← Scan.take 1
    let mark ← Scan.take 1
    return if mark.isEmpty then [] else ["'" ++ mark]
  | some '/' =>
    let _ ← Scan.take 1
    let (text, _) ← pattern '/'
    return [text]
  | some '?' =>
    let _ ← Scan.take 1
    let (text, _) ← pattern '?'
    return [text]
  | some '\\' =>
    match ← Scan.peekAt 1 with
    | some '&' | some '?' | some '/' => return [← Scan.take 2]
    | _ => Scan.failHere .badBackslashAddress
  | c =>
    if CharClass.digit.hasOpt c then return [← Scan.takeClass .digit]
    else return []

/-- An address; a search may follow another one directly. -/
def address (found : List String) : Scan (List String) :=
  Scan.loop found fun found => do
    Scan.skipWhite
    let base ← addressBase
    let found ← offsets (found ++ base)
    let c ← Scan.peek
    if c == some '/' || c == some '?' then return .again found
    else return .done found

/-- The pieces of a range in order: addresses, offsets and separators as written, patterns without their
delimiters. -/
def range : Scan (List String) :=
  Scan.loop [] fun found => do
    let found ← address found
    let whole ← (do
      match ← Scan.peekInLine with
      | some '%' | some '*' => return [← Scan.take 1]
      | _ => return [])
    match ← Scan.peekInLine with
    | some ';' | some ',' => return .again (found ++ whole ++ [← Scan.take 1])
    | _ => return .done (found ++ whole)

end VimScript.Statement
