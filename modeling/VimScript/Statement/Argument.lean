import VimScript.Invocation
import VimScript.Scan

/-!
What the commands that open files take before the file: options such as `++ff=unix`, and a command to run in
the file.
-/

set_option autoImplicit false

namespace VimScript.Statement

def isWordOpt (c : Option Char) : Bool :=
  CharClass.word.hasOpt c

/-- Whether a text starts with a word that ends there. -/
def startsWithWord (word : String) (cs : List Char) : Bool :=
  word.toList.isPrefixOf cs && !isWordOpt (cs.drop word.length).head?

/-- Whether a text starts with a word and a character that is no white space. -/
def startsWithValue (word : String) (cs : List Char) : Bool :=
  word.toList.isPrefixOf cs && ((cs.drop word.length).head?.any fun c => !isAsciiSpace c)

def fileFormats : List String :=
  ["dos", "unix", "mac"]

/-- Whether what follows `++bad=` is one of its values: a word, or a character with a word boundary after. -/
def isBadValue (cs : List Char) : Bool :=
  startsWithWord "keep" cs || startsWithWord "drop" cs ||
    match cs with
    | [] => false
    | c :: rest => CharClass.word.has c != isWordOpt rest.head?

/-- The option at the cursor, which stands before two plus signs; not more than 20 characters decide. -/
def fileOption (inv : Invocation) : Scan Invocation := do
  let ahead := (← Scan.peekRun 20).toList
  if startsWithWord "++bin" ahead then
    let _ ← Scan.take 5
    return { inv with binary := some .bin }
  else if startsWithWord "++nobin" ahead then
    let _ ← Scan.take 7
    return { inv with binary := some .noBin }
  else if startsWithWord "++edit" ahead then
    let _ ← Scan.take 6
    return { inv with readEdit := true }
  else if fileFormats.any fun f => startsWithWord ("++ff=" ++ f) ahead then
    let _ ← Scan.take 5
    return { inv with fileFormat := some (← Scan.takeClass .alpha) }
  else if fileFormats.any fun f => startsWithWord ("++fileformat=" ++ f) ahead then
    let _ ← Scan.take 13
    return { inv with fileFormat := some (← Scan.takeClass .alpha) }
  else if startsWithValue "++enc=" ahead then
    let _ ← Scan.take 6
    return { inv with encoding := some (← Scan.takeNonWhite) }
  else if startsWithValue "++encoding=" ahead then
    let _ ← Scan.take 11
    return { inv with encoding := some (← Scan.takeNonWhite) }
  else if "++bad=".toList.isPrefixOf ahead && isBadValue (ahead.drop 6) then
    let _ ← Scan.take 6
    let value := ahead.drop 6
    let isWord := "keep".toList.isPrefixOf value || "drop".toList.isPrefixOf value
    return { inv with badChar := some (← Scan.take (if isWord then 4 else 1)) }
  else
    Scan.failHere .invalidArgument

def fileOptions (inv : Invocation) : Scan Invocation :=
  Scan.loop inv fun inv => do
    if (← Scan.peek) == some '+' && (← Scan.peekAt 1) == some '+' then
      let inv ← fileOption inv
      Scan.skipWhite
      return .again inv
    else
      return .done inv

/-- The command after a plus sign, up to a blank; a backslash keeps the next character. -/
def startCommandText : Scan String :=
  Scan.loop [] fun (text : List Char) => do
    let c ← Scan.peekInLine
    if c.isNone || CharClass.white.hasOpt c then
      return .done (String.ofList text.reverse)
    else
      let _ ← Scan.next
      match c with
      | some '\\' =>
        match ← Scan.peekInLine with
        | some escaped =>
          let _ ← Scan.next
          return .again (escaped :: text)
        | none => return .again text
      | some c => return .again (c :: text)
      | none => return .done (String.ofList text.reverse)

/-- What to run in the opened file; a plus sign alone means its last line. -/
def startCommand (inv : Invocation) : Scan Invocation := do
  if (← Scan.peekInLine) == some '+' then
    let _ ← Scan.take 1
    if (← Scan.peekInLine) == some ' ' then
      return { inv with startCommand := some "$" }
    else
      return { inv with startCommand := some (← startCommandText) }
  else
    return inv

end VimScript.Statement
