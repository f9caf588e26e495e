/-!
Reading JSON text. Strings are decoded where their content matters; of all other values only the extent is
found, and that they are well formed. A reader takes the text from its start and gives back what follows.
-/

set_option autoImplicit false

namespace VimScript.Json.Reader

def isBlank (c : Char) : Bool :=
  c == ' ' || c == '\n' || c == '\t' || c == '\r'

def dropBlanks (cs : List Char) : List Char :=
  cs.dropWhile isBlank

/-- The text after a character that has to come next. -/
def after? (c : Char) : List Char → Option (List Char)
  | [] => none
  | d :: cs => if d == c then some cs else none

/-- The text after a word that has to come next. -/
def word? (word : String) (cs : List Char) : Option (List Char) :=
  if word.toList.isPrefixOf cs then some (cs.drop word.length) else none

/-! ### Strings -/

def digit? (c : Char) : Option Nat :=
  if c.isDigit then some (c.toNat - 48)
  else if 'a' ≤ c && c ≤ 'f' then some (c.toNat - 87)
  else if 'A' ≤ c && c ≤ 'F' then some (c.toNat - 55)
  else none

/-- The number that four hexadecimal digits write. -/
def unit? (a b c d : Char) : Option Nat := do
  return 4096 * (← digit? a) + 256 * (← digit? b) + 16 * (← digit? c) + (← digit? d)

def escaped? : Char → Option Char
  | '"' => some '"'
  | '\\' => some '\\'
  | '/' => some '/'
  | 'b' => some '\x08'
  | 'f' => some '\x0c'
  | 'n' => some '\n'
  | 'r' => some '\r'
  | 't' => some '\t'
  | _ => none

def isHighSurrogate (n : Nat) : Bool :=
  0xd800 ≤ n && n < 0xdc00

def isLowSurrogate (n : Nat) : Bool :=
  0xdc00 ≤ n && n < 0xe000

/-- The content of a string after its opening quote. A surrogate counts only as half of a pair. -/
def string? : List Char → Option (List Char × List Char)
  | [] => none
  | '"' :: cs => some ([], cs)
  | '\\' :: 'u' :: a :: b :: c :: d :: cs =>
    match unit? a b c d with
    | none => none
    | some high =>
      if isHighSurrogate high then
        match cs with
        | '\\' :: 'u' :: e :: f :: g :: h :: rest =>
          match unit? e f g h with
          | none => none
          | some low =>
            if isLowSurrogate low then
              let c := Char.ofNat (0x10000 + 0x400 * (high - 0xd800) + (low - 0xdc00))
              (string? rest).map fun (text, rest) => (c :: text, rest)
            else none
        | _ => none
      else if isLowSurrogate high then none
      else (string? cs).map fun (text, rest) => (Char.ofNat high :: text, rest)
  | '\\' :: c :: cs =>
    match escaped? c with
    | none => none
    | some c => (string? cs).map fun (text, rest) => (c :: text, rest)
  | c :: cs =>
    if c.toNat < 32 || c == '\\' then none
    else (string? cs).map fun (text, rest) => (c :: text, rest)

/-- The end of a string after its opening quote. Surrogates may stand alone. -/
def skipString? : List Char → Option (List Char)
  | [] => none
  | '"' :: cs => some cs
  | '\\' :: 'u' :: a :: b :: c :: d :: cs => if (unit? a b c d).isSome then skipString? cs else none
  | '\\' :: c :: cs => if (escaped? c).isSome then skipString? cs else none
  | c :: cs => if c.toNat < 32 || c == '\\' then none else skipString? cs

/-! ### Numbers -/

/-- One digit or more. -/
def skipDigits? : List Char → Option (List Char)
  | [] => none
  | c :: cs => if c.isDigit then some (cs.dropWhile Char.isDigit) else none

/-- A whole number has no digits after a leading zero. -/
def skipWhole? : List Char → Option (List Char)
  | '0' :: cs => if cs.head?.any Char.isDigit then none else some cs
  | cs => skipDigits? cs

def skipFraction? : List Char → Option (List Char)
  | '.' :: cs => skipDigits? cs
  | cs => some cs

def skipExponent? : List Char → Option (List Char)
  | c :: cs =>
    if c == 'e' || c == 'E' then
      match cs with
      | '+' :: cs | '-' :: cs => skipDigits? cs
      | cs => skipDigits? cs
    else some (c :: cs)
  | [] => some []

def skipNumber? (cs : List Char) : Option (List Char) :=
  let unsigned :=
    match cs with
    | '-' :: cs => cs
    | cs => cs
  ((skipWhole? unsigned).bind skipFraction?).bind skipExponent?

/-! ### Values -/

mutual

/-- The end of a value. The bound is on the steps taken; two for every character are enough. -/
def skipValueUpTo? : Nat → List Char → Option (List Char)
  | 0, _ => none
  | n + 1, cs =>
    match dropBlanks cs with
    | '[' :: cs => ((after? ']' (dropBlanks cs))).or (skipItems? n cs)
    | '{' :: cs => ((after? '}' (dropBlanks cs))).or (skipMembers? n cs)
    | '"' :: cs => skipString? cs
    | 't' :: cs => word? "rue" cs
    | 'f' :: cs => word? "alse" cs
    | 'n' :: cs => word? "ull" cs
    | cs => skipNumber? cs

def skipItems? : Nat → List Char → Option (List Char)
  | 0, _ => none
  | n + 1, cs =>
    match (skipValueUpTo? n cs).map dropBlanks with
    | some (',' :: cs) => skipItems? n cs
    | some (']' :: cs) => some cs
    | _ => none

def skipMembers? : Nat → List Char → Option (List Char)
  | 0, _ => none
  | n + 1, cs =>
    let value := do
      let cs ← after? '"' (dropBlanks cs)
      let cs ← skipString? cs
      let cs ← after? ':' (dropBlanks cs)
      skipValueUpTo? n cs
    match value.map dropBlanks with
    | some (',' :: cs) => skipMembers? n cs
    | some ('}' :: cs) => some cs
    | _ => none

end

def skipValue? (cs : List Char) : Option (List Char) :=
  skipValueUpTo? (2 * cs.length + 1) cs

def bool? (cs : List Char) : Option (Bool × List Char) :=
  let cs := dropBlanks cs
  ((word? "true" cs).map (true, ·)).or ((word? "false" cs).map (false, ·))

end VimScript.Json.Reader
