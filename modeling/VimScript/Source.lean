import VimScript.Position
import VimScript.CharClass

/-!
The buffer a script is read from. Physical lines are joined into logical lines: a line that opens with blanks
and a backslash continues the line before it, and only what follows the backslash enters the buffer. Every
logical line ends with a newline, and every character keeps the place it had in the text.
-/

set_option autoImplicit false

namespace VimScript

def byteLength : List Char → Nat
  | [] => 0
  | c :: cs => c.utf8Size + byteLength cs

@[simp] theorem byteLength_append (xs ys : List Char) :
    byteLength (xs ++ ys) = byteLength xs + byteLength ys := by
  induction xs with
  | nil => simp [byteLength]
  | cons c cs ih => simp [byteLength, ih, Nat.add_assoc]

/-- A buffer character with the place it came from. -/
abbrev Slot := Char × Place

/-- A line as it stands in the text: its number, the byte offset of its first character and its characters. -/
structure PhysicalLine where
  number : Nat
  start : Nat
  text : List Char
deriving DecidableEq, Repr

namespace PhysicalLine

/-- The lines of a text from a given line number and offset on, each followed by a one-byte line break. -/
def ofTexts : Nat → Nat → List (List Char) → List PhysicalLine
  | _, _, [] => []
  | number, start, text :: texts =>
    ⟨number, start, text⟩ :: ofTexts (number + 1) (start + byteLength text + 1) texts

def isContinuation (l : PhysicalLine) : Bool :=
  (l.text.dropWhile isAsciiSpace).head? == some '\\'

/-- The characters of a run on one line, whose first one has the given column and offset. -/
def spread (line : Nat) : Nat → Nat → List Char → List Slot
  | _, _, [] => []
  | column, offset, c :: cs =>
    (c, ⟨line, column, offset⟩) :: spread line (column + c.utf8Size) (offset + c.utf8Size) cs

@[simp] theorem map_fst_spread (line column offset : Nat) (cs : List Char) :
    (spread line column offset cs).map Prod.fst = cs := by
  induction cs generalizing column offset with
  | nil => rfl
  | cons c cs ih => simp [spread, ih]

def slots (l : PhysicalLine) : List Slot :=
  spread l.number 1 l.start l.text

/-- What a continuation line adds: all after its first backslash. Offsets are counted as if the line break
before the line came after it. -/
def continuationSlots (l : PhysicalLine) : List Slot :=
  ((spread l.number 1 (l.start - 1) l.text).dropWhile fun slot => slot.1 != '\\').drop 1

def breakPlace (l : PhysicalLine) : Place :=
  ⟨l.number, byteLength l.text + 1, l.start + byteLength l.text⟩

/-- The slots from the end of a physical line on: either the next line continues it, or a newline stands at
the end of it. -/
def slotsAfter (l : PhysicalLine) : List PhysicalLine → List Slot
  | [] => [('\n', l.breakPlace)]
  | m :: ms =>
    if m.isContinuation then m.continuationSlots ++ slotsAfter m ms
    else ('\n', l.breakPlace) :: (m.slots ++ slotsAfter m ms)

end PhysicalLine

/-- The first line continues nothing, whatever it opens with. -/
def bufferSlots : List PhysicalLine → List Slot
  | [] => []
  | l :: ls => l.slots ++ l.slotsAfter ls

/-- The number of bytes of a list of lines, a line break after each included. -/
def textLength : List (List Char) → Nat
  | [] => 0
  | text :: texts => byteLength text + 1 + textLength texts

structure Source where
  chars : Array Char
  places : Array Place
  /-- Where the end of input is reported. -/
  stop : Place
deriving DecidableEq, Repr

namespace Source

def ofChars (lines : List (List Char)) : Source :=
  let slots := bufferSlots (PhysicalLine.ofTexts 1 0 lines)
  { chars := (slots.map Prod.fst).toArray
    places := (slots.map Prod.snd).toArray
    stop := ⟨lines.length + 1, 0, textLength lines⟩ }

/-- The buffer of a script given as lines without line breaks. A newline inside a line ends it in the buffer,
though not in the count of lines. -/
def ofLines (lines : List String) : Source :=
  ofChars (lines.map String.toList)

/-- Writes every line break as a newline. -/
def unifyBreaks : List Char → List Char
  | [] => []
  | '\r' :: '\n' :: cs => '\n' :: unifyBreaks cs
  | '\r' :: cs => '\n' :: unifyBreaks cs
  | c :: cs => c :: unifyBreaks cs

def dropByteOrderMark : List Char → List Char
  | '\ufeff' :: cs => cs
  | cs => cs

/-- The buffer of a script given as text. A final line break is followed by an empty line. -/
def ofText (text : String) : Source :=
  ofChars ((unifyBreaks (dropByteOrderMark text.toList)).splitOn '\n')

def size (s : Source) : Nat :=
  s.chars.size

def char? (s : Source) (i : Nat) : Option Char :=
  s.chars[i]?

def place (s : Source) (i : Nat) : Place :=
  s.places[i]?.getD s.stop

/-- The position at a cursor; past the end of input it shows where the input ended. -/
def position (s : Source) (i : Nat) : Position :=
  .ofPlace i (s.place i)

@[simp] theorem cursor_position (s : Source) (i : Nat) : (s.position i).cursor = i := rfl

def between (s : Source) (i j : Nat) : List Char :=
  (s.chars.extract i j).toList

/-- The text between two cursors, line ends as newlines; empty if they are not in order. -/
def text (s : Source) (i j : Nat) : String :=
  String.ofList (s.between i j)

/-- The end of the run of characters of a class, on one line and at most `n` long, that starts at a cursor. -/
def runEnd (s : Source) (p : Char → Bool) : Nat → Nat → Nat
  | 0, i => i
  | n + 1, i =>
    match s.char? i with
    | some c => if c != '\n' && p c then s.runEnd p n (i + 1) else i
    | none => i

theorem le_runEnd (s : Source) (p : Char → Bool) (n i : Nat) : i ≤ s.runEnd p n i := by
  induction n generalizing i with
  | zero => simp [runEnd]
  | succ n ih =>
    unfold runEnd
    split
    · split
      · exact Nat.le_trans (Nat.le_succ i) (ih (i + 1))
      · exact Nat.le_refl i
    · exact Nat.le_refl i

theorem runEnd_le_add (s : Source) (p : Char → Bool) (n i : Nat) : s.runEnd p n i ≤ i + n := by
  induction n generalizing i with
  | zero => simp [runEnd]
  | succ n ih =>
    unfold runEnd
    split
    · split
      · have h := ih (i + 1)
        omega
      · omega
    · omega

theorem runEnd_le_size (s : Source) (p : Char → Bool) (n i : Nat) (h : i ≤ s.size) :
    s.runEnd p n i ≤ s.size := by
  induction n generalizing i with
  | zero => simpa [runEnd] using h
  | succ n ih =>
    unfold runEnd
    split
    · rename_i c found
      have inside : i < s.size := by
        simp only [char?] at found
        exact (Array.getElem?_eq_some_iff.mp found).1
      split
      · exact ih (i + 1) inside
      · exact h
    · exact h

end Source

end VimScript
