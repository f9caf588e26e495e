import VimScript.LineDiff.Slide

/-!
Edits gathered into stretches, stretches into hunks with some lines of context, and hunks as text.
-/

set_option autoImplicit false

namespace VimScript.LineDiff

/-- Lines that are kept, or lines that give way to others, with the places recorded for them. -/
structure Stretch where
  isKept : Bool
  old : Nat
  new : Nat
  oldCount : Nat
  newCount : Nat
deriving DecidableEq, Repr

namespace Stretch

/-- Puts an edit in front of a list of stretches. Kept lines join kept lines; lines that are dropped and lines
that are added next to each other make one stretch, whose places are those of its first dropped lines if it
drops any in the old text, and of its first added lines if it adds any in the new one. -/
def join (e : Edit) (rest : List Stretch) : List Stretch :=
  match e.action, rest with
  | .keep, s :: tail =>
    if s.isKept then ⟨true, e.old, e.new, e.count + s.oldCount, e.count + s.newCount⟩ :: tail
    else ⟨true, e.old, e.new, e.count, e.count⟩ :: rest
  | .drop, s :: tail =>
    if s.isKept then ⟨false, e.old, e.new, e.count, 0⟩ :: rest
    else
      ⟨false, e.old, if s.newCount = 0 then e.new else s.new, e.count + s.oldCount, s.newCount⟩ :: tail
  | .add, s :: tail =>
    if s.isKept then ⟨false, e.old, e.new, 0, e.count⟩ :: rest
    else
      ⟨false, if s.oldCount = 0 then e.old else s.old, e.new, s.oldCount, e.count + s.newCount⟩ :: tail
  | .keep, [] => [⟨true, e.old, e.new, e.count, e.count⟩]
  | .drop, [] => [⟨false, e.old, e.new, e.count, 0⟩]
  | .add, [] => [⟨false, e.old, e.new, 0, e.count⟩]

def ofEdits (es : List Edit) : List Stretch :=
  es.foldr join []

/-- The first lines of a kept stretch. -/
def head (s : Stretch) (n : Nat) : Stretch :=
  { s with oldCount := min n s.oldCount, newCount := min n s.newCount }

/-- The last lines of a kept stretch. -/
def tail (s : Stretch) (n : Nat) : Stretch :=
  let passed := s.oldCount - n
  { s with
    old := s.old + passed
    new := s.new + passed
    oldCount := s.oldCount - passed
    newCount := s.newCount - passed }

end Stretch

abbrev Hunk := List Stretch

namespace Hunk

/-- Kept lines at the start are cut down to the last few. -/
def trimStart (radius : Nat) : List Stretch → List Stretch
  | [] => []
  | s :: rest => (if s.isKept then s.tail radius else s) :: rest

/-- Kept lines at the end are cut down to the first few. -/
def trimStop (radius : Nat) : List Stretch → List Stretch
  | [] => []
  | [s] => [if s.isKept then s.head radius else s]
  | s :: rest => s :: trimStop radius rest

/-- A last hunk is shown if something changes in it. -/
def ofLast : List Stretch → List Hunk
  | [] => []
  | [s] => if s.isKept then [] else [[s]]
  | stretches => [stretches]

/-- Cuts stretches in two wherever more lines are kept than the context of both sides takes. The open hunk is
given with its last stretch first. -/
def split (radius : Nat) (opened : List Stretch) : List Stretch → List Hunk
  | [] => ofLast opened.reverse
  | s :: rest =>
    if s.isKept && 2 * radius < s.oldCount then
      (s.head radius :: opened).reverse :: split radius [s.tail radius] rest
    else split radius (s :: opened) rest

def ofStretches (radius : Nat) (stretches : List Stretch) : List Hunk :=
  split radius [] (trimStop radius (trimStart radius stretches))

/-- A range of lines, the first one counted as one. An empty range stands after the line it names; the length
one is left out. -/
def rangeText (start stop : Nat) : String :=
  match stop - start with
  | 0 => toString start ++ ",0"
  | 1 => toString (start + 1)
  | n => toString (start + 1) ++ "," ++ toString n

/-- The line that opens a hunk. Its ranges reach from the start of the first stretch
to the stop of the last. -/
def header (h : Hunk) : String :=
  match h.head?, h.getLast? with
  | some first, some last =>
    "@@ -" ++ rangeText first.old (last.old + last.oldCount) ++
      " +" ++ rangeText first.new (last.new + last.newCount) ++ " @@\n"
  | _, _ => ""

/-- A line under its sign. A line that does not end with a newline is given one, and a remark after it. -/
def lineText (sign line : String) : String :=
  sign ++ line ++
    if line.toList.getLast? == some '\n' then "" else "\n\\ No newline at end of file\n"

def linesText (sign : String) (lines : List String) (start count : Nat) : String :=
  String.join (((lines.drop start).take count).map (lineText sign))

def stretchText (old new : List String) (s : Stretch) : String :=
  if s.isKept then linesText " " old s.old s.oldCount
  else linesText "-" old s.old s.oldCount ++ linesText "+" new s.new s.newCount

def text (old new : List String) (h : Hunk) : String :=
  header h ++ String.join (h.map (stretchText old new))

end Hunk

end VimScript.LineDiff
