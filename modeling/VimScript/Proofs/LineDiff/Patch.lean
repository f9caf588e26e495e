import VimScript.LineDiff

/-!
Patches read back. A patch is a heading and rows: a row that opens a passage and names the lines it is about, and under
it the lines of the passage with a sign each. A remark after a line says that it has no newline at its end. Passages are
replayed on a text only where it has the lines that they name.
-/

set_option autoImplicit false

namespace VimScript.LineDiff

variable {cs : List Char}

/-! ### Reading -/

namespace Patch

/-- Some lines of a text, the first one counted as zero. -/
structure Range where
  start : Nat
  count : Nat
deriving DecidableEq, Repr

structure Change where
  action : Action
  line : String
deriving DecidableEq, Repr

/-- Lines of both texts that a hunk is about, and what becomes of them. -/
structure Passage where
  old : Range
  new : Range
  changes : List Change
deriving DecidableEq, Repr

def number? (cs : List Char) : Option (Nat × List Char) :=
  match cs.takeWhile Char.isDigit with
  | [] => none
  | digits => some (Nat.ofDigitChars 10 digits 0, cs.dropWhile Char.isDigit)

/-- The first line and the number of lines, which is one if it is left out. The first line is counted as one, and where
there are no lines the one before them is named. -/
def range? (cs : List Char) : Option (Range × List Char) := do
  let (first, rest) ← number? cs
  match rest with
  | ',' :: rest =>
    let (count, rest) ← number? rest
    return (⟨if count = 0 then first else first - 1, count⟩, rest)
  | _ => return (⟨first - 1, 1⟩, rest)

/-- What comes after a word. -/
def after? (word : String) (cs : List Char) : Option (List Char) :=
  if word.toList.isPrefixOf cs then some (cs.drop word.length) else none

def header? (row : List Char) : Option (Range × Range) := do
  let rest ← after? "@@ -" row
  let (old, rest) ← range? rest
  let rest ← after? " +" rest
  let (new, rest) ← range? rest
  if rest = " @@".toList then return (old, new) else none

def remark : String := "\\ No newline at end of file"

/-- What the last rows of a patch come to: whole passages, the lines of one whose header is still to come, and whether
the first of the rows was a remark. -/
structure Reading where
  passages : List Passage := []
  changes : List Change := []
  unbroken : Bool := false

namespace Reading

def put (action : Action) (line : List Char) (r : Reading) : Reading :=
  { r with
    changes := ⟨action, String.ofList (if r.unbroken then line else line ++ ['\n'])⟩ :: r.changes
    unbroken := false }

/-- A row before all those that were read. -/
def before (row : List Char) (r : Reading) : Option Reading :=
  match row with
  | ' ' :: line => some (r.put .keep line)
  | '-' :: line => some (r.put .drop line)
  | '+' :: line => some (r.put .add line)
  | '\\' :: _ => if row = remark.toList ∧ r.unbroken = false then some { r with unbroken := true } else none
  | '@' :: _ =>
    if r.unbroken then none
    else (header? row).map fun (old, new) => { passages := ⟨old, new, r.changes⟩ :: r.passages }
  | _ => none

/-- Rows are read from the last one on, because a remark concerns the line before it. -/
def ofRows : List (List Char) → Option Reading
  | [] => some {}
  | row :: rows => (ofRows rows).bind (before row)

end Reading

/-- The lines of the old text among some changes. -/
def oldLines (changes : List Change) : List String :=
  (changes.filter (·.action != .add)).map (·.line)

/-- The lines of the new text among some changes. -/
def newLines (changes : List Change) : List String :=
  (changes.filter (·.action != .drop)).map (·.line)

@[simp] theorem oldLines_append (first second : List Change) :
    oldLines (first ++ second) = oldLines first ++ oldLines second := by
  simp [oldLines]

@[simp] theorem newLines_append (first second : List Change) :
    newLines (first ++ second) = newLines first ++ newLines second := by
  simp [newLines]

theorem oldLines_map (action : Action) (lines : List String) :
    oldLines (lines.map (⟨action, ·⟩)) = if action = .add then [] else lines := by
  cases action <;> simp [oldLines, List.filter_map, Function.comp_def]

theorem newLines_map (action : Action) (lines : List String) :
    newLines (lines.map (⟨action, ·⟩)) = if action = .drop then [] else lines := by
  cases action <;> simp [newLines, List.filter_map, Function.comp_def]

/-- A passage is in place behind a number of lines of the old text and of the new one: it starts as many lines later in
both, names as many lines as it has, and the old text has those that it keeps or drops. -/
def Passage.InPlace (old : List String) (a b : Nat) (p : Passage) : Prop :=
  a ≤ p.old.start ∧ p.new.start = b + (p.old.start - a) ∧ (oldLines p.changes).length = p.old.count ∧
    (newLines p.changes).length = p.new.count ∧ (old.drop p.old.start).take p.old.count = oldLines p.changes

instance (old : List String) (a b : Nat) (p : Passage) : Decidable (p.InPlace old a b) :=
  inferInstanceAs (Decidable (_ ∧ _))

/-- The lines that come of the old ones behind a number of old lines and of new ones: what is between the passages stays
as it is. -/
def apply (old : List String) : Nat → Nat → List Passage → Option (List String)
  | a, _, [] => some (old.drop a)
  | a, b, p :: rest =>
    if p.InPlace old a b then
      (apply old (p.old.start + p.old.count) (p.new.start + p.new.count) rest).map fun more =>
        (old.drop a).take (p.old.start - a) ++ newLines p.changes ++ more
    else none

theorem number?_append (n : Nat) (stop : ∀ c ∈ cs.head?, c.isDigit = false) :
    number? ((toString n).toList ++ cs) = some (n, cs) := by
  have text : (toString n).toList = Nat.toDigits 10 n := Nat.toList_repr
  have digits : ∀ c ∈ Nat.toDigits 10 n, c.isDigit = true := fun c => Nat.isDigit_of_mem_toDigits (by simp) (by simp)
  have rest : cs.takeWhile Char.isDigit = [] ∧ cs.dropWhile Char.isDigit = cs := by
    cases cs with
    | nil => exact ⟨rfl, rfl⟩
    | cons c cs => simp [stop c rfl]
  have taken : (Nat.toDigits 10 n ++ cs).takeWhile Char.isDigit = Nat.toDigits 10 n := by
    rw [List.takeWhile_append_of_pos digits, rest.1, List.append_nil]
  have left : (Nat.toDigits 10 n ++ cs).dropWhile Char.isDigit = cs := by
    rw [List.dropWhile_append_of_pos digits, rest.2]
  rw [text, number?, taken, left]
  split
  · rename_i none
    exact absurd none Nat.toDigits_ne_nil
  · rw [Nat.ofDigitChars_toDigits (by simp) (by simp)]

theorem range?_rangeText (a b : Nat) (stop : ∀ c ∈ cs.head?, c.isDigit = false ∧ c ≠ ',') :
    range? ((Hunk.rangeText a b).toList ++ cs) = some (⟨a, b - a⟩, cs) := by
  have plain : ∀ c ∈ cs.head?, c.isDigit = false := fun c first => (stop c first).1
  have counted (n m : Nat) : range? ((toString n).toList ++ ',' :: ((toString m).toList ++ cs)) =
      some (⟨if m = 0 then n else n - 1, m⟩, cs) := by
    have comma : ∀ c ∈ (',' :: ((toString m).toList ++ cs)).head?, c.isDigit = false := by
      rintro _ ⟨⟩
      decide
    simp only [range?, number?_append n comma, number?_append m plain, Option.bind_eq_bind, Option.bind_some,
      Option.pure_def]
  unfold Hunk.rangeText
  split
  · rename_i none
    rw [String.toList_append, List.append_assoc, none]
    exact counted a 0
  · rename_i one
    rw [range?, number?_append (a + 1) plain, one]
    cases cs with
    | nil => rfl
    | cons c cs =>
      have other : c ≠ ',' := (stop c rfl).2
      simp [other]
  · rename_i some _
    rw [String.toList_append, String.toList_append, List.append_assoc, List.append_assoc]
    refine (counted (a + 1) (b - a)).trans ?_
    rw [if_neg some, Nat.add_sub_cancel]

theorem after?_append (word : String) (cs : List Char) : after? word (word.toList ++ cs) = some cs := by
  rw [after?, if_pos (List.isPrefixOf_iff_prefix.mpr (List.prefix_append _ _)), ← String.length_toList, List.drop_left]

/-- The row that opens a passage. -/
def headerRow (a a' b b' : Nat) : List Char :=
  "@@ -".toList ++ ((Hunk.rangeText a a').toList ++ (" +".toList ++ ((Hunk.rangeText b b').toList ++ " @@".toList)))

/-- It names the ranges that it was made from. -/
theorem header?_headerRow (a a' b b' : Nat) : header? (headerRow a a' b b') = some (⟨a, a' - a⟩, ⟨b, b' - b⟩) := by
  have blank {cs : List Char} : ∀ c ∈ (' ' :: cs).head?, c.isDigit = false ∧ c ≠ ',' := by
    rintro _ ⟨⟩
    decide
  have second : range? ((Hunk.rangeText b b').toList ++ " @@".toList) = some (⟨b, b' - b⟩, " @@".toList) :=
    range?_rangeText b b' blank
  have first {cs : List Char} : range? ((Hunk.rangeText a a').toList ++ (" +".toList ++ cs)) =
      some (⟨a, a' - a⟩, " +".toList ++ cs) := range?_rangeText a a' blank
  delta headerRow
  simp only [header?, after?_append, first, second, Option.bind_eq_bind, Option.bind_some, Option.pure_def,
    if_true]

theorem before_headerRow (a a' b b' : Nat) {r : Reading} (whole : r.unbroken = false) :
    Reading.before (headerRow a a' b b') r =
      some { passages := ⟨⟨a, a' - a⟩, ⟨b, b' - b⟩, r.changes⟩ :: r.passages } := by
  have row : headerRow a a' b b' = '@' :: ("@ -".toList ++ ((Hunk.rangeText a a').toList ++ (" +".toList ++
    ((Hunk.rangeText b b').toList ++ " @@".toList)))) := rfl
  have read := header?_headerRow a a' b b'
  rw [row] at read ⊢
  simp only [Reading.before, whole, read, Option.map_some, Bool.false_eq_true, if_false]

theorem newline_notMem_rangeText (a b : Nat) : '\n' ∉ (Hunk.rangeText a b).toList := by
  have digits (n : Nat) : '\n' ∉ (toString n).toList := by
    intro inside
    have text : (toString n).toList = Nat.toDigits 10 n := Nat.toList_repr
    have digit := Nat.isDigit_of_mem_toDigits (by simp) (by simp) (text ▸ inside)
    exact absurd digit (by decide)
  unfold Hunk.rangeText
  split
  · simp only [String.toList_append, List.mem_append, not_or]
    exact ⟨digits a, by decide⟩
  · exact digits (a + 1)
  · simp only [String.toList_append, List.mem_append, not_or]
    exact ⟨⟨digits (a + 1), by decide⟩, digits (b - a)⟩

theorem newline_notMem_headerRow (a a' b b' : Nat) : '\n' ∉ headerRow a a' b b' := by
  delta headerRow
  simp [newline_notMem_rangeText]

end Patch

end VimScript.LineDiff
