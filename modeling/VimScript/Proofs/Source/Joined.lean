import VimScript.Proofs.Source.Layout

/-!
The characters of a buffer, whatever their places. Lines one after the other are read as one text, and a buffer is that
of its first lines followed by that of the others unless a line is continued across the cut.
-/

set_option autoImplicit false

namespace VimScript

/-- Whether a line opens as the continuation of another. -/
def opensAsContinuation (text : List Char) : Bool :=
  (text.dropWhile isAsciiSpace).head? == some '\\'

namespace Source

/-- What a continuation line adds to the line before it. -/
def continuation (text : List Char) : List Char :=
  (text.dropWhile (· != '\\')).drop 1

/-- The characters from the end of a line on, given the lines after it. -/
def joinedAfter : List (List Char) → List Char
  | [] => ['\n']
  | text :: texts =>
    if opensAsContinuation text then continuation text ++ joinedAfter texts else '\n' :: (text ++ joinedAfter texts)

def joined : List (List Char) → List Char
  | [] => []
  | text :: texts => text ++ joinedAfter texts

open PhysicalLine

theorem map_fst_continuationSlots (l : PhysicalLine) : l.continuationSlots.map Prod.fst = continuation l.text := by
  let slots := spread l.number 1 (l.start - 1) l.text
  have dropped : (slots.map Prod.fst).dropWhile (· != '\\') =
      (slots.dropWhile fun slot => slot.1 != '\\').map Prod.fst := List.dropWhile_map
  rw [map_fst_spread] at dropped
  rw [continuationSlots, List.map_drop, continuation, dropped]

theorem map_fst_slotsAfter (l : PhysicalLine) (number start : Nat) (texts : List (List Char)) :
    (l.slotsAfter (ofTexts number start texts)).map Prod.fst = joinedAfter texts := by
  induction texts generalizing l number start with
  | nil => rfl
  | cons text texts ih =>
    rw [ofTexts, slotsAfter, joinedAfter]
    have same : isContinuation ⟨number, start, text⟩ = opensAsContinuation text := rfl
    rw [same]
    split
    · rw [List.map_append, map_fst_continuationSlots, ih]
    · rw [List.map_cons, List.map_append, ih, slots, map_fst_spread]

theorem chars_ofChars (texts : List (List Char)) : (ofChars texts).chars.toList = joined texts := by
  cases texts with
  | nil => rfl
  | cons text texts =>
    have chars := map_fst_slotsAfter ⟨1, 0, text⟩ 2 (byteLength text + 1) texts
    simpa [ofChars, ofTexts, bufferSlots, joined, slots] using chars

theorem size_ofChars (texts : List (List Char)) : (ofChars texts).size = (joined texts).length := by
  rw [← chars_ofChars, Array.length_toList, size]

variable {xs ys : List (List Char)}

theorem joinedAfter_append (cut : ∀ y ∈ ys.head?, opensAsContinuation y = false) :
    joinedAfter (xs ++ ys) = joinedAfter xs ++ joined ys := by
  induction xs with
  | nil =>
    cases ys with
    | nil => rfl
    | cons y ys =>
      have whole := cut y rfl
      simp [joinedAfter, joined, whole]
  | cons x xs ih =>
    rw [List.cons_append, joinedAfter, joinedAfter, ih]
    split <;> simp

theorem joined_append (cut : ∀ y ∈ ys.head?, opensAsContinuation y = false) :
    joined (xs ++ ys) = joined xs ++ joined ys := by
  cases xs with
  | nil => rfl
  | cons x xs => rw [List.cons_append, joined, joined, joinedAfter_append cut, List.append_assoc]

theorem joinedAfter_closed (xs : List (List Char)) : ∃ front, joinedAfter xs = front ++ ['\n'] := by
  induction xs with
  | nil => exact ⟨[], rfl⟩
  | cons x xs ih =>
    obtain ⟨front, rest⟩ := ih
    rw [joinedAfter, rest]
    split
    · exact ⟨continuation x ++ front, by simp⟩
    · exact ⟨'\n' :: (x ++ front), by simp⟩

/-- A script with a line ends with a newline. -/
theorem joined_closed (some : xs ≠ []) : ∃ front, joined xs = front ++ ['\n'] := by
  obtain ⟨x, xs, rfl⟩ := List.exists_cons_of_ne_nil some
  obtain ⟨front, rest⟩ := joinedAfter_closed xs
  exact ⟨x ++ front, by simp [joined, rest]⟩

theorem joinedAfter_of_plain (plain : ∀ x ∈ xs, opensAsContinuation x = false) : joinedAfter xs = '\n' :: layout xs := by
  induction xs with
  | nil => rfl
  | cons x xs ih =>
    have first := plain x (by simp)
    rw [joinedAfter, first, layout_cons, ih fun other place => plain other (by simp [place])]
    rfl

/-- Without continuation lines the text is that of the lines as they stand. -/
theorem joined_of_plain (x : List Char) (plain : ∀ y ∈ xs, opensAsContinuation y = false) :
    joined (x :: xs) = layout (x :: xs) := by
  rw [joined, joinedAfter_of_plain plain, layout_cons]

/-! ### Lines that are split -/

variable {a b blanks : List Char} {before after : List (List Char)}

/-- A line opens with the first character of it that is no white space, whatever comes later. -/
theorem opensAsContinuation_append (solid : ∃ c ∈ a, isAsciiSpace c = false) (b : List Char) :
    opensAsContinuation (a ++ b) = opensAsContinuation a := by
  induction a with
  | nil =>
    obtain ⟨c, none, -⟩ := solid
    exact absurd none List.not_mem_nil
  | cons d a ih =>
    by_cases space : isAsciiSpace d = true
    · have rest : ∃ c ∈ a, isAsciiSpace c = false := by simpa [space] using solid
      have same := ih rest
      simp only [opensAsContinuation, List.cons_append, List.dropWhile_cons, space] at same ⊢
      exact same
    · simp [opensAsContinuation, space]

theorem continuation_append (opens : opensAsContinuation a = true) (b : List Char) :
    continuation (a ++ b) = continuation a ++ b := by
  induction a with
  | nil => simp [opensAsContinuation] at opens
  | cons d a ih =>
    by_cases mark : d = '\\'
    · simp [continuation, mark]
    · by_cases space : isAsciiSpace d = true
      · have rest : opensAsContinuation a = true := by
          simpa only [opensAsContinuation, List.dropWhile_cons, space, if_true] using opens
        have same := ih rest
        simpa [continuation, mark] using same
      · simp [opensAsContinuation, space, mark] at opens

theorem opensAsContinuation_marked (blank : ∀ c ∈ blanks, isAsciiSpace c = true) (b : List Char) :
    opensAsContinuation (blanks ++ '\\' :: b) = true := by
  rw [opensAsContinuation, List.dropWhile_append_of_pos blank]
  rfl

theorem continuation_marked (blank : ∀ c ∈ blanks, isAsciiSpace c = true) (b : List Char) :
    continuation (blanks ++ '\\' :: b) = b := by
  have plain : ∀ c ∈ blanks, (c != '\\') = true := by
    intro c place
    have other : c ≠ '\\' := by
      rintro rfl
      exact absurd (blank _ place) (by decide)
    simp [other]
  rw [continuation, List.dropWhile_append_of_pos plain]
  rfl

/-- A line that is continued where it was whole before: a continuation line adds all of its own part. -/
theorem joinedAfter_split (solid : ∃ c ∈ a, isAsciiSpace c = false) (blank : ∀ c ∈ blanks, isAsciiSpace c = true)
    (b : List Char) (before after : List (List Char)) :
    joinedAfter (before ++ a :: (blanks ++ '\\' :: b) :: after) = joinedAfter (before ++ (a ++ b) :: after) := by
  have opens := opensAsContinuation_append solid b
  have marked := opensAsContinuation_marked blank b
  have added := continuation_marked blank b
  induction before with
  | nil =>
    simp only [List.nil_append, joinedAfter, marked, added, opens, if_true]
    split
    · rename_i continued
      rw [continuation_append continued, List.append_assoc]
    · rw [List.append_assoc]
  | cons x before ih => simp only [List.cons_append, joinedAfter, ih]

theorem joined_split (solid : ∃ c ∈ a, isAsciiSpace c = false) (blank : ∀ c ∈ blanks, isAsciiSpace c = true)
    (b : List Char) (before after : List (List Char)) :
    joined (before ++ a :: (blanks ++ '\\' :: b) :: after) = joined (before ++ (a ++ b) :: after) := by
  cases before with
  | nil =>
    simp only [List.nil_append, joined, joinedAfter, opensAsContinuation_marked blank b, continuation_marked blank b,
      if_true, List.append_assoc]
  | cons x before => simp only [List.cons_append, joined, joinedAfter_split solid blank b before after]

end Source

end VimScript
