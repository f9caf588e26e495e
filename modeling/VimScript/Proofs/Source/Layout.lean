import VimScript.Proofs.Source.Ahead

/-!
The buffer of a script without continuation lines: its lines one after the other, each with a newline, and every
cursor on the line it is in.
-/

set_option autoImplicit false

namespace VimScript

namespace PhysicalLine

/-- The slots of a line that is not continued. -/
def whole (l : PhysicalLine) : List Slot :=
  l.slots ++ [('\n', l.breakPlace)]

theorem map_fst_whole (l : PhysicalLine) : l.whole.map Prod.fst = l.text ++ ['\n'] := by
  simp [whole, slots]

/-- A line starts at its first column, its newline included. -/
theorem exists_whole (l : PhysicalLine) : ∃ c others, l.whole = (c, ⟨l.number, 1, l.start⟩) :: others := by
  obtain ⟨number, start, text⟩ := l
  cases text with
  | nil => exact ⟨'\n', [], rfl⟩
  | cons c cs => exact ⟨c, _, rfl⟩

theorem slotsAfter_of_plain (l : PhysicalLine) (ls : List PhysicalLine)
    (plain : ∀ m ∈ ls, m.isContinuation = false) :
    l.slotsAfter ls = ('\n', l.breakPlace) :: ls.flatMap whole := by
  induction ls generalizing l with
  | nil => rfl
  | cons m ms ih =>
    have first := plain m (by simp)
    simp [slotsAfter, first, ih m fun other place => plain other (by simp [place]), whole]

theorem bufferSlots_of_plain (ls : List PhysicalLine) (plain : ∀ m ∈ ls, m.isContinuation = false) :
    bufferSlots ls = ls.flatMap whole := by
  cases ls with
  | nil => rfl
  | cons l ls =>
    simp [bufferSlots, slotsAfter_of_plain l ls fun m place => plain m (by simp [place]), whole]

theorem ofTexts_append (number start : Nat) (xs ys : List (List Char)) :
    ofTexts number start (xs ++ ys) =
      ofTexts number start xs ++ ofTexts (number + xs.length) (start + textLength xs) ys := by
  induction xs generalizing number start with
  | nil => rfl
  | cons x xs ih =>
    have line : number + 1 + xs.length = number + (x :: xs).length := by simp; omega
    have offset : start + byteLength x + 1 + textLength xs = start + textLength (x :: xs) := by
      simp only [textLength]
      omega
    simp only [List.cons_append, ofTexts, ih, line, offset]

theorem map_text_ofTexts (number start : Nat) (texts : List (List Char)) :
    (ofTexts number start texts).map text = texts := by
  induction texts generalizing number start with
  | nil => rfl
  | cons x xs ih => simp [ofTexts, ih]

end PhysicalLine

namespace Source

/-- Lines one after the other, each with a newline at its end. -/
def layout (texts : List (List Char)) : List Char :=
  texts.flatMap (· ++ ['\n'])

theorem layout_cons (text : List Char) (texts : List (List Char)) :
    layout (text :: texts) = text ++ '\n' :: layout texts := by
  simp [layout]

theorem layout_append (xs ys : List (List Char)) : layout (xs ++ ys) = layout xs ++ layout ys :=
  List.flatMap_append

theorem length_le_layout (texts : List (List Char)) : texts.length ≤ (layout texts).length := by
  induction texts with
  | nil => exact Nat.zero_le _
  | cons text texts ih =>
    simp only [layout, List.flatMap_cons, List.length_append, List.length_cons] at ih ⊢
    omega

/-- No line opens like the continuation of another. -/
def Plain (texts : List (List Char)) : Prop :=
  ∀ text ∈ texts, (text.dropWhile isAsciiSpace).head? ≠ some '\\'

open PhysicalLine

theorem bufferSlots_ofTexts {texts : List (List Char)} (plain : Plain texts) (number start : Nat) :
    bufferSlots (ofTexts number start texts) = (ofTexts number start texts).flatMap whole := by
  refine bufferSlots_of_plain _ fun m place => ?_
  have text : m.text ∈ texts := by
    rw [← map_text_ofTexts number start texts]
    exact List.mem_map_of_mem place
  simpa [isContinuation] using plain m.text text

theorem map_fst_slots (number start : Nat) (texts : List (List Char)) :
    ((ofTexts number start texts).flatMap whole).map Prod.fst = layout texts := by
  rw [List.map_flatMap]
  simp only [map_fst_whole]
  rw [layout, ← map_text_ofTexts number start texts, List.flatMap_map, map_text_ofTexts]

theorem ahead_ofChars {texts : List (List Char)} (plain : Plain texts) : (ofChars texts).ahead 0 = layout texts := by
  simp [ahead, ofChars, bufferSlots_ofTexts plain, map_fst_slots]

/-- The first cursor of a line shows where the line is. -/
theorem place_layout {xs ys : List (List Char)} {text : List Char} (plain : Plain (xs ++ text :: ys)) :
    (ofChars (xs ++ text :: ys)).place (layout xs).length = ⟨xs.length + 1, 1, textLength xs⟩ := by
  obtain ⟨c, others, head⟩ := exists_whole ⟨1 + xs.length, 0 + textLength xs, text⟩
  have slots : bufferSlots (ofTexts 1 0 (xs ++ text :: ys)) =
      (ofTexts 1 0 xs).flatMap whole ++ (c, ⟨1 + xs.length, 1, 0 + textLength xs⟩) ::
        (others ++ (ofTexts (1 + xs.length + 1) (0 + textLength xs + byteLength text + 1) ys).flatMap whole) := by
    rw [bufferSlots_ofTexts plain, ofTexts_append, List.flatMap_append, ofTexts, List.flatMap_cons, head]
    rfl
  have length : (layout xs).length = ((ofTexts 1 0 xs).flatMap whole).length := by
    rw [← map_fst_slots 1 0 xs, List.length_map]
  simp only [place, ofChars, slots, length, List.map_append, List.map_cons, List.getElem?_toArray]
  rw [List.getElem?_append_right (by simp), List.length_map, Nat.sub_self, List.getElem?_cons_zero, Option.getD_some,
    Nat.add_comm, Nat.zero_add]

end Source

end VimScript
