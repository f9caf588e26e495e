import Mathlib.Data.List.Infix
import VimScript.Proofs.Source.Joined

/-!
Logical lines. A line and the lines right behind it that open as continuations are one line of the buffer. Every character
of the buffer is reported at the line and column it was given at, and the offsets of the buffer grow with the cursor.
-/

set_option autoImplicit false

namespace VimScript

namespace Source

/-! ### What the buffer should be -/

/-- A line with its number, and the lines right behind it that continue it. -/
structure LogicalLine where
  first : List Char × Nat
  more : List (List Char × Nat)

def logicalLines : List (List Char × Nat) → List LogicalLine
  | [] => []
  | first :: rest =>
    ⟨first, rest.takeWhile fun line => opensAsContinuation line.1⟩ ::
      logicalLines (rest.dropWhile fun line => opensAsContinuation line.1)
termination_by lines => lines.length
decreasing_by exact Nat.lt_succ_of_le (List.dropWhile_sublist _).length_le

/-- The characters of a line, each with the number of the line and with its column. A column counts the bytes before the
character, from one on. -/
def marks (line : List Char × Nat) : List (Char × Nat × Nat) :=
  line.1.mapIdx fun k c => (c, line.2, byteLength (line.1.take k) + 1)

namespace LogicalLine

def last (l : LogicalLine) : List Char × Nat :=
  l.more.getLastD l.first

def text (l : LogicalLine) : List Char :=
  l.first.1 ++ l.more.flatMap (fun line => line.1.drop (line.1.idxOf '\\' + 1)) ++ ['\n']

def marks (l : LogicalLine) : List (Char × Nat × Nat) :=
  Source.marks l.first ++ l.more.flatMap (fun line => (Source.marks line).drop (line.1.idxOf '\\' + 1)) ++
    [('\n', l.last.2, byteLength l.last.1 + 1)]

theorem map_fst_marks (l : LogicalLine) : l.marks.map Prod.fst = l.text := by
  have fst (line : List Char × Nat) : (Source.marks line).map Prod.fst = line.1 := by
    simp [Source.marks, List.mapIdx_eq_zipIdx_map, Function.comp_def, List.zipIdx_map_fst]
  simp [marks, text, List.map_flatMap, List.map_drop, fst]

end LogicalLine

/-- The places of all slots of a buffer: one for each character, and one for the end of input. -/
def slots (s : Source) : List Place :=
  s.places.toList ++ [s.stop]

theorem place_eq_slots (s : Source) (i : Nat) : s.place i = s.slots.getD i s.stop := by
  rw [place, slots, List.getD_eq_getElem?_getD, ← Array.getElem?_toList]
  rcases Nat.lt_trichotomy i s.places.toList.length with inside | rfl | past
  · rw [List.getElem?_append_left inside]
  · rw [List.getElem?_eq_none (Nat.le_refl _), List.getElem?_concat_length]
    rfl
  · rw [List.getElem?_eq_none (Nat.le_of_lt past), List.getElem?_eq_none (by rw [List.length_append]; exact past)]

end Source

/-! ### Lines and columns -/

namespace PhysicalLine

open Source (LogicalLine logicalLines marks)

def numbered (l : PhysicalLine) : List Char × Nat :=
  (l.text, l.number)

/-- What is reported of a slot, apart from its offset. -/
def mark (slot : Slot) : Char × Nat × Nat :=
  (slot.1, slot.2.line, slot.2.column)

theorem map_mark_spread (line column offset : Nat) (cs : List Char) :
    (spread line column offset cs).map mark = cs.mapIdx fun k c => (c, line, byteLength (cs.take k) + column) := by
  induction cs generalizing column offset with
  | nil => rfl
  | cons c cs ih =>
    rw [spread, List.map_cons, ih, List.mapIdx_cons]
    simp [mark, byteLength, Nat.add_comm, Nat.add_assoc]

theorem map_mark_slots (l : PhysicalLine) : l.slots.map mark = marks l.numbered :=
  map_mark_spread l.number 1 l.start l.text

theorem map_mark_continuationSlots (l : PhysicalLine) :
    l.continuationSlots.map mark = (marks l.numbered).drop (l.text.idxOf '\\' + 1) := by
  let slots := spread l.number 1 (l.start - 1) l.text
  -- The first backslash among the slots is the first one of the text.
  have index : slots.findIdx (fun slot => !(slot.1 != '\\')) = l.text.idxOf '\\' := by
    have found := List.findIdx_map slots Prod.fst fun c => c == '\\'
    rw [map_fst_spread] at found
    simpa [List.idxOf, Function.comp_def, bne] using found.symm
  rw [continuationSlots, List.dropWhile_eq_drop_findIdx_not, index, List.drop_drop, List.map_drop, map_mark_spread]
  rfl

/-- From the end of a line on: what its continuations add, the newline, and the lines behind them. -/
theorem slotsAfter_eq (l : PhysicalLine) (ms : List PhysicalLine) :
    l.slotsAfter ms = (ms.takeWhile isContinuation).flatMap continuationSlots ++
      ('\n', ((ms.takeWhile isContinuation).getLastD l).breakPlace) :: bufferSlots (ms.dropWhile isContinuation) := by
  induction ms generalizing l with
  | nil => rfl
  | cons m ms ih =>
    cases opens : m.isContinuation with
    | true => simp [slotsAfter, opens, ih m, List.getLast?_cons]
    | false => simp [slotsAfter, opens, bufferSlots]

theorem map_mark_bufferSlots : ∀ ls : List PhysicalLine,
    (bufferSlots ls).map mark = (logicalLines (ls.map numbered)).flatMap LogicalLine.marks
  | [] => by simp [bufferSlots, logicalLines]
  | l :: ls => by
    have behind := map_mark_bufferSlots (ls.dropWhile isContinuation)
    have opens : (fun line : List Char × Nat => opensAsContinuation line.1) ∘ numbered = isContinuation := rfl
    have last : ((ls.takeWhile isContinuation).map numbered).getLastD l.numbered =
        ((ls.takeWhile isContinuation).getLastD l).numbered := List.getLastD_map
    rw [bufferSlots, slotsAfter_eq, List.map_cons, logicalLines, List.takeWhile_map, List.dropWhile_map, opens]
    simp only [List.map_append, List.map_cons, List.map_flatMap, map_mark_slots, map_mark_continuationSlots, behind,
      List.flatMap_cons, LogicalLine.marks, LogicalLine.last, last, List.flatMap_map, List.append_assoc]
    rfl
termination_by ls => ls.length
decreasing_by exact Nat.lt_succ_of_le (List.dropWhile_sublist _).length_le

theorem map_numbered_ofTexts (number start : Nat) (texts : List (List Char)) :
    (ofTexts number start texts).map numbered = texts.zipIdx number := by
  induction texts generalizing number start with
  | nil => rfl
  | cons text texts ih => simp [ofTexts, numbered, ih]

/-! ### Offsets -/

/-- Offsets that grow from slot to slot, from one bound on and below another one. -/
structure Rising (low high : Nat) (slots : List Slot) : Prop where
  within : ∀ slot ∈ slots, low ≤ slot.2.offset ∧ slot.2.offset < high
  grows : slots.Pairwise fun one other => one.2.offset < other.2.offset

variable {low mid high : Nat} {xs ys : List Slot}

theorem Rising.nil (low high : Nat) : Rising low high [] :=
  ⟨by simp, .nil⟩

theorem Rising.append (front : Rising low mid xs) (back : Rising mid high ys) (up : low ≤ mid) (up' : mid ≤ high) :
    Rising low high (xs ++ ys) where
  within slot place := by
    rcases List.mem_append.mp place with first | second
    · have bounds := front.within slot first
      omega
    · have bounds := back.within slot second
      omega
  grows := by
    refine List.pairwise_append.mpr ⟨front.grows, back.grows, fun one first other second => ?_⟩
    have before := front.within one first
    have after := back.within other second
    omega

theorem Rising.single (slot : Slot) : Rising slot.2.offset (slot.2.offset + 1) [slot] :=
  ⟨by simp, List.pairwise_singleton ..⟩

theorem Rising.sublist (h : Rising low high ys) (part : List.Sublist xs ys) : Rising low high xs :=
  ⟨fun slot place => h.within slot (part.subset place), h.grows.sublist part⟩

theorem rising_spread (line column offset : Nat) (cs : List Char) :
    Rising offset (offset + byteLength cs) (spread line column offset cs) := by
  induction cs generalizing column offset with
  | nil => exact .nil _ _
  | cons c cs ih =>
    have size := c.utf8Size_pos
    have first : Rising offset (offset + c.utf8Size) [(c, (⟨line, column, offset⟩ : Place))] :=
      ⟨by simp [size], List.pairwise_singleton ..⟩
    have whole := first.append (ih (column + c.utf8Size) (offset + c.utf8Size)) (by omega) (by omega)
    rwa [Nat.add_assoc] at whole

theorem rising_continuationSlots (l : PhysicalLine) :
    Rising (l.start - 1) (l.start - 1 + byteLength l.text) l.continuationSlots :=
  (rising_spread l.number 1 (l.start - 1) l.text).sublist ((List.drop_sublist ..).trans (List.dropWhile_sublist _))

theorem rising_slotsAfter (l : PhysicalLine) (number : Nat) (texts : List (List Char)) :
    Rising (l.start + byteLength l.text) (l.start + byteLength l.text + 1 + textLength texts)
      (l.slotsAfter (ofTexts number (l.start + byteLength l.text + 1) texts)) := by
  induction texts generalizing l number with
  | nil => exact .single ('\n', l.breakPlace)
  | cons text texts ih =>
    let m : PhysicalLine := ⟨number, l.start + byteLength l.text + 1, text⟩
    have rest := ih m (number + 1)
    have total : m.start + byteLength m.text + 1 + textLength texts =
        l.start + byteLength l.text + 1 + textLength (text :: texts) := by
      simp only [m, textLength]
      omega
    rw [total] at rest
    rw [ofTexts, slotsAfter]
    split
    · -- The line break in front of a continuation is counted behind it, where the next slot is at the earliest.
      have added := rising_continuationSlots m
      have gap : Rising (l.start + byteLength l.text) (m.start + byteLength m.text) m.continuationSlots := by
        refine ⟨fun slot place => ?_, added.grows⟩
        have bounds := added.within slot place
        simp only [m] at bounds ⊢
        omega
      exact gap.append rest (by simp only [m]; omega) (by rw [← total]; omega)
    · have line : Rising m.start (m.start + byteLength m.text) m.slots := rising_spread number 1 m.start text
      have behind := line.append rest (by omega) (by rw [← total]; omega)
      exact (Rising.single ('\n', l.breakPlace)).append behind (by simp) (by rw [← total]; simp only [m, breakPlace]; omega)

theorem rising_bufferSlots (texts : List (List Char)) : Rising 0 (textLength texts) (bufferSlots (ofTexts 1 0 texts)) := by
  cases texts with
  | nil => exact .nil _ _
  | cons text texts =>
    let l : PhysicalLine := ⟨1, 0, text⟩
    have line : Rising 0 (0 + byteLength text) l.slots := rising_spread 1 1 0 text
    have whole := line.append (rising_slotsAfter l 2 texts) (by omega) (by simp only [l]; omega)
    simpa [textLength, l, bufferSlots, ofTexts] using whole

end PhysicalLine

/-! ### The whole buffer -/

namespace Source

open PhysicalLine

/-- The buffer has the characters of the logical lines, each at the line and column it was given at, and a newline at the end
of the last line of each. There is one slot more than characters, behind the last line, and offsets grow from slot to
slot. -/
theorem ofLines_slots (lines : List String) :
    let s := ofLines lines
    let logical := logicalLines ((lines.map String.toList).zipIdx 1)
    s.chars.toList = logical.flatMap LogicalLine.text ∧
      s.chars.toList.zip (s.slots.map fun place => (place.line, place.column)) = logical.flatMap LogicalLine.marks ∧
      s.slots.length = s.size + 1 ∧
      (s.slots.getLast?.map fun place => (place.line, place.column)) = some (lines.length + 1, 0) ∧
      (s.slots.map Place.offset).Pairwise (· < ·) ∧
      ∀ i, s.position i = .ofPlace i (s.slots.getD i s.stop) := by
  intro s logical
  let texts := lines.map String.toList
  let buffer := bufferSlots (ofTexts 1 0 texts)
  have chars : s.chars.toList = buffer.map Prod.fst := by simp [s, ofLines, ofChars, buffer, texts]
  have places : s.places.toList = buffer.map Prod.snd := by simp [s, ofLines, ofChars, buffer, texts]
  have reported : buffer.map mark = logical.flatMap LogicalLine.marks := by
    rw [map_mark_bufferSlots, map_numbered_ofTexts]
  have size : s.places.toList.length = s.size := by
    rw [size, ← Array.length_toList, chars, places, List.length_map, List.length_map]
  refine ⟨?_, ?_, ?_, ?_, ?_, fun i => congrArg (Position.ofPlace i) (s.place_eq_slots i)⟩
  · have fst := congrArg (List.map Prod.fst) reported
    rw [List.map_map, List.map_flatMap] at fst
    simp only [LogicalLine.map_fst_marks] at fst
    rw [chars, ← fst]
    rfl
  · have short : s.chars.toList.length = (s.places.toList.map fun place => (place.line, place.column)).length := by
      rw [List.length_map, size, Array.length_toList]
      rfl
    rw [slots, List.map_append, ← List.append_nil s.chars.toList, List.zip_append short, List.zip_nil_left,
      List.append_nil, chars, places, List.map_map, ← reported]
    simp [List.zip_map', mark, Function.comp_def]
  · simp [slots, size]
  · have stop : s.stop = ⟨lines.length + 1, 0, textLength texts⟩ := by simp [s, ofLines, ofChars, texts]
    simp [slots, stop]
  · have rising := rising_bufferSlots texts
    have stop : s.stop.offset = textLength texts := rfl
    rw [slots, List.map_append, places, List.map_map]
    refine List.pairwise_append.mpr ⟨List.pairwise_map.mpr rising.grows, List.pairwise_singleton .., ?_⟩
    intro offset place last end_
    obtain ⟨slot, inside, rfl⟩ := List.mem_map.mp place
    have below := (rising.within slot inside).2
    simp_all

end Source

end VimScript
