import Mathlib.Data.List.DropRight
import VimScript.Proofs.Source.Joined

/-!
Byte offsets. Every character of the buffer is reported where it stands in the lines joined by line breaks, except that
the offsets on a continuation line are too small by one: the line break before such a line is counted behind it.
-/

set_option autoImplicit false

namespace VimScript

open Source (layout)

/-! ### Where a text goes on -/

/-- The place at which a text goes on behind its first characters. -/
def Place.behind (front : List Char) : Place :=
  ⟨front.count '\n' + 1, byteLength (front.rtakeWhile (· != '\n')) + 1, byteLength front⟩

variable {xs : List (List Char)} {a : List Char}

theorem byteLength_layout (xs : List (List Char)) : byteLength (layout xs) = textLength xs := by
  induction xs with
  | nil => rfl
  | cons x xs ih =>
    have newline : '\n'.utf8Size = 1 := rfl
    rw [Source.layout_cons, byteLength_append, byteLength, ih, textLength, newline]
    omega

theorem count_layout (whole : ∀ x ∈ xs, '\n' ∉ x) : (layout xs).count '\n' = xs.length := by
  induction xs with
  | nil => rfl
  | cons x xs ih =>
    rw [List.forall_mem_cons] at whole
    rw [Source.layout_cons, List.count_append, List.count_eq_zero_of_not_mem whole.1, List.count_cons_self, ih whole.2,
      List.length_cons, Nat.zero_add]

/-- What stands behind the last line break of a text. -/
theorem rtakeWhile_layout (xs : List (List Char)) (line : '\n' ∉ a) : (layout xs ++ a).rtakeWhile (· != '\n') = a := by
  have inside : ∀ c ∈ a.reverse, (c != '\n') = true := by
    intro c place
    rw [List.mem_reverse] at place
    simpa using ne_of_mem_of_not_mem place line
  have stop : (layout xs).reverse.takeWhile (· != '\n') = [] := by
    rcases List.eq_nil_or_concat xs with rfl | ⟨ys, y, rfl⟩
    · rfl
    · simp [layout]
  rw [List.rtakeWhile, List.reverse_append, List.takeWhile_append_of_pos inside, stop, List.append_nil, List.reverse_reverse]

theorem Place.behind_layout (whole : ∀ x ∈ xs, '\n' ∉ x) (line : '\n' ∉ a) :
    Place.behind (layout xs ++ a) = ⟨xs.length + 1, byteLength a + 1, textLength xs + byteLength a⟩ := by
  rw [Place.behind, List.count_append, count_layout whole, List.count_eq_zero_of_not_mem line, rtakeWhile_layout xs line,
    byteLength_append, byteLength_layout]

/-! ### The lines that slots come from -/

namespace PhysicalLine

variable {slot : Slot} {m : PhysicalLine}

theorem exists_of_mem_spread {line column offset : Nat} {cs : List Char} (place : slot ∈ spread line column offset cs) :
    ∃ a b, cs = a ++ slot.1 :: b ∧ slot.2 = ⟨line, byteLength a + column, offset + byteLength a⟩ := by
  induction cs generalizing column offset with
  | nil => cases place
  | cons c cs ih =>
    rcases List.mem_cons.mp place with rfl | later
    · exact ⟨[], cs, rfl, by simp [byteLength]⟩
    · obtain ⟨a, b, rfl, same⟩ := ih later
      refine ⟨c :: a, b, rfl, ?_⟩
      rw [same, byteLength]
      simp only [Place.mk.injEq, true_and]
      omega

theorem mem_slotsAfter {l : PhysicalLine} {ms : List PhysicalLine} (place : slot ∈ l.slotsAfter ms) :
    (∃ m ∈ l :: ms, slot = ('\n', m.breakPlace)) ∨
      ∃ m ∈ ms, slot ∈ if m.isContinuation then m.continuationSlots else m.slots := by
  induction ms generalizing l with
  | nil => exact .inl ⟨l, List.mem_cons_self, List.mem_singleton.mp place⟩
  | cons m ms ih =>
    have later (h : slot ∈ m.slotsAfter ms) : (∃ n ∈ l :: m :: ms, slot = ('\n', n.breakPlace)) ∨
        ∃ n ∈ m :: ms, slot ∈ if n.isContinuation then n.continuationSlots else n.slots := by
      refine (ih h).imp ?_ ?_
      · exact fun ⟨n, inside, same⟩ => ⟨n, List.mem_cons_of_mem l inside, same⟩
      · exact fun ⟨n, inside, own⟩ => ⟨n, List.mem_cons_of_mem m inside, own⟩
    rw [slotsAfter] at place
    split at place
    · rename_i opens
      rcases List.mem_append.mp place with added | rest
      · exact .inr ⟨m, List.mem_cons_self, by rwa [if_pos opens]⟩
      · exact later rest
    · rename_i whole
      rcases List.mem_cons.mp place with rfl | rest
      · exact .inl ⟨l, List.mem_cons_self, rfl⟩
      rcases List.mem_append.mp rest with own | rest
      · exact .inr ⟨m, List.mem_cons_self, by rwa [if_neg whole]⟩
      · exact later rest

/-- A line stands behind those before it. -/
theorem mem_ofTexts {number start : Nat} {texts : List (List Char)} (place : m ∈ ofTexts number start texts) :
    ∃ xs ys, texts = xs ++ m.text :: ys ∧ m.number = number + xs.length ∧ m.start = start + textLength xs := by
  induction texts generalizing number start with
  | nil => cases place
  | cons text texts ih =>
    rcases List.mem_cons.mp place with rfl | later
    · exact ⟨[], texts, rfl, rfl, rfl⟩
    · obtain ⟨xs, ys, rfl, number, start⟩ := ih later
      refine ⟨text :: xs, ys, rfl, ?_, ?_⟩
      · rw [number, List.length_cons]
        omega
      · rw [start, textLength]
        omega

end PhysicalLine

namespace Source

open PhysicalLine

/-- How much the offset of a character is too small. Lines are counted from zero on. -/
def lag (lines : List String) (n : Nat) (c : Char) : Nat :=
  if 0 < n ∧ c ≠ '\n' ∧ lines[n]?.any (fun l => opensAsContinuation l.toList) = true then 1 else 0

variable {lines xs ys : List String} {l : String} {slot : Slot} {m : PhysicalLine} {c : Char} {i : Nat}

theorem lag_eq (split : lines = xs ++ l :: ys) (c : Char) :
    lag lines xs.length c = if xs ≠ [] ∧ c ≠ '\n' ∧ opensAsContinuation l.toList = true then 1 else 0 := by
  simp [lag, split, List.length_pos_iff]

theorem exists_of_mem_ofTexts {number start : Nat} (place : m ∈ ofTexts number start (lines.map String.toList)) :
    ∃ (xs : List String) (l : String) (ys : List String), lines = xs ++ l :: ys ∧
      m = ⟨number + xs.length, start + textLength (xs.map String.toList), l.toList⟩ := by
  obtain ⟨before, after, split, line, offset⟩ := mem_ofTexts place
  obtain ⟨xs, rest, rfl, rfl, below⟩ := List.map_eq_append_iff.mp split
  obtain ⟨l, ys, rfl, text, -⟩ := List.map_eq_cons_iff.mp below
  refine ⟨xs, l, ys, rfl, ?_⟩
  rw [text, ← List.length_map String.toList, ← line, ← offset]

/-- A slot is a character of a line or the line break behind it, at the place where it stands in the lines but for what the
offset is too small. -/
def StandsIn (lines : List String) (slot : Slot) : Prop :=
  ∃ xs l ys a b, lines = xs ++ l :: ys ∧ l.toList ++ ['\n'] = a ++ slot.1 :: b ∧ '\n' ∉ a ∧
    slot.2 = ⟨xs.length + 1, byteLength a + 1,
      textLength (xs.map String.toList) + byteLength a - lag lines xs.length slot.1⟩

theorem standsIn_lineBreak (split : lines = xs ++ l :: ys) (line : '\n' ∉ l.toList) :
    StandsIn lines ('\n', breakPlace ⟨xs.length + 1, textLength (xs.map String.toList), l.toList⟩) := by
  refine ⟨xs, l, ys, l.toList, [], split, rfl, line, ?_⟩
  rw [lag_eq split]
  simp [breakPlace]

theorem standsIn_character (xs : List String) (late : Nat) (split : lines = xs ++ l :: ys) (line : '\n' ∉ l.toList)
    (own : slot ∈ spread (xs.length + 1) 1 (textLength (xs.map String.toList) - late) l.toList)
    (within : late ≤ textLength (xs.map String.toList))
    (counted : late = if xs ≠ [] ∧ opensAsContinuation l.toList = true then 1 else 0) : StandsIn lines slot := by
  obtain ⟨a, b, text, same⟩ := exists_of_mem_spread own
  rw [text, List.mem_append, List.mem_cons, not_or, not_or] at line
  have lags : lag lines xs.length slot.1 = late := by
    rw [lag_eq split, counted]
    simp [Ne.symm line.2.1]
  refine ⟨xs, l, ys, a, b ++ ['\n'], split, by simp [text], line.1, ?_⟩
  rw [same, lags]
  simp only [Place.mk.injEq, true_and]
  omega

theorem standsIn_of_mem (place : slot ∈ bufferSlots (ofTexts 1 0 (lines.map String.toList)))
    (whole : ∀ l ∈ lines, '\n' ∉ l.toList) : StandsIn lines slot := by
  cases lines with
  | nil => cases place
  | cons first others =>
    rw [List.map_cons, ofTexts, bufferSlots] at place
    rcases List.mem_append.mp place with own | later
    · exact standsIn_character [] 0 rfl (whole first (by simp)) own (Nat.le_refl _) rfl
    -- A line break is counted at the end of its own line, whatever the next line is.
    rcases mem_slotsAfter later with ⟨m, inside, rfl⟩ | ⟨m, inside, own⟩
    · rw [← ofTexts, ← List.map_cons] at inside
      obtain ⟨xs, l, ys, split, rfl⟩ := exists_of_mem_ofTexts inside
      rw [Nat.add_comm 1, Nat.zero_add]
      exact standsIn_lineBreak split (whole l (by simp [split]))
    · obtain ⟨xs, l, ys, rfl, rfl⟩ := exists_of_mem_ofTexts inside
      have start : 0 + byteLength first.toList + 1 + textLength (xs.map String.toList) =
          textLength ((first :: xs).map String.toList) := by
        rw [List.map_cons, textLength]
        omega
      have number : 1 + 1 + xs.length = (first :: xs).length + 1 := by
        rw [List.length_cons]
        omega
      have positive : 1 ≤ textLength ((first :: xs).map String.toList) := by
        rw [List.map_cons, textLength]
        omega
      have line : '\n' ∉ l.toList := whole l (by simp)
      rw [start, number] at own
      cases opens : opensAsContinuation l.toList with
      | true =>
        -- The first byte of a continuation line is counted as the line break before it.
        have added := own
        rw [isContinuation, ← opensAsContinuation, opens, if_pos rfl] at added
        have part := ((List.drop_sublist ..).trans (List.dropWhile_sublist _)).subset added
        exact standsIn_character (first :: xs) 1 rfl line part positive (by simp [opens])
      | false =>
        have plain := own
        rw [isContinuation, ← opensAsContinuation, opens, if_neg (by decide)] at plain
        exact standsIn_character (first :: xs) 0 rfl line plain (Nat.zero_le _) (by simp [opens])

theorem intercalate_lines (some : lines ≠ []) :
    ("\n".intercalate lines).toList ++ ['\n'] = layout (lines.map String.toList) := by
  induction lines with
  | nil => contradiction
  | cons l others ih =>
    cases others with
    | nil => simp [layout]
    | cons next others =>
      have rest := ih (by simp)
      simp only [String.toList_intercalate, List.map_cons, List.intercalate_cons_cons] at rest ⊢
      rw [layout_cons, ← rest]
      simp

/-- Every character of the buffer is a character of the lines joined by line breaks, the last break included, and is
reported at the place where it stands there, with an offset that is one too small on continuation lines. -/
theorem ofLines_place (lines : List String) (whole : ∀ l ∈ lines, '\n' ∉ l.toList)
    (char : (ofLines lines).char? i = some c) :
    ∃ front rest, ("\n".intercalate lines).toList ++ ['\n'] = front ++ c :: rest ∧
      (ofLines lines).place i =
        { Place.behind front with offset := byteLength front - lag lines (front.count '\n') c } := by
  obtain ⟨slot, inside, rfl, reported⟩ : ∃ slot ∈ bufferSlots (ofTexts 1 0 (lines.map String.toList)),
      slot.1 = c ∧ (ofLines lines).place i = slot.2 := by
    simp only [Source.char?, ofLines, ofChars, List.getElem?_toArray, List.getElem?_map] at char
    obtain ⟨slot, found, rfl⟩ := Option.map_eq_some_iff.mp char
    refine ⟨slot, List.mem_of_getElem? found, rfl, ?_⟩
    simp [Source.place, ofLines, ofChars, found]
  -- The text is cut at the line of the character and again within this line.
  obtain ⟨xs, l, ys, a, b, split, text, line, place⟩ := standsIn_of_mem inside whole
  have before : ∀ x ∈ xs.map String.toList, '\n' ∉ x := by
    intro x below
    obtain ⟨l, other, rfl⟩ := List.mem_map.mp below
    exact whole l (by simp [split, other])
  refine ⟨layout (xs.map String.toList) ++ a, b ++ layout (ys.map String.toList), ?_, ?_⟩
  · rw [intercalate_lines (by simp [split]), split, List.map_append, layout_append, List.map_cons, layout_cons]
    have behind := congrArg (· ++ layout (ys.map String.toList)) text
    simp only [List.append_assoc, List.cons_append, List.nil_append] at behind
    rw [behind, List.append_assoc]
  · rw [reported, place, Place.behind_layout before line, List.count_append, count_layout before,
      List.count_eq_zero_of_not_mem line, List.length_map, byteLength_append, byteLength_layout]
    rfl

/-- A digit on a continuation line, behind a character of two bytes. -/
theorem ofLines_place_continued :
    let lines := ["let é = [", " \\ 1]", "x"]
    (∀ l ∈ lines, '\n' ∉ l.toList) ∧ (ofLines lines).char? 10 = some '1' ∧
      (ofLines lines).place 10 = ⟨2, 4, 13⟩ ∧
      ∃ front rest, ("\n".intercalate lines).toList ++ ['\n'] = front ++ '1' :: rest ∧
        (ofLines lines).place 10 =
          { Place.behind front with offset := byteLength front - lag lines (front.count '\n') '1' } := by
  intro lines
  have whole : ∀ l ∈ lines, '\n' ∉ l.toList := by decide
  have char : (ofLines lines).char? 10 = some '1' := by decide +kernel
  exact ⟨whole, char, by decide +kernel, ofLines_place lines whole char⟩

/-- The `c` behind two letters, a line break and a backslash is reported with the offset three. -/
theorem not_forall_place_behind :
    ¬∀ (lines : List String) (i : Nat) (c : Char), (∀ l ∈ lines, '\n' ∉ l.toList) →
      (ofLines lines).char? i = some c →
        ∃ front rest, ("\n".intercalate lines).toList ++ ['\n'] = front ++ c :: rest ∧
          (ofLines lines).place i = Place.behind front := by
  intro all
  obtain ⟨front, rest, text, place⟩ := all ["ab", "\\c"] 2 'c' (by decide) (by decide +kernel)
  have reported : (ofLines ["ab", "\\c"]).place 2 = ⟨2, 2, 3⟩ := by decide +kernel
  have joined : ("\n".intercalate ["ab", "\\c"]).toList ++ ['\n'] = "ab\n\\c\n".toList := by decide +kernel
  rw [joined] at text
  have short : front.length ≤ 6 := by
    have length := congrArg List.length text
    simp only [List.length_append, List.length_cons] at length
    have six : "ab\n\\c\n".toList.length = 6 := by decide
    omega
  have start : "ab\n\\c\n".toList.take front.length = front := by rw [text, List.take_left]
  -- No character of the text has the reported place, neither the `c` nor another one.
  have elsewhere : ∀ k ≤ 6, Place.behind ("ab\n\\c\n".toList.take k) ≠ ⟨2, 2, 3⟩ := by decide +kernel
  rw [reported, ← start] at place
  exact elsewhere _ short place.symm

end Source

end VimScript
