import VimScript.Proofs.Statement.Modifiers
import VimScript.Proofs.Statement.Pattern
import VimScript.Statement.Range

/-!
Ranges as they are written before a command. What stands between two separators is read back piece by piece, and a number
that opens the range is not the count of a modifier.
-/

set_option autoImplicit false

namespace VimScript.Statement

open Scan

/-! ### Ranges as written -/

/-- Where an address starts from. -/
inductive WrittenBase where
  | nothing
  | current
  | last
  | mark (c : Char) (line : c ≠ '\n')
  | number (digits : List Char) (some : digits ≠ []) (decimal : ∀ d ∈ digits, CharClass.digit.has d = true)
  | search (delimiter : Char) (either : delimiter ∈ ['/', '?']) (pattern : List Char)
      (plain : ∀ c ∈ pattern, c ∉ [delimiter, '\n', '\\', '[', ']'])
  /-- A search for the last pattern, or for the one last substituted. -/
  | repeated (c : Char) (listed : c ∈ ['/', '?', '&'])

structure WrittenOffset where
  sign : Char
  signed : sign ∈ ['+', '-']
  digits : List Char
  decimal : ∀ d ∈ digits, CharClass.digit.has d = true

structure WrittenAddress where
  base : WrittenBase
  offsets : List WrittenOffset

structure WrittenSeparator where
  char : Char
  listed : char ∈ [',', ';']

/-- Addresses with separators between them. -/
structure WrittenRange where
  first : WrittenAddress
  others : List (WrittenSeparator × WrittenAddress)

def WrittenBase.text : WrittenBase → List Char
  | .nothing => []
  | .current => ['.']
  | .last => ['$']
  | .mark c _ => ['\'', c]
  | .number digits _ _ => digits
  | .search delimiter _ pattern _ => delimiter :: pattern ++ [delimiter]
  | .repeated c _ => ['\\', c]

/-- A pattern stands without its delimiters. -/
def WrittenBase.pieces : WrittenBase → List String
  | .nothing => []
  | .search _ _ pattern _ => [String.ofList pattern]
  | base => [String.ofList base.text]

def WrittenOffset.text (o : WrittenOffset) : List Char :=
  o.sign :: o.digits

def WrittenAddress.text (a : WrittenAddress) : List Char :=
  a.base.text ++ a.offsets.flatMap WrittenOffset.text

def WrittenAddress.pieces (a : WrittenAddress) : List String :=
  a.base.pieces ++ a.offsets.map fun o => String.ofList o.text

def WrittenRange.text (r : WrittenRange) : List Char :=
  r.first.text ++ r.others.flatMap fun (separator, a) => separator.char :: a.text

def WrittenRange.pieces (r : WrittenRange) : List String :=
  r.first.pieces ++ r.others.flatMap fun (separator, a) => String.singleton separator.char :: a.pieces

/-- What may come next in a range before `:d`: one of some marks, or the command at the end of the line. -/
inductive RangeRest (marks : List Char) : List Char → Prop where
  | command (cs : List Char) : RangeRest marks ('d' :: '\n' :: cs)
  | mark {c : Char} (listed : c ∈ marks) (cs : List Char) : RangeRest marks (c :: cs)

variable {s : Source} {i j k : Nat} {c : Char} {cs rest : List Char} {found : List String}

/-- After an address. -/
abbrev Separated : List Char → Prop :=
  RangeRest [',', ';']

/-- After what an address starts from. -/
abbrev Offset : List Char → Prop :=
  RangeRest ['+', '-', ',', ';']

theorem Separated.offset (h : Separated rest) : Offset rest := by
  cases h with
  | command cs => exact .command cs
  | mark listed cs => exact .mark (.tail _ (.tail _ listed)) cs

theorem Separated.head (h : Separated rest) : ∃ c cs, rest = c :: cs ∧ c ∈ ['d', ',', ';'] := by
  cases h with
  | command cs => exact ⟨_, _, rfl, by simp⟩
  | mark listed cs => exact ⟨_, _, rfl, .tail _ listed⟩

theorem Offset.head (h : Offset rest) : ∃ c cs, rest = c :: cs ∧ c ∈ ['d', '+', '-', ',', ';'] := by
  cases h with
  | command cs => exact ⟨_, _, rfl, by simp⟩
  | mark listed cs => exact ⟨_, _, rfl, .tail _ listed⟩

theorem Offset.solid (h : Offset rest) : CharClass.white.hasOpt rest.head? = false := by
  obtain ⟨c, cs, rfl, listed⟩ := h.head
  exact CharClass.forall_of_listed (p := fun c => CharClass.white.has c = false) rfl listed

theorem Offset.noDigit (h : Offset rest) : CharClass.digit.hasOpt rest.head? = false := by
  obtain ⟨c, cs, rfl, listed⟩ := h.head
  exact CharClass.forall_of_listed (p := fun c => CharClass.digit.has c = false) rfl listed

theorem offset_of_offsets (offsets : List WrittenOffset) (stop : Offset rest) :
    Offset (offsets.flatMap WrittenOffset.text ++ rest) := by
  cases offsets with
  | nil => exact stop
  | cons o offsets =>
    exact .mark (CharClass.forall_of_listed (p := fun c => c ∈ ['+', '-', ',', ';']) rfl o.signed) _

theorem separated_of_others (others : List (WrittenSeparator × WrittenAddress)) (stop : Separated rest) :
    Separated (others.flatMap (fun (separator, a) => separator.char :: a.text) ++ rest) := by
  cases others with
  | nil => exact stop
  | cons other others => exact .mark other.1.listed _

/-! ### Offsets -/

/-- One more offset, if there is one. -/
def offsetsTurn (found : List String) : Scan (Turn (List String) (List String)) := do
  Scan.skipWhite
  let number ← Scan.takeInteger
  if number.isEmpty then return .done found
  else return .again (found ++ [number])

theorem offsets_eq (found : List String) : offsets found = Scan.loop found offsetsTurn := rfl

theorem takeInteger_of_offset (o : WrittenOffset) (h : s.ahead i = o.text ++ cs)
    (stop : CharClass.digit.hasOpt cs.head? = false) :
    takeInteger s i = .ok (String.ofList o.text) (i + o.text.length) := by
  obtain ⟨sign, signed, digits, decimal⟩ := o
  have line : sign ≠ '\n' := by
    exact CharClass.forall_of_listed (p := fun c => c ≠ '\n') rfl signed
  have front : s.ahead i = [sign] ++ (digits ++ cs) := h
  have taken : take 1 s i = .ok (String.ofList [sign]) (i + 1) := take_of_ahead [sign] front (by simpa using line.symm)
  have behind : s.ahead (i + 1) = digits ++ cs := Source.ahead_of_cons front
  have digitsTaken := takeClass_of_ahead .digit behind decimal stop
  have whole : String.ofList [sign] ++ String.ofList digits = String.ofList (sign :: digits) := by
    rw [← String.ofList_append]
    rfl
  have length : i + 1 + digits.length = i + (sign :: digits).length := by
    rw [List.length_cons]
    omega
  have peeked : peekInLine s i = .ok (some sign) i := by
    rw [peekInLine_of_ahead front]
    simp [line]
  simp only [List.mem_cons, List.not_mem_nil, or_false] at signed
  rw [WrittenOffset.text, ← whole, ← length]
  rcases signed with rfl | rfl
  all_goals
    simp only [takeInteger, bind_assoc, bind_of_ok peeked]
    rw [bind_of_ok taken, bind_of_ok digitsTaken]
    rfl

theorem takeInteger_of_separated (h : s.ahead i = rest) (stop : Separated rest) : takeInteger s i = .ok "" i := by
  have empty : s.ahead i = [] ++ rest := h
  have taken := takeClass_of_ahead .digit empty (by simp) stop.offset.noDigit
  obtain ⟨c, cs, rfl, listed⟩ := stop.head
  have other : c ≠ '-' ∧ c ≠ '+' ∧ c ≠ '\n' := by
    exact CharClass.forall_of_listed (p := fun c => c ≠ '-' ∧ c ≠ '+' ∧ c ≠ '\n') rfl listed
  have peeked : peekInLine s i = .ok (some c) i := by
    rw [peekInLine_of_ahead h]
    simp [other]
  simp only [takeInteger, bind_assoc, bind_of_ok peeked, Option.some.injEq, other, imp_self, pure_bind]
  exact bind_of_ok taken

theorem rounds_of_offsets (written : List WrittenOffset) (h : s.ahead i = written.flatMap WrittenOffset.text ++ rest)
    (stop : Separated rest) :
    Rounds offsetsTurn s found i (found ++ written.map fun o => String.ofList o.text)
      (i + (written.flatMap WrittenOffset.text).length) := by
  induction written generalizing found i with
  | nil =>
    have skipped := skipWhite_of_solid h stop.offset.solid
    apply Rounds.last
    simp only [offsetsTurn, bind_of_ok skipped, bind_of_ok (takeInteger_of_separated h stop)]
    simp [pure_apply]
  | cons o written ih =>
    have front : s.ahead i = o.text ++ (written.flatMap WrittenOffset.text ++ rest) := by
      rw [h, List.flatMap_cons, List.append_assoc]
    have behind := Source.ahead_of_append front
    have goesOn := offset_of_offsets written stop.offset
    have skipped := skipWhite_of_solid h (offset_of_offsets (o :: written) stop.offset).solid
    have turn : offsetsTurn found s i = .ok (.again (found ++ [String.ofList o.text])) (i + o.text.length) := by
      simp only [offsetsTurn, bind_of_ok skipped, bind_of_ok (takeInteger_of_offset o front goesOn.noDigit)]
      simp [WrittenOffset.text, pure_apply]
    obtain ⟨c, cs, more, -⟩ := goesOn.head
    have on := Source.lt_of_ahead o.text front behind (by simp [WrittenOffset.text]) (by simp [more])
    apply Rounds.turn turn on.1 on.2
    have last := @ih _ (found ++ [String.ofList o.text]) behind
    rw [List.append_assoc, Nat.add_assoc, ← List.length_append] at last
    exact last

theorem offsets_of_written (written : List WrittenOffset) (found : List String)
    (h : s.ahead i = written.flatMap WrittenOffset.text ++ rest) (stop : Separated rest) :
    offsets found s i = .ok (found ++ written.map fun o => String.ofList o.text)
      (i + (written.flatMap WrittenOffset.text).length) := by
  rw [offsets_eq]
  exact (rounds_of_offsets written h stop).loop

/-! ### Patterns -/

/-- A character that is neither special in a pattern nor its end. -/
theorem patternTurn_of_plain {delimiter : Char} (start : Nat) (h : s.ahead i = c :: cs)
    (plain : c ∉ [delimiter, '\n', '\\', '[', ']']) : patternTurn delimiter start 0 s i = .ok (.again 0) (i + 1) := by
  obtain ⟨other, line, noEscape, noOpening, noClosing⟩ :
      c ≠ delimiter ∧ c ≠ '\n' ∧ c ≠ '\\' ∧ c ≠ '[' ∧ c ≠ ']' := by simpa using plain
  have peeked : peekInLine s i = .ok (some c) i := by
    rw [peekInLine_of_ahead h]
    simp [line]
  have goes : (c == delimiter && (0 : Int) == 0) = false := by simp [other]
  simp only [patternTurn, bind_of_ok peeked, bind_of_ok (tell_apply s i), bind_of_ok (skip_apply 1 s i), goes,
    Bool.false_eq_true, if_false]
  rfl

theorem rounds_of_plain {delimiter : Char} (start : Nat) (cs : List Char)
    (plain : ∀ c ∈ cs, c ∉ [delimiter, '\n', '\\', '[', ']']) (line : delimiter ≠ '\n')
    (h : s.ahead i = cs ++ delimiter :: rest) :
    Rounds (patternTurn delimiter start) s 0 i (s.text start (i + cs.length), some delimiter) (i + cs.length + 1) := by
  induction cs generalizing i with
  | nil =>
    have peeked : peekInLine s i = .ok (some delimiter) i := by
      rw [peekInLine_of_ahead h]
      simp [line]
    apply Rounds.last
    simp only [patternTurn, bind_of_ok peeked, bind_of_ok (tell_apply s i), bind_of_ok (skip_apply 1 s i),
      beq_self_eq_true, Bool.and_self, if_true]
    rfl
  | cons c cs ih =>
    have within := Source.lt_size_of_cons h
    apply Rounds.turn (patternTurn_of_plain start h (plain c (by simp))) (by omega) (by omega)
    have last := ih (fun other place => plain other (by simp [place])) (Source.ahead_of_cons h)
    rwa [Nat.add_assoc i, Nat.add_comm 1] at last

theorem pattern_of_plain {delimiter : Char} (cs : List Char)
    (plain : ∀ c ∈ cs, c ∉ [delimiter, '\n', '\\', '[', ']']) (line : delimiter ≠ '\n')
    (h : s.ahead i = cs ++ delimiter :: rest) :
    pattern delimiter s i = .ok (String.ofList cs, some delimiter) (i + cs.length + 1) := by
  have rounds := rounds_of_plain i cs plain line h
  rw [Source.text_of_append h] at rounds
  rw [pattern_eq, bind_of_ok (tell_apply s i)]
  exact rounds.loop

/-! ### Addresses -/

theorem addressBase_of_written (b : WrittenBase) (h : s.ahead i = b.text ++ rest) (stop : Offset rest) :
    addressBase s i = .ok b.pieces (i + b.text.length) := by
  cases b with
  | nothing =>
    obtain ⟨c, cs, rfl, listed⟩ := stop.head
    have other : c ≠ '\n' ∧ c ≠ '.' ∧ c ≠ '$' ∧ c ≠ '\'' ∧ c ≠ '/' ∧ c ≠ '?' ∧ c ≠ '\\' ∧ CharClass.digit.has c = false := by
      exact CharClass.forall_of_listed (p := fun c => c ≠ '\n' ∧ c ≠ '.' ∧ c ≠ '$' ∧ c ≠ '\'' ∧ c ≠ '/' ∧ c ≠ '?' ∧
        c ≠ '\\' ∧ CharClass.digit.has c = false) rfl listed
    have peeked : peekInLine s i = .ok (some c) i := by
      rw [peekInLine_of_ahead h]
      simp [WrittenBase.text, other]
    simp only [addressBase, bind_of_ok peeked, Option.some.injEq, other, imp_self, CharClass.hasOpt_some,
      Bool.false_eq_true, if_false]
    rfl
  | current =>
    have taken : take 1 s i = .ok "." (i + 1) := take_of_ahead ['.'] h (by decide)
    rw [addressBase, bind_of_ok (peekInLine_of_ahead h)]
    exact bind_of_ok taken
  | last =>
    have taken : take 1 s i = .ok "$" (i + 1) := take_of_ahead ['$'] h (by decide)
    rw [addressBase, bind_of_ok (peekInLine_of_ahead h)]
    exact bind_of_ok taken
  | mark c line =>
    have quote : s.ahead i = ['\''] ++ c :: rest := h
    have taken : take 1 s i = .ok "'" (i + 1) := take_of_ahead ['\''] quote (by decide)
    have behind : s.ahead (i + 1) = [c] ++ rest := Source.ahead_of_cons h
    have mark : take 1 s (i + 1) = .ok (String.ofList [c]) (i + 1 + 1) := take_of_ahead [c] behind (by simpa using line.symm)
    have whole : "'" ++ String.ofList [c] = String.ofList ['\'', c] := by
      rw [← String.ofList_toList (s := "'"), ← String.ofList_append]
      rfl
    rw [addressBase, bind_of_ok (peekInLine_of_ahead h)]
    refine (bind_of_ok taken).trans ((bind_of_ok mark).trans ?_)
    rw [isEmpty_ofList_cons, whole]
    rfl
  | number digits some decimal =>
    have taken := takeClass_of_ahead .digit h decimal stop.noDigit
    obtain ⟨d, ds, rfl⟩ := List.exists_cons_of_ne_nil some
    have digit := decimal d (by simp)
    have other : d ≠ '\n' ∧ d ≠ '.' ∧ d ≠ '$' ∧ d ≠ '\'' ∧ d ≠ '/' ∧ d ≠ '?' ∧ d ≠ '\\' :=
      CharClass.forall_of_table (p := fun d => d ≠ '\n' ∧ d ≠ '.' ∧ d ≠ '$' ∧ d ≠ '\'' ∧ d ≠ '/' ∧ d ≠ '?' ∧ d ≠ '\\')
        (by decide) digit
    have peeked : peekInLine s i = .ok (.some d) i := by
      rw [peekInLine_of_ahead h]
      simp [WrittenBase.text, other]
    simp only [addressBase, bind_of_ok peeked, Option.some.injEq, other, imp_self, CharClass.hasOpt_some, digit, if_true]
    exact bind_of_ok taken
  | search delimiter either pattern plain =>
    have line : delimiter ≠ '\n' := by
      exact CharClass.forall_of_listed (p := fun c => c ≠ '\n') rfl either
    have opening : s.ahead i = [delimiter] ++ (pattern ++ delimiter :: rest) := by
      rw [h]
      simp [WrittenBase.text]
    have taken : take 1 s i = .ok (String.ofList [delimiter]) (i + 1) :=
      take_of_ahead [delimiter] opening (by simpa using line.symm)
    have read := pattern_of_plain pattern plain line (Source.ahead_of_cons opening)
    have length : i + (WrittenBase.search delimiter either pattern plain).text.length = i + 1 + pattern.length + 1 := by
      simp [WrittenBase.text]
      omega
    have peeked : peekInLine s i = .ok (some delimiter) i := by
      rw [peekInLine_of_ahead opening]
      simp [line]
    rw [length, addressBase, bind_of_ok peeked]
    simp only [List.mem_cons, List.not_mem_nil, or_false] at either
    rcases either with rfl | rfl
    all_goals
      refine (bind_of_ok taken).trans ((bind_of_ok read).trans ?_)
      rfl
  | repeated c listed =>
    have line : c ≠ '\n' := by
      exact CharClass.forall_of_listed (p := fun c => c ≠ '\n') rfl listed
    have taken : take 2 s i = .ok (String.ofList ['\\', c]) (i + 2) :=
      take_of_ahead ['\\', c] h (by simpa using line.symm)
    rw [addressBase, bind_of_ok (peekInLine_of_ahead h)]
    refine (bind_of_ok (peekAt_of_ahead 1 h)).trans ?_
    simp only [List.mem_cons, List.not_mem_nil, or_false] at listed
    rcases listed with rfl | rfl | rfl <;> exact bind_of_ok taken

/-- Nothing that skips a line or makes it a comment opens an address. -/
theorem opens_base (b : WrittenBase) (stop : Offset rest) :
    ∃ c cs, b.text ++ rest = c :: cs ∧ c ≠ '\n' ∧ c ≠ '#' ∧ c ≠ ':' ∧ c ≠ '"' ∧ CharClass.white.has c = false := by
  have listed {c : Char} (cs marks : List Char) (place : c ∈ marks)
      (table : marks.all (fun c => decide (c ≠ '\n' ∧ c ≠ '#' ∧ c ≠ ':' ∧ c ≠ '"' ∧ CharClass.white.has c = false)) = true) :
      ∃ d ds, c :: cs = d :: ds ∧ d ≠ '\n' ∧ d ≠ '#' ∧ d ≠ ':' ∧ d ≠ '"' ∧ CharClass.white.has d = false :=
    ⟨c, cs, rfl, CharClass.forall_of_listed table place⟩
  cases b with
  | nothing =>
    obtain ⟨c, cs, rfl, place⟩ := stop.head
    exact listed cs _ place rfl
  | current => exact listed rest ['.'] (by simp) rfl
  | last => exact listed rest ['$'] (by simp) rfl
  | mark c => exact listed (c :: rest) ['\''] (by simp) rfl
  | number digits some decimal =>
    obtain ⟨d, ds, rfl⟩ := List.exists_cons_of_ne_nil some
    exact ⟨d, _, rfl, CharClass.forall_of_table
      (p := fun c => c ≠ '\n' ∧ c ≠ '#' ∧ c ≠ ':' ∧ c ≠ '"' ∧ CharClass.white.has c = false) (by decide)
      (decimal d (by simp))⟩
  | search delimiter either pattern =>
    exact listed (pattern ++ [delimiter] ++ rest) _ either rfl
  | repeated c => exact listed (c :: rest) ['\\'] (by simp) rfl

theorem solid_base (b : WrittenBase) (stop : Offset rest) : CharClass.white.hasOpt (b.text ++ rest).head? = false := by
  obtain ⟨c, cs, front, -, -, -, -, solid⟩ := opens_base b stop
  rw [front]
  exact solid

theorem address_of_written (a : WrittenAddress) (found : List String) (h : s.ahead i = a.text ++ rest)
    (stop : Separated rest) : address found s i = .ok (found ++ a.pieces) (i + a.text.length) := by
  have front : s.ahead i = a.base.text ++ (a.offsets.flatMap WrittenOffset.text ++ rest) := by
    rw [h, WrittenAddress.text, List.append_assoc]
  have offset := offset_of_offsets a.offsets stop.offset
  have skipped := skipWhite_of_solid front (solid_base a.base offset)
  have base := addressBase_of_written a.base front offset
  have offsets := offsets_of_written a.offsets (found ++ a.base.pieces) (Source.ahead_of_append front) stop
  have behind := Source.ahead_of_append (Source.ahead_of_append front)
  have length : i + a.text.length = i + a.base.text.length + (a.offsets.flatMap WrittenOffset.text).length := by
    rw [WrittenAddress.text, List.length_append, Nat.add_assoc]
  obtain ⟨c, cs, rfl, listed⟩ := stop.head
  have noSearch : (some c == some '/' || some c == some '?') = false := by
    exact CharClass.forall_of_listed (p := fun c => (some c == some '/' || some c == some '?') = false) rfl listed
  rw [length, WrittenAddress.pieces, ← List.append_assoc]
  refine loop_of_done ?_
  simp only [bind_of_ok skipped, bind_of_ok base, bind_of_ok offsets, bind_of_ok (peek_of_ahead behind), List.head?_cons,
    noSearch, Bool.false_eq_true, if_false]
  rfl

/-! ### Ranges -/

/-- A separator after an address, if there is one. -/
def separatorTurn (found : List String) : Scan (Turn (List String) (List String)) := do
  match ← Scan.peekInLine with
  | some ';' | some ',' => return .again (found ++ [← Scan.take 1])
  | _ => return .done found

/-- One address and what comes after it. -/
def rangeTurn (found : List String) : Scan (Turn (List String) (List String)) := do
  let found ← address found
  let whole ← (do
    match ← Scan.peekInLine with
    | some '%' | some '*' => return [← Scan.take 1]
    | _ => return [])
  separatorTurn (found ++ whole)

theorem range_eq : range = Scan.loop [] rangeTurn := rfl

/-- Neither `%` nor `*` follows. -/
theorem rangeTurn_of_written (a : WrittenAddress) (found : List String) (h : s.ahead i = a.text ++ rest)
    (stop : Separated rest) : rangeTurn found s i = separatorTurn (found ++ a.pieces) s (i + a.text.length) := by
  have read := address_of_written a found h stop
  have behind := Source.ahead_of_append h
  obtain ⟨c, cs, rfl, listed⟩ := stop.head
  have other : c ≠ '%' ∧ c ≠ '*' ∧ c ≠ '\n' := by
    exact CharClass.forall_of_listed (p := fun c => c ≠ '%' ∧ c ≠ '*' ∧ c ≠ '\n') rfl listed
  have peeked : peekInLine s (i + a.text.length) = .ok (some c) (i + a.text.length) := by
    rw [peekInLine_of_ahead behind]
    simp [other]
  simp only [rangeTurn, bind_assoc, bind_of_ok read, bind_of_ok peeked, Option.some.injEq, other, imp_self, pure_bind,
    List.append_nil]

theorem separatorTurn_of_separator (separator : WrittenSeparator) (found : List String)
    (h : s.ahead i = separator.char :: cs) :
    separatorTurn found s i = .ok (.again (found ++ [String.singleton separator.char])) (i + 1) := by
  obtain ⟨c, listed⟩ := separator
  have line : c ≠ '\n' := by
    exact CharClass.forall_of_listed (p := fun c => c ≠ '\n') rfl listed
  have taken : take 1 s i = .ok (String.singleton c) (i + 1) := by
    rw [String.singleton_eq_ofList]
    exact take_of_ahead [c] h (by simpa using line.symm)
  have peeked : peekInLine s i = .ok (some c) i := by
    rw [peekInLine_of_ahead h]
    simp [line]
  rw [separatorTurn, bind_of_ok peeked]
  simp only [List.mem_cons, List.not_mem_nil, or_false] at listed
  rcases listed with rfl | rfl <;> exact bind_of_ok taken

theorem rounds_of_others (others : List (WrittenSeparator × WrittenAddress)) (a : WrittenAddress)
    (h : s.ahead i = a.text ++ (others.flatMap (fun (separator, a) => separator.char :: a.text) ++ 'd' :: '\n' :: cs)) :
    Rounds rangeTurn s found i (found ++ (WrittenRange.mk a others).pieces) (i + (WrittenRange.mk a others).text.length) := by
  induction others generalizing found i a with
  | nil =>
    have read := rangeTurn_of_written a found h (.command cs)
    have behind := Source.ahead_of_append h
    rw [separatorTurn, bind_of_ok (peekInLine_of_ahead behind)] at read
    apply Rounds.last
    simpa [WrittenRange.pieces, WrittenRange.text, pure_apply] using read
  | cons other others ih =>
    obtain ⟨separator, b⟩ := other
    have behind : s.ahead (i + a.text.length) = separator.char ::
        (b.text ++ (others.flatMap (fun (separator, a) => separator.char :: a.text) ++ 'd' :: '\n' :: cs)) := by
      rw [Source.ahead_of_append h]
      simp
    have turn := rangeTurn_of_written a found h (.mark separator.listed _)
    rw [separatorTurn_of_separator separator _ behind] at turn
    have within := Source.lt_size_of_cons behind
    apply Rounds.turn turn (by omega) (by omega)
    have last := @ih _ (found ++ a.pieces ++ [String.singleton separator.char]) b (Source.ahead_of_cons behind)
    have pieces : found ++ (WrittenRange.mk a ((separator, b) :: others)).pieces =
        found ++ a.pieces ++ [String.singleton separator.char] ++ (WrittenRange.mk b others).pieces := by
      simp [WrittenRange.pieces]
    have length : i + (WrittenRange.mk a ((separator, b) :: others)).text.length =
        i + a.text.length + 1 + (WrittenRange.mk b others).text.length := by
      simp [WrittenRange.text]
      omega
    rw [pieces, length]
    exact last

/-- A range before `:d` is read back. -/
theorem range_of_written (r : WrittenRange) (h : s.ahead i = r.text ++ 'd' :: '\n' :: cs) :
    range s i = .ok r.pieces (i + r.text.length) := by
  rw [WrittenRange.text, List.append_assoc] at h
  rw [range_eq]
  exact (rounds_of_others r.others r.first h).loop

/-! ### What comes before a range -/

theorem countDigits_of_solid {ds : List Char} (h : s.ahead i = ds ++ rest) (decimal : ∀ d ∈ ds, CharClass.digit.has d = true)
    (stop : CharClass.digit.hasOpt rest.head? = false) (solid : CharClass.white.hasOpt rest.head? = false) :
    countDigits s i = .ok (String.ofList ds) (i + ds.length) := by
  cases ds with
  | nil =>
    have noDigit : CharClass.digit.hasOpt ((s.ahead i).head?.filter (· != '\n')) = false := by
      rw [h, List.nil_append]
      cases front : rest.head? with
      | none => rfl
      | some c =>
        rw [front] at stop
        simp only [Option.filter_some]
        split
        · exact stop
        · rfl
    simp only [countDigits, bind_of_ok (peekInLine_of_ahead rfl), noDigit, Bool.false_eq_true, if_false]
    rfl
  | cons d ds =>
    have digit : CharClass.digit.has d = true := decimal d (by simp)
    have line : d ≠ '\n' := ne_newline_of_has digit
    have peeked : peekInLine s i = .ok (some d) i := by
      rw [peekInLine_of_ahead h]
      simp [line]
    have taken := takeClass_of_ahead .digit h decimal stop
    have skipped := skipWhite_of_solid (Source.ahead_of_append h) solid
    simp only [countDigits, bind_of_ok peeked, CharClass.hasOpt_some, digit, if_true, bind_of_ok taken, bind_of_ok skipped]
    rfl

theorem modifiers_of_unnamed {digits name : String} (counted : countDigits s i = .ok digits j)
    (taken : takeClass .alpha s j = .ok name k) (noModifier : modifierName? name = none) : modifiers s i = .ok [] i := by
  rw [modifiers_eq]
  apply loop_of_done
  simp only [modifierTurn, bind_of_ok (tell_apply s i), bind_of_ok counted, bind_of_ok taken,
    bind_of_ok (peekInLine_of_ahead rfl), noModifier]
  rfl

/-- No modifier has the name `d`. -/
theorem modifiers_of_offset {ds : List Char} (h : s.ahead i = ds ++ rest) (decimal : ∀ d ∈ ds, CharClass.digit.has d = true)
    (stop : Offset rest) : modifiers s i = .ok [] i := by
  have counted := countDigits_of_solid h decimal stop.noDigit stop.solid
  have behind := Source.ahead_of_append h
  cases stop with
  | command cs =>
    have front : s.ahead (i + ds.length) = ['d'] ++ '\n' :: cs := behind
    have taken := takeClass_of_ahead .alpha front (by simp [CharClass.has]) rfl
    exact modifiers_of_unnamed counted taken (by decide +kernel)
  | @mark c listed cs =>
    have front : s.ahead (i + ds.length) = [] ++ c :: cs := behind
    have noLetter : CharClass.alpha.has c = false := by
      exact CharClass.forall_of_listed (p := fun c => CharClass.alpha.has c = false) rfl listed
    exact modifiers_of_unnamed counted (takeClass_of_ahead .alpha front (by simp) noLetter) modifierName?_empty

theorem modifiers_of_mark (h : s.ahead i = c :: cs) (noLetter : CharClass.alnum.has c = false)
    (solid : CharClass.white.has c = false) : modifiers s i = .ok [] i := by
  have empty : s.ahead i = [] ++ c :: cs := h
  have other : CharClass.digit.has c = false ∧ CharClass.alpha.has c = false := by
    simp only [CharClass.has, Char.isAlphanum, Bool.or_eq_false_iff] at noLetter ⊢
    exact noLetter.symm
  have counted := countDigits_of_solid empty (by simp) other.1 solid
  exact modifiers_of_unnamed counted (takeClass_of_ahead .alpha empty (by simp) other.2) modifierName?_empty

/-- A number that opens a range is not the count of a modifier. -/
theorem modifiers_of_base (b : WrittenBase) (h : s.ahead i = b.text ++ rest) (stop : Offset rest) :
    modifiers s i = .ok [] i := by
  cases b with
  | nothing => exact modifiers_of_offset h (by simp [WrittenBase.text]) stop
  | number digits some decimal => exact modifiers_of_offset h decimal stop
  | current | last | mark | repeated => exact modifiers_of_mark h rfl rfl
  | search delimiter either =>
    obtain ⟨noLetter, solid⟩ := CharClass.forall_of_listed
      (p := fun c => CharClass.alnum.has c = false ∧ CharClass.white.has c = false) rfl either
    exact modifiers_of_mark h noLetter solid

/-- What the first address of a range starts from, and what comes after it. -/
theorem WrittenRange.exists_rest (r : WrittenRange) (cs : List Char) :
    ∃ rest, r.text ++ 'd' :: '\n' :: cs = r.first.base.text ++ rest ∧ Offset rest := by
  have others := separated_of_others r.others (.command cs)
  have offsets := offset_of_offsets r.first.offsets others.offset
  refine ⟨_, ?_, offsets⟩
  simp [WrittenRange.text, WrittenAddress.text]

end VimScript.Statement
