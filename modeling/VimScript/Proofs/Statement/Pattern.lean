import Mathlib.Order.Bounds.Defs
import VimScript.Proofs.Scan.Text
import VimScript.Statement.Pattern

/-!
Where a pattern ends: at the first delimiter that is not escaped and at which as many brackets have been closed as
opened. A closing bracket counts also where none is open, and then hides the delimiter up to the next opening one.
-/

set_option autoImplicit false

namespace VimScript

namespace Source

variable {s : Source} {i k : Nat}

/-- What is left of the line at a cursor. -/
def line (s : Source) (i : Nat) : List Char :=
  run (fun _ => true) (s.ahead i)

theorem line_prefix (s : Source) (i : Nat) : s.line i <+: s.ahead i :=
  List.takeWhile_prefix _

/-- The characters of a line, and the end after the last one. -/
theorem getElem?_line (le : k ≤ (s.line i).length) : (s.line i)[k]? = (s.char? (i + k)).filter (· != '\n') := by
  obtain ⟨rest, split⟩ := s.line_prefix i
  rw [char?_add, ← split]
  rcases Nat.lt_or_eq_of_le le with less | rfl
  · have other : (s.line i)[k] ≠ '\n' := by simpa using List.mem_takeWhile_imp (List.getElem_mem less)
    rw [List.getElem?_append_left less, List.getElem?_eq_getElem less, Option.filter_some_pos (by simpa using other)]
  · have rest_eq : rest = (s.ahead i).dropWhile fun c => c != '\n' && true :=
      List.append_cancel_left (split.trans List.takeWhile_append_dropWhile.symm)
    have stop : ∀ c ∈ rest.head?, c = '\n' := by
      intro c first
      have out := List.head?_dropWhile_not (fun c => c != '\n' && true) (s.ahead i)
      rw [← rest_eq, first] at out
      simpa using out
    cases rest with
    | nil => simp
    | cons c rest =>
      obtain rfl := stop c rfl
      simp [Option.filter_some]

theorem text_line (le : k ≤ (s.line i).length) : s.text i (i + k) = String.ofList ((s.line i).take k) := by
  obtain ⟨rest, split⟩ := s.line_prefix i
  rw [text, between_add, ← split, List.take_append_of_le_length le]

end Source

namespace Statement

open Scan

/-- Whether the character at a place of a line is taken by a mark right before it. Marks are paired off from the left: one
that is taken itself takes nothing. -/
def isEscaped (mark : Char) (cs : List Char) : Nat → Bool
  | 0 => false
  | k + 1 => cs[k]? == some mark && !isEscaped mark cs k

/-- The number of open brackets after a character, given what a closing bracket makes of it. -/
def countBracket (close : Int → Int) (depth : Int) : Char → Int
  | '[' => depth + 1
  | ']' => close depth
  | _ => depth

/-- The number of open brackets at a place of a line. -/
def bracketDepth (close : Int → Int) (cs : List Char) : Nat → Int
  | 0 => 0
  | k + 1 =>
    if isEscaped '\\' cs k then bracketDepth close cs k
    else cs[k]?.elim (bracketDepth close cs k) (countBracket close (bracketDepth close cs k))

/-- Every closing bracket counts. -/
def balance (depth : Int) : Int :=
  depth - 1

/-- A closing bracket closes one bracket, and where none is open it stands for itself. -/
def closeOne (depth : Int) : Int :=
  max 0 (depth - 1)

structure Delimits (close : Int → Int) (delimiter : Char) (cs : List Char) (k : Nat) : Prop where
  char : cs[k]? = some delimiter
  plain : isEscaped '\\' cs k = false
  outside : bracketDepth close cs k = 0

instance (close : Int → Int) (delimiter : Char) (cs : List Char) (k : Nat) :
    Decidable (Delimits close delimiter cs k) :=
  decidable_of_iff (cs[k]? = some delimiter ∧ isEscaped '\\' cs k = false ∧ bracketDepth close cs k = 0)
    ⟨fun ⟨char, plain, outside⟩ => ⟨char, plain, outside⟩, fun ⟨char, plain, outside⟩ => ⟨char, plain, outside⟩⟩

/-- What reading a pattern comes to: it goes up to the first delimiter, or to the end of a line without one; and a
backslash at the end of the line is refused. -/
inductive ReadsPattern (close : Int → Int) (delimiter : Char) (s : Source) (i : Nat) :
    Reply (String × Option Char) → Prop where
  | delimited {k : Nat} (first : IsLeast {k | Delimits close delimiter (s.line i) k} k) :
      ReadsPattern close delimiter s i (.ok (String.ofList ((s.line i).take k), some delimiter) (i + k + 1))
  | lineEnd (none : ∀ k, ¬Delimits close delimiter (s.line i) k)
      (paired : isEscaped '\\' (s.line i) (s.line i).length = false) :
      ReadsPattern close delimiter s i (.ok (String.ofList (s.line i), .none) (i + (s.line i).length))
  | openEscape (none : ∀ k, ¬Delimits close delimiter (s.line i) k)
      (unpaired : isEscaped '\\' (s.line i) (s.line i).length = true) :
      ReadsPattern close delimiter s i
        (.fail ⟨.badPattern, s.position (i + (s.line i).length)⟩ (i + (s.line i).length))

variable {close : Int → Int} {delimiter c : Char} {s : Source} {i k : Nat} {cs : List Char} {depth : Int}

/-! ### One turn -/

/-- What the next character makes of a pattern that started at a cursor. -/
def patternTurn (delimiter : Char) (start : Nat) (depth : Int) : Scan (Turn Int (String × Option Char)) := do
  match ← Scan.peekInLine with
  | none => return .done (← Scan.textSince start, none)
  | some c =>
    let stop ← Scan.tell
    Scan.skip 1
    if c == delimiter && depth == 0 then
      return .done (← Scan.textBetween start stop, some c)
    else
      match c with
      | '\\' =>
        if (← Scan.peekInLine).isNone then
          Scan.failHere .badPattern
        Scan.skip 1
        return .again depth
      | '[' => return .again (depth + 1)
      | ']' => return .again (depth - 1)
      | _ => return .again depth

theorem pattern_eq (delimiter : Char) :
    pattern delimiter = (do
      let start ← Scan.tell
      Scan.loop (0 : Int) (patternTurn delimiter start)) := rfl

theorem peekInLine_line (le : k ≤ (s.line i).length) :
    Scan.peekInLine s (i + k) = .ok (s.line i)[k]? (i + k) := by
  rw [Source.getElem?_line le]
  rfl

theorem isEscaped_succ (mark : Char) (char : cs[k]? = some c) (plain : isEscaped mark cs k = false) :
    isEscaped mark cs (k + 1) = (c == mark) := by
  simp [isEscaped, char, plain]

theorem bracketDepth_succ (char : cs[k]? = some c) (plain : isEscaped '\\' cs k = false) :
    bracketDepth close cs (k + 1) = countBracket close (bracketDepth close cs k) c := by
  rw [bracketDepth, plain, char]
  rfl

theorem bracketDepth_escape (char : cs[k]? = some '\\') (plain : isEscaped '\\' cs k = false) :
    bracketDepth close cs (k + 2) = bracketDepth close cs k := by
  have next : isEscaped '\\' cs (k + 1) = true := isEscaped_succ '\\' char plain
  rw [bracketDepth, if_pos next, bracketDepth_succ char plain]
  rfl

theorem patternTurn_end (last : (s.line i)[k]? = none) (le : k ≤ (s.line i).length) (depth : Int) :
    patternTurn delimiter i depth s (i + k) = .ok (.done (String.ofList (s.line i), none)) (i + k) := by
  obtain rfl : k = (s.line i).length := Nat.le_antisymm le (List.getElem?_eq_none_iff.mp last)
  have text := Source.text_line (s := s) (i := i) (Nat.le_refl (s.line i).length)
  rw [List.take_length] at text
  rw [patternTurn, bind_of_ok (peekInLine_line le), last, ← text]
  rfl

theorem patternTurn_delimited (char : (s.line i)[k]? = some delimiter) :
    patternTurn delimiter i 0 s (i + k) =
      .ok (.done (String.ofList ((s.line i).take k), some delimiter)) (i + (k + 1)) := by
  have le := Nat.le_of_lt (List.getElem?_eq_some_iff.mp char).1
  rw [patternTurn, bind_of_ok (peekInLine_line le), char, ← Source.text_line le]
  simp only [bind_of_ok (tell_apply _ _), bind_of_ok (skip_apply _ _ _), beq_self_eq_true, Bool.and_self, if_true]
  rfl

/-- A backslash takes the next character with it, and there has to be one. -/
theorem patternTurn_escape (char : (s.line i)[k]? = some '\\') (goes : ¬('\\' = delimiter ∧ depth = 0)) :
    patternTurn delimiter i depth s (i + k) =
      if (s.line i)[k + 1]? = none then .fail ⟨.badPattern, s.position (i + (k + 1))⟩ (i + (k + 1))
      else .ok (.again depth) (i + (k + 2)) := by
  have less := (List.getElem?_eq_some_iff.mp char).1
  have next : Scan.peekInLine s (i + k + 1) = .ok (s.line i)[k + 1]? (i + k + 1) := peekInLine_line less
  have test : ('\\' == delimiter && depth == 0) = false := by simpa using goes
  rw [patternTurn, bind_of_ok (peekInLine_line (Nat.le_of_lt less)), char]
  simp only [bind_of_ok (tell_apply _ _), bind_of_ok (skip_apply _ _ _), test, Bool.false_eq_true, if_false]
  rw [bind_of_ok next]
  cases (s.line i)[k + 1]? <;> rfl

theorem patternTurn_other (char : (s.line i)[k]? = some c) (goes : ¬(c = delimiter ∧ depth = 0)) (other : c ≠ '\\') :
    patternTurn delimiter i depth s (i + k) = .ok (.again (countBracket balance depth c)) (i + (k + 1)) := by
  have le := Nat.le_of_lt (List.getElem?_eq_some_iff.mp char).1
  have test : (c == delimiter && depth == 0) = false := by simpa using goes
  rw [patternTurn, bind_of_ok (peekInLine_line le), char]
  simp only [bind_of_ok (tell_apply _ _), bind_of_ok (skip_apply _ _ _), test, Bool.false_eq_true, if_false]
  split
  · exact absurd rfl other
  · rfl
  · rfl
  · simp only [countBracket, *]
    rfl

/-! ### All turns -/

/-- From a place that is not escaped the pattern is read to its end. -/
theorem readsPattern_from (n : Nat) (le : k ≤ (s.line i).length) (plain : isEscaped '\\' (s.line i) k = false)
    (before : ∀ j < k, ¬Delimits balance delimiter (s.line i) j) (enough : (s.line i).length - k < n) :
    ReadsPattern balance delimiter s i
      (repeatUpTo (patternTurn delimiter i) n (bracketDepth balance (s.line i) k) s (i + k)) := by
  induction n generalizing k with
  | zero => omega
  | succ n ih =>
    cases char : (s.line i)[k]? with
    | none =>
      obtain rfl : k = (s.line i).length := Nat.le_antisymm le (List.getElem?_eq_none_iff.mp char)
      simp only [repeatUpTo, patternTurn_end char le]
      refine .lineEnd (fun j met => before j ?_ met) plain
      exact (List.getElem?_eq_some_iff.mp met.char).1
    | some c =>
      have less := (List.getElem?_eq_some_iff.mp char).1
      by_cases stops : c = delimiter ∧ bracketDepth balance (s.line i) k = 0
      · obtain ⟨rfl, outside⟩ := stops
        simp only [repeatUpTo, outside, patternTurn_delimited char]
        exact .delimited ⟨⟨char, plain, outside⟩, fun j met => Nat.le_of_not_lt fun earlier => before j earlier met⟩
      · have on : ∀ j < k + 1, ¬Delimits balance delimiter (s.line i) j := by
          intro j earlier met
          rcases Nat.lt_or_eq_of_le (Nat.le_of_lt_succ earlier) with earlier | rfl
          · exact before j earlier met
          · exact stops ⟨Option.some.inj (char.symm.trans met.char), met.outside⟩
        have next := isEscaped_succ '\\' char plain
        by_cases escape : c = '\\'
        -- An escape is two characters long, and the second one is not looked at.
        · subst escape
          have turn := patternTurn_escape char stops
          cases after : (s.line i)[k + 1]? with
          | none =>
            have last : (s.line i).length = k + 1 := Nat.le_antisymm (List.getElem?_eq_none_iff.mp after) less
            rw [after, if_pos rfl, ← last] at turn
            simp only [repeatUpTo, turn]
            refine .openEscape (fun j met => on j ?_ met) (by rw [last, next]; rfl)
            exact last ▸ (List.getElem?_eq_some_iff.mp met.char).1
          | some d =>
            rw [after, if_neg (by simp)] at turn
            simp only [repeatUpTo, turn]
            rw [← bracketDepth_escape char plain]
            have inside := (List.getElem?_eq_some_iff.mp after).1
            refine ih inside ?_ (fun j earlier met => ?_) (by omega)
            · simp [isEscaped, char, plain]
            · rcases Nat.lt_or_eq_of_le (Nat.le_of_lt_succ earlier) with earlier | rfl
              · exact on j earlier met
              · simp [met.plain] at next
        · have turn := patternTurn_other char stops escape
          simp only [repeatUpTo, turn]
          rw [← bracketDepth_succ char plain]
          exact ih less (next.trans (by simpa using escape)) on (by omega)

/-- Every closing bracket up to the delimiter closes one. -/
def Matched (delimiter : Char) (cs : List Char) : Prop :=
  ∀ k < cs.length, cs[k]? = some ']' → isEscaped '\\' cs k = false →
    (∀ j ≤ k, ¬Delimits closeOne delimiter cs j) → bracketDepth closeOne cs k ≠ 0

theorem bracketDepth_nonneg (cs : List Char) (k : Nat) : 0 ≤ bracketDepth closeOne cs k := by
  induction k with
  | zero => exact Int.le_refl 0
  | succ k ih =>
    rw [bracketDepth]
    split
    · exact ih
    · cases cs[k]? with
      | none => exact ih
      | some c =>
        rw [Option.elim_some]
        unfold countBracket
        split
        · omega
        · exact Int.le_max_left 0 _
        · exact ih

theorem Matched.bracketDepth (h : Matched delimiter cs) (before : ∀ j < k, ¬Delimits closeOne delimiter cs j) :
    bracketDepth balance cs k = bracketDepth closeOne cs k := by
  induction k with
  | zero => rfl
  | succ k ih =>
    have same := ih fun j earlier => before j (Nat.lt_succ_of_lt earlier)
    cases plain : isEscaped '\\' cs k with
    | true => simp only [Statement.bracketDepth, plain, if_true, same]
    | false =>
      cases char : cs[k]? with
      | none => simp [Statement.bracketDepth, plain, char, same]
      | some c =>
        rw [bracketDepth_succ char plain, bracketDepth_succ char plain, same]
        unfold countBracket
        split
        · rfl
        · have inside := (List.getElem?_eq_some_iff.mp char).1
          have opened := h k inside char plain fun j earlier => before j (Nat.lt_succ_of_le earlier)
          have positive := bracketDepth_nonneg cs k
          rw [balance, closeOne, Int.max_eq_right (by omega)]
        · rfl

theorem Matched.delimits_iff (h : Matched delimiter cs) (before : ∀ j < k, ¬Delimits closeOne delimiter cs j) :
    Delimits balance delimiter cs k ↔ Delimits closeOne delimiter cs k := by
  have same := h.bracketDepth before
  exact ⟨fun met => ⟨met.char, met.plain, same ▸ met.outside⟩, fun met => ⟨met.char, met.plain, same ▸ met.outside⟩⟩

theorem Matched.before (h : Matched delimiter cs) (before : ∀ j < k, ¬Delimits balance delimiter cs j) :
    ∀ j < k, ¬Delimits closeOne delimiter cs j := by
  induction k with
  | zero => simp
  | succ k ih =>
    have earlier := ih fun j less => before j (Nat.lt_succ_of_lt less)
    intro j less
    rcases Nat.lt_or_eq_of_le (Nat.le_of_lt_succ less) with less | rfl
    · exact earlier j less
    · exact fun met => before j less ((h.delimits_iff earlier).mpr met)

theorem ReadsPattern.closeOne {reply : Reply (String × Option Char)} (h : ReadsPattern balance delimiter s i reply)
    (matched : Matched delimiter (s.line i)) : ReadsPattern closeOne delimiter s i reply := by
  have none_of : (∀ k, ¬Delimits balance delimiter (s.line i) k) → ∀ k, ¬Delimits Statement.closeOne delimiter (s.line i) k :=
    fun none k => matched.before (fun j _ => none j) k (Nat.lt_succ_self k)
  cases h with
  | delimited first =>
    have earlier := matched.before fun j less met => Nat.not_le_of_lt less (first.2 met)
    refine .delimited ⟨(matched.delimits_iff earlier).mp first.1, fun j met => ?_⟩
    exact Nat.le_of_not_lt fun less => earlier j less met
  | lineEnd none paired => exact .lineEnd (none_of none) paired
  | openEscape none unpaired => exact .openEscape (none_of none) unpaired

/-- What is consumed is the pattern and the delimiter that was found. -/
theorem ReadsPattern.text {text : String} {found : Option Char} {j : Nat}
    (h : ReadsPattern close delimiter s i (.ok (text, found) j)) :
    text ++ found.elim "" String.singleton = s.text i j := by
  cases h with
  | delimited first =>
    have char := first.1.char
    have less := (List.getElem?_eq_some_iff.mp char).1
    rw [Nat.add_assoc, Source.text_line less, List.take_add_one, char, String.ofList_append]
    rfl
  | lineEnd none paired =>
    have all := Source.text_line (s := s) (i := i) (Nat.le_refl (s.line i).length)
    rw [List.take_length] at all
    simpa using all.symm

theorem ReadsPattern.undelimited {reply : Reply (String × Option Char)} {text : String} {j : Nat}
    (h : ReadsPattern close delimiter s i reply) (ok : reply = .ok (text, none) j) :
    ∀ k, ¬Delimits close delimiter (s.line i) k := by
  cases h with
  | delimited first => simp at ok
  | lineEnd none paired => exact none
  | openEscape none unpaired => simp at ok

/-- A pattern ends at the first delimiter that is not escaped and where as many brackets were closed as opened; where
every closing bracket closes one, that is the first delimiter outside of brackets. -/
theorem pattern_upTo_delimiter (delimiter : Char) (s : Source) (i : Nat) :
    ReadsPattern balance delimiter s i (pattern delimiter s i) ∧
      (Matched delimiter (s.line i) → ReadsPattern closeOne delimiter s i (pattern delimiter s i)) ∧
      ∀ text found j, pattern delimiter s i = .ok (text, found) j →
        text ++ found.elim "" String.singleton = s.text i j := by
  have short : (s.line i).length ≤ s.size := by
    have within := (s.line_prefix i).length_le
    rw [Source.length_ahead] at within
    omega
  have reads : ReadsPattern balance delimiter s i (pattern delimiter s i) := by
    rw [pattern_eq]
    exact readsPattern_from (s.size + 2) (Nat.zero_le _) rfl (by simp) (by omega)
  refine ⟨reads, reads.closeOne, fun text found j ok => ?_⟩
  rw [ok] at reads
  exact reads.text

/-- An escaped delimiter, one in brackets, an escaped bracket and a backslash that is escaped itself. -/
theorem pattern_upTo_delimiter_escapes :
    pattern '/' (.ofLines ["\\/[/]\\]\\\\/rest/"]) 0 = .ok ("\\/[/]\\]\\\\", some '/') 10 ∧
      Matched '/' ((Source.ofLines ["\\/[/]\\]\\\\/rest/"]).line 0) ∧
      ReadsPattern closeOne '/' (.ofLines ["\\/[/]\\]\\\\/rest/"]) 0
        (pattern '/' (.ofLines ["\\/[/]\\]\\\\/rest/"]) 0) := by
  have matched : Matched '/' ((Source.ofLines ["\\/[/]\\]\\\\/rest/"]).line 0) := by
    unfold Matched
    decide +kernel
  exact ⟨by decide +kernel, matched, (pattern_upTo_delimiter '/' _ 0).2.1 matched⟩

/-- A closing bracket that closes nothing hides the delimiter after it. -/
theorem not_forall_readsPattern :
    ¬∀ delimiter s i, delimiter ∉ ['\\', '[', ']', '\n'] →
      ReadsPattern closeOne delimiter s i (pattern delimiter s i) := by
  intro reads
  have read : pattern '/' (.ofLines ["]/"]) 0 = .ok ("]/", none) 2 := by decide +kernel
  have met : Delimits closeOne '/' ((Source.ofLines ["]/"]).line 0) 1 := by decide +kernel
  have claim := reads '/' (.ofLines ["]/"]) 0 (by decide)
  rw [read] at claim
  exact claim.undelimited rfl 1 met

end Statement

end VimScript
