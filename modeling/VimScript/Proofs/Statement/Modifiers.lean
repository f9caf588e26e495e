import Mathlib.Algebra.Group.Nat.Defs
import VimScript.Proofs.Statement.Text

/-!
Lists of modifiers before a command. Each is read back with its full name, its bang and its count. The blank after a
bang is left where it is, and nothing that follows a blank is taken for a modifier, so a bang ends the list.
-/

set_option autoImplicit false

namespace VimScript.Statement

variable {s : Source} {i j : Nat} {found : List Modifier} {ws cs rest : List Char}

/-- A modifier as it may be written before a command. -/
structure WrittenModifier where
  name : String
  least : Nat
  listed : (name, least) ∈ modifierNames
  typed : List Char
  shortened : typed <+: name.toList
  enough : least ≤ typed.length
  bang : Bool
  silent : bang = true → name = "silent"
  digits : List Char
  decimal : ∀ d ∈ digits, CharClass.digit.has d = true
  small : Nat.ofDigitChars 10 digits 0 < 2 ^ 64
  counted : digits ≠ [] → name = "tab" ∨ name = "verbose"

namespace WrittenModifier

/-- The count directly before the name and the bang directly after it. -/
def text (w : WrittenModifier) : List Char :=
  w.digits ++ w.typed ++ if w.bang then ['!'] else []

def count (w : WrittenModifier) : Option Nat :=
  if w.digits = [] then none else some (Nat.ofDigitChars 10 w.digits 0)

/-- What is meant: `verbose` alone counts one. -/
def modifier (w : WrittenModifier) : Modifier where
  name := w.name
  bang := w.bang
  count := if w.name = "verbose" then some (w.count.getD 1) else w.count

/-- Modifiers with a blank after each. -/
def spaced (written : List WrittenModifier) : List Char :=
  written.flatMap fun w => w.text ++ [' ']

theorem countOf?_digits (w : WrittenModifier) : countOf? (String.ofList w.digits) = w.count := by
  have small : Nat.ofDigitChars 10 w.digits 0 < UInt64.size := w.small
  have value : w.digits.foldl (fun n d => 10 * n + (d.toNat - 48)) 0 = Nat.ofDigitChars 10 w.digits 0 := rfl
  simp [countOf?, count, value, small]

/-- No abbreviation in the list is one of an earlier modifier. -/
theorem modifierName?_typed (w : WrittenModifier) : modifierName? (String.ofList w.typed) = some w.name := by
  have table : ∀ entry ∈ modifierNames, ∀ n < entry.1.toList.length + 1, entry.2 ≤ n →
      modifierName? (String.ofList (entry.1.toList.take n)) = some entry.1 := by
    rw [modifierName?_eq_byInitial, ← charsOf_eq_toList]
    decide +kernel
  have within : w.typed.length < w.name.toList.length + 1 := by
    have short := w.shortened.length_le
    omega
  have found := table _ w.listed _ within w.enough
  rwa [← List.prefix_iff_eq_take.mp w.shortened] at found

theorem alpha_typed (w : WrittenModifier) : ∀ c ∈ w.typed, CharClass.alpha.has c = true := by
  have table : ∀ entry ∈ modifierNames, entry.1.toList.all CharClass.alpha.has = true := by
    rw [← charsOf_eq_toList]
    decide +kernel
  intro c inside
  exact List.all_eq_true.mp (table _ w.listed) c (w.shortened.subset inside)

theorem typed_ne_nil (w : WrittenModifier) : w.typed ≠ [] := by
  have table : ∀ entry ∈ modifierNames, 0 < entry.2 := by decide +kernel
  have positive := table _ w.listed
  have enough := w.enough
  rw [← List.length_pos_iff]
  omega

end WrittenModifier

/-! ### One turn -/

/-- The count before a modifier. -/
def countDigits : Scan String := do
  if CharClass.digit.hasOpt (← Scan.peekInLine) then
    let digits ← Scan.takeClass .digit
    Scan.skipWhite
    return digits
  else
    return ""

def modifierTurn (found : List Modifier) : Scan (Scan.Turn (List Modifier) (List Modifier)) := do
  let start ← Scan.tell
  let digits ← countDigits
  let typed ← Scan.takeClass .alpha
  let after ← Scan.peekInLine
  Scan.skipWhite
  match modifierName? typed with
  | none =>
    Scan.seek start
    return .done found
  | some name =>
    if name == "hide" && endsCommand after then
      Scan.seek start
      return .done found
    else
      let modifier ← modifierOf name digits after
      return .again (found ++ [modifier])

theorem modifiers_eq : modifiers = Scan.loop [] modifierTurn := rfl

theorem countDigits_of_letter {w : Char} (h : s.ahead i = ws ++ w :: cs)
    (decimal : ∀ d ∈ ws, CharClass.digit.has d = true) (letter : CharClass.alpha.has w = true) :
    countDigits s i = .ok (String.ofList ws) (i + ws.length) := by
  cases ws with
  | nil =>
    have first := peekInLine_of_letter h letter
    simp only [countDigits, Scan.bind_of_ok first, CharClass.hasOpt_some, not_digit_of_alpha letter,
      Bool.false_eq_true, if_false]
    rfl
  | cons d ds =>
    have digit : CharClass.digit.has d = true := decimal d (by simp)
    have line : d ≠ '\n' := Scan.ne_newline_of_has digit
    have peeked : Scan.peekInLine s i = .ok (some d) i := by
      rw [Scan.peekInLine_of_ahead h]
      simp [line]
    have taken := Scan.takeClass_of_ahead .digit h decimal (not_digit_of_alpha letter)
    have skipped := skipWhite_of_letter (Source.ahead_of_append h) letter
    simp only [countDigits, Scan.bind_of_ok peeked, CharClass.hasOpt_some, digit, if_true, Scan.bind_of_ok taken,
      Scan.bind_of_ok skipped]
    rfl

/-- A command's own name ends the list. -/
theorem modifierTurn_of_name (found : List Modifier) (name : IsCommandName ws) (h : s.ahead i = ws ++ cs)
    (stop : CharClass.alpha.hasOpt cs.head? = false) : modifierTurn found s i = .ok (.done found) i := by
  have taken := Scan.takeClass_of_ahead .alpha h name.letters stop
  obtain ⟨w, rest, rfl, letter, -⟩ := name.cons
  have atName : s.ahead i = [] ++ w :: (rest ++ cs) := h
  have noDigits : countDigits s i = .ok "" i := countDigits_of_letter atName (by simp) letter
  simp only [modifierTurn, Scan.bind_of_ok (Scan.tell_apply s i), Scan.bind_of_ok noDigits, Scan.bind_of_ok taken,
    name.noModifier]
  rfl

/-- A blank ends it as well. -/
theorem modifierTurn_of_blank (found : List Modifier) (h : s.ahead i = ' ' :: cs) :
    modifierTurn found s i = .ok (.done found) i := by
  have empty : s.ahead i = [] ++ ' ' :: cs := h
  have noDigits : countDigits s i = .ok "" i := by
    simp only [countDigits, Scan.bind_of_ok (Scan.peekInLine_of_ahead h)]
    rfl
  have taken := Scan.takeClass_of_ahead .alpha empty (by simp) rfl
  have noName : modifierName? (String.ofList []) = none := modifierName?_empty
  simp only [modifierTurn, Scan.bind_of_ok (Scan.tell_apply s i), Scan.bind_of_ok noDigits, Scan.bind_of_ok taken,
    noName]
  rfl

namespace WrittenModifier

theorem count_of_uncounted (w : WrittenModifier) (tab : w.name ≠ "tab") (verbose : w.name ≠ "verbose") :
    w.count = none := by
  by_cases none : w.digits = []
  · simp [count, none]
  · rcases w.counted none with same | same <;> contradiction

theorem modifierOf_quiet (w : WrittenModifier) {after : Option Char} (quiet : w.bang = false)
    (other : (after == some '!') = false) :
    modifierOf w.name (String.ofList w.digits) after s i = .ok w.modifier i := by
  by_cases silent : w.name = "silent"
  · have uncounted := w.count_of_uncounted (by simp [silent]) (by simp [silent])
    simp only [modifierOf, silent, other, modifier, quiet, uncounted]
    rfl
  by_cases tab : w.name = "tab"
  · simp only [modifierOf, tab, countOf?_digits, modifier, quiet]
    rfl
  by_cases verbose : w.name = "verbose"
  · simp only [modifierOf, verbose, countOf?_digits, modifier, quiet]
    rfl
  · have uncounted := w.count_of_uncounted tab verbose
    simp only [modifierOf, modifier, verbose, quiet, uncounted, if_false]
    rfl

theorem modifierOf_bang (w : WrittenModifier) (mark : w.bang = true) (h : s.ahead i = '!' :: cs) :
    modifierOf w.name (String.ofList w.digits) (some '!') s i = .ok w.modifier (i + 1) := by
  have silent := w.silent mark
  have uncounted := w.count_of_uncounted (by simp [silent]) (by simp [silent])
  simp only [modifierOf, silent, beq_self_eq_true, if_true, Scan.bind_of_ok (Scan.next_of_cons h), modifier, mark, uncounted]
  rfl

/-- From the digits to the character after the name. -/
theorem modifierTurn_of_read (w : WrittenModifier) (found : List Modifier) {after : Char} {k : Nat}
    (h : s.ahead i = w.digits ++ (w.typed ++ after :: cs)) (stop : CharClass.alpha.has after = false) (line : after ≠ '\n')
    (goesOn : endsCommand (some after) = false)
    (skipped : Scan.skipWhite s (i + w.digits.length + w.typed.length) = .ok () k)
    (read : modifierOf w.name (String.ofList w.digits) (some after) s k = .ok w.modifier j) :
    modifierTurn found s i = .ok (.again (found ++ [w.modifier])) j := by
  obtain ⟨c, typed, written⟩ := List.exists_cons_of_ne_nil w.typed_ne_nil
  have letter : CharClass.alpha.has c = true := w.alpha_typed c (by simp [written])
  have atName : s.ahead (i + w.digits.length) = w.typed ++ after :: cs := Source.ahead_of_append h
  have front : s.ahead i = w.digits ++ c :: (typed ++ after :: cs) := by
    rw [h, written]
    rfl
  have digits := countDigits_of_letter front w.decimal letter
  have taken := Scan.takeClass_of_ahead .alpha atName w.alpha_typed stop
  have peeked : Scan.peekInLine s (i + w.digits.length + w.typed.length) =
      .ok (some after) (i + w.digits.length + w.typed.length) := by
    rw [Scan.peekInLine_of_ahead (Source.ahead_of_append atName)]
    simp [line]
  simp only [modifierTurn, Scan.bind_of_ok (Scan.tell_apply s i), Scan.bind_of_ok digits, Scan.bind_of_ok taken,
    Scan.bind_of_ok peeked, Scan.bind_of_ok skipped, w.modifierName?_typed, goesOn, Bool.and_false,
    Bool.false_eq_true, if_false, Scan.bind_of_ok read]
  rfl

theorem modifierTurn_quiet (w : WrittenModifier) (found : List Modifier) (quiet : w.bang = false)
    (h : s.ahead i = w.text ++ ' ' :: cs) (solid : CharClass.white.hasOpt cs.head? = false) :
    modifierTurn found s i = .ok (.again (found ++ [w.modifier])) (i + w.text.length + 1) := by
  have whole : s.ahead i = w.digits ++ (w.typed ++ ' ' :: cs) := by
    rw [h, text, quiet]
    simp
  have blank : s.ahead (i + w.digits.length + w.typed.length) = [' '] ++ cs :=
    Source.ahead_of_append (Source.ahead_of_append whole)
  have skipped := Scan.skipWhite_of_ahead [' '] blank (by simp [CharClass.has]) solid
  have length : i + w.text.length + 1 = i + w.digits.length + w.typed.length + 1 := by
    simp [text, quiet]
    omega
  rw [length]
  exact w.modifierTurn_of_read found whole rfl (by decide) rfl skipped (w.modifierOf_quiet quiet rfl)

theorem modifierTurn_bang (w : WrittenModifier) (found : List Modifier) (mark : w.bang = true)
    (h : s.ahead i = w.text ++ cs) :
    modifierTurn found s i = .ok (.again (found ++ [w.modifier])) (i + w.text.length) := by
  have whole : s.ahead i = w.digits ++ (w.typed ++ '!' :: cs) := by
    rw [h, text, mark]
    simp
  have atBang : s.ahead (i + w.digits.length + w.typed.length) = '!' :: cs :=
    Source.ahead_of_append (Source.ahead_of_append whole)
  have skipped := Scan.skipWhite_of_solid atBang rfl
  have length : i + w.text.length = i + w.digits.length + w.typed.length + 1 := by
    simp [text, mark]
    omega
  rw [length]
  exact w.modifierTurn_of_read found whole rfl (by decide) rfl skipped (w.modifierOf_bang mark atBang)

/-! ### The list -/

theorem solid_text (w : WrittenModifier) (cs : List Char) : CharClass.white.hasOpt (w.text ++ cs).head? = false := by
  obtain ⟨c, typed, written⟩ := List.exists_cons_of_ne_nil w.typed_ne_nil
  have letter : CharClass.alpha.has c = true := w.alpha_typed c (by simp [written])
  cases front : w.digits with
  | nil => simpa [text, front, written] using not_white_of_alpha letter
  | cons d ds =>
    have digit : CharClass.digit.has d = true := w.decimal d (by simp [front])
    have solid : CharClass.white.has d = false :=
      CharClass.forall_of_table (p := fun c => CharClass.white.has c = false) (by decide) digit
    simpa [text, front] using solid

theorem solid_spaced (written : List WrittenModifier) (solid : CharClass.white.hasOpt cs.head? = false) :
    CharClass.white.hasOpt (spaced written ++ cs).head? = false := by
  cases written with
  | nil => exact solid
  | cons w written =>
    have first := w.solid_text (' ' :: (spaced written ++ cs))
    simpa [spaced] using first

/-- Modifiers without a bang are read one after the other. -/
theorem rounds_of_quiet {result : List Modifier} (written : List WrittenModifier) (quiet : ∀ w ∈ written, w.bang = false)
    (h : s.ahead i = spaced written ++ cs) (solid : CharClass.white.hasOpt cs.head? = false)
    (last : Scan.Rounds modifierTurn s (found ++ written.map modifier) (i + (spaced written).length) result j) :
    Scan.Rounds modifierTurn s found i result j := by
  induction written generalizing found i with
  | nil => simpa [spaced] using last
  | cons w written ih =>
    have whole : s.ahead i = w.text ++ ' ' :: (spaced written ++ cs) := by
      rw [h]
      simp [spaced]
    have turn := w.modifierTurn_quiet found (quiet w (by simp)) whole (solid_spaced written solid)
    have blank : s.ahead (i + w.text.length) = ' ' :: (spaced written ++ cs) := Source.ahead_of_append whole
    have within := Source.lt_size_of_cons blank
    apply Scan.Rounds.turn turn (by omega) (by omega)
    apply ih (fun other place => quiet other (by simp [place])) (Source.ahead_of_cons blank)
    have length : i + w.text.length + 1 + (spaced written).length = i + (spaced (w :: written)).length := by
      simp [spaced]
      omega
    rw [length, List.append_assoc]
    exact last

/-- A bang ends the list, whatever comes after the blank. -/
theorem modifiers_of_bang (written : List WrittenModifier) (w : WrittenModifier) (quiet : ∀ w ∈ written, w.bang = false)
    (mark : w.bang = true) (h : s.ahead i = spaced written ++ (w.text ++ ' ' :: cs)) :
    modifiers s i = .ok ((written ++ [w]).map modifier) (i + (spaced written).length + w.text.length) := by
  have atLast := Source.ahead_of_append h
  have blank := Source.ahead_of_append atLast
  have within := Source.lt_size_of_cons blank
  have some : 0 < w.text.length := by
    simp only [text, mark, if_true, List.length_append, List.length_singleton]
    omega
  rw [modifiers_eq]
  apply Scan.Rounds.loop
  apply rounds_of_quiet written quiet h (w.solid_text _)
  apply Scan.Rounds.turn (w.modifierTurn_bang _ mark atLast) (by omega) (by omega)
  simpa using Scan.Rounds.last (modifierTurn_of_blank _ blank)

/-- Without a bang the list goes up to the name of the command. -/
theorem modifiers_of_quiet (written : List WrittenModifier) (quiet : ∀ w ∈ written, w.bang = false) (name : IsCommandName ws)
    (h : s.ahead i = spaced written ++ (ws ++ cs)) (stop : CharClass.alpha.hasOpt cs.head? = false) :
    modifiers s i = .ok (written.map modifier) (i + (spaced written).length) := by
  have solid : CharClass.white.hasOpt (ws ++ cs).head? = false := by
    obtain ⟨w, rest, rfl, letter, -⟩ := name.cons
    exact not_white_of_alpha letter
  rw [modifiers_eq]
  apply Scan.Rounds.loop
  apply rounds_of_quiet written quiet h solid
  exact .last (modifierTurn_of_name _ name (Source.ahead_of_append h) stop)

end WrittenModifier

end VimScript.Statement
