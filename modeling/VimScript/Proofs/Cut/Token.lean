import VimScript.Proofs.Cut.Number
import Mathlib.Data.List.Infix

/-!
Tokens before a cut. A token that ends before the cut is read from both buffers. Where the first buffer has one that goes
on behind it, a remnant of it is left in the second one, and no remnant is taken for a name, a comma or a bracket.
-/

set_option autoImplicit false

namespace VimScript.Source.Cut

open Scan Token

variable {s t : Source} {i j k : Nat} {c : Char} {cs : List Char} {cut : s.Cut t j}

/-! ### Words and sigils -/

/-- A word of name characters stands before the cut if it stands anywhere. -/
theorem word_within (cut : s.Cut t j) {word : List Char} (names : ∀ c ∈ word, CharClass.name.has c = true) (h : i ≤ j) :
    word.isPrefixOf (s.ahead i) = word.isPrefixOf (t.ahead i) ∧
      (word.isPrefixOf (s.ahead i) = true → i + word.length ≤ j) := by
  obtain ⟨more, newline⟩ := cut.newline
  have length := cut.length_between h
  have inside {rest : List Char} (stop : CharClass.name.hasOpt rest.head? = false) :
      word <+: s.between i j ++ rest ↔ word <+: s.between i j :=
    ⟨prefix_of_class .name names stop, fun front => front.trans (List.prefix_append ..)⟩
  rw [cut.front i h, ahead_eq s h, Bool.eq_iff_iff, List.isPrefixOf_iff_prefix, List.isPrefixOf_iff_prefix,
    inside cut.stop, inside (by rw [newline]; rfl)]
  refine ⟨Iff.rfl, fun front => ?_⟩
  have short := front.length_le
  omega

/-- The mode of an identity test that a character stands behind. -/
def modeBefore : Option Char → CaseMode
  | some '?' => .ignoring
  | some '#' => .matching
  | _ => .byOption

/-- An identity test in one of its modes, as the length of its text. -/
def takeTest (test : Comparison) (mode : CaseMode) : Scan (Option (TokenKind × String)) := do
  let text ← Scan.take (test.lexeme.length + mode.suffix.length)
  return some (.compare test mode, text)

theorem identityTest_eq (test : Comparison) (s : Source) (i : Nat) : identityTest test s i =
    if (test.lexeme.toList.isPrefixOf (s.ahead i) && !CharClass.ident.hasOpt (s.char? (i + test.lexeme.length))) = true then
      takeTest test (modeBefore (s.char? (i + test.lexeme.length))) s i
    else .ok none i := by
  simp only [identityTest, bind_of_ok (lookingAt_of_ahead test.lexeme rfl), bind_of_ok (peekAt_char _ _ _)]
  split
  · rfl
  · rfl

theorem takeTest_of_ahead {test : Comparison} {mode : CaseMode} (identity : test = .is ∨ test = .isNot)
    (h : s.ahead i = identityText test mode ++ cs) :
    takeTest test mode s i = .ok (some (.compare test mode, String.ofList (identityText test mode)))
      (i + test.lexeme.length + mode.suffix.length) := by
  have lines : '\n' ∉ identityText test mode := by
    rcases identity with rfl | rfl <;> cases mode <;> decide
  have size : (identityText test mode).length = test.lexeme.length + mode.suffix.length := by
    simp [identityText, String.length_toList]
  have taken := take_of_ahead _ h lines
  rw [size, ← Nat.add_assoc] at taken
  exact bind_of_ok taken

theorem takeTest_within (cut : s.Cut t j) {test : Comparison} {mode : CaseMode} {found : Option (TokenKind × String)}
    (h : i + test.lexeme.length + mode.suffix.length ≤ j) (run : takeTest test mode s i = .ok found k) :
    k ≤ j ∧ takeTest test mode t i = .ok found k ∧ (found = none → k = i) := by
  obtain ⟨text, q, -, bound, left, right⟩ := cut.take_within (i := i) (test.lexeme.length + mode.suffix.length) (by omega)
  rw [takeTest, bind_of_ok left] at run
  obtain ⟨rfl, rfl⟩ := Reply.ok.inj run
  exact ⟨bound, by rw [takeTest, bind_of_ok right]; rfl, by simp⟩

/-- Where the question mark behind a word stands at the cut, the word alone is left of the test. -/
theorem takeTest_at_cut (cut : s.Cut t j) {test : Comparison} (identity : test = .is ∨ test = .isNot)
    (last : i + test.lexeme.length = j) (stands : test.lexeme.toList <+: s.ahead i) (stands' : test.lexeme.toList <+: t.ahead i)
    (mark : s.char? j = some '?') {found : Option (TokenKind × String)} (run : takeTest test .ignoring s i = .ok found k) :
    ∃ a b k', found = some a ∧ takeTest test .byOption t i = .ok (some b) k' ∧ cut.Leaves a.1 k b.1 k' := by
  obtain ⟨rest, front⟩ := stands
  have behind : s.ahead j = rest := by
    rw [← last]
    exact Source.ahead_of_append front.symm
  obtain ⟨cs, point⟩ := List.head?_eq_some_iff.mp ((Source.char?_eq s j).symm.trans mark)
  have whole : s.ahead i = identityText test .ignoring ++ cs := by
    rw [← front, ← behind, point, identityText, List.append_assoc]
    rfl
  obtain ⟨rest', front'⟩ := stands'
  have short : t.ahead i = identityText test .byOption ++ rest' := by
    rw [← front', identityText]
    simp [CaseMode.suffix]
  obtain ⟨rfl, rfl⟩ := Reply.ok.inj ((takeTest_of_ahead identity whole).symm.trans run)
  have readable : cut.Readable (i + test.lexeme.length + CaseMode.byOption.suffix.length) := last ▸ cut.readable_cut
  refine ⟨_, _, _, rfl, takeTest_of_ahead identity short, rfl, readable, .inl ?_⟩
  rw [last]
  exact Nat.lt_succ_self j

/-- The mode of a test does not depend on a character of names. -/
theorem modeBefore_at_cut (cut : s.Cut t j) : s.char? j = some '?' ∨ modeBefore (s.char? j) = .byOption := by
  have stop := cut.stop
  rw [← Source.char?_eq] at stop
  unfold modeBefore
  split
  · exact .inl ‹_›
  · rw [‹s.char? j = _›] at stop
    cases stop
  · exact .inr rfl

theorem tries_identity (cut : s.Cut t j) {test : Comparison} (identity : test = .is ∨ test = .isNot) (h : i ≤ j) :
    cut.Tries i (identityTest test) := by
  intro found k run
  have words : ∀ c ∈ test.lexeme.toList, CharClass.name.has c = true := by
    rcases identity with rfl | rfl <;> exact List.all_eq_true.mp rfl
  obtain ⟨same, within⟩ := cut.word_within words h
  rw [length_lexeme] at within
  rw [identityTest_eq] at run ⊢
  rw [← same]
  have quiet (run : (.ok none i : Reply (Option (TokenKind × String))) = .ok found k) :
      k ≤ j ∧ (.ok none i : Reply (Option (TokenKind × String))) = .ok found k ∧ (found = none → k = i) := by
    obtain ⟨rfl, rfl⟩ := Reply.ok.inj run
    exact ⟨h, rfl, fun _ => rfl⟩
  by_cases stands : test.lexeme.toList.isPrefixOf (s.ahead i) = true
  · have bound := within stands
    have idents (c : Option Char) (ident : CharClass.ident.hasOpt c = true) : CharClass.name.hasOpt c = true :=
      name_of_hasOpt (fun _ => name_of_word) c ident
    rw [← cut.test_eq idents test.lexeme.length bound]
    split at run
    · rename_i ends
      rw [if_pos ends]
      rcases Nat.lt_or_eq_of_le bound with less | last
      · obtain ⟨c, left, right⟩ := cut.exists_char less
        rw [Source.char?_of_cons left] at run
        rw [Source.char?_of_cons right]
        have short (mode : CaseMode) : mode.suffix.length ≤ 1 := by cases mode <;> decide
        exact .inl (cut.takeTest_within (by have := short (modeBefore (some c)); omega) run)
      · obtain ⟨more, newline⟩ := cut.newline
        rw [last] at run ⊢
        rw [Source.char?_of_cons newline]
        rcases cut.modeBefore_at_cut with mark | mode
        · have prefixes := List.isPrefixOf_iff_prefix.mp stands
          rw [mark] at run
          exact .inr (cut.takeTest_at_cut identity last prefixes (List.isPrefixOf_iff_prefix.mp (same ▸ stands)) mark run)
        · rw [mode] at run
          have alone : i + test.lexeme.length + CaseMode.byOption.suffix.length ≤ j := Nat.le_of_eq last
          exact .inl (cut.takeTest_within alone run)
    · rename_i goes
      rw [if_neg goes]
      exact .inl (quiet run)
  · rw [Bool.not_eq_true] at stands
    rw [stands, Bool.false_and, if_neg (by simp)] at run ⊢
    exact .inl (quiet run)

/-- A register whose name stands at the cut is left without one. -/
theorem tries_register (cut : s.Cut t j) (h : i < j) (front : s.ahead i = '@' :: s.ahead (i + 1))
    (front' : t.ahead i = '@' :: t.ahead (i + 1)) :
    cut.Tries i (do return some (TokenKind.register, ← Scan.take 2)) := by
  intro found k run
  rcases Nat.lt_or_eq_of_le (Nat.succ_le_of_lt h) with less | last
  · obtain ⟨text, q, -, bound, left, right⟩ := cut.take_within 2 less
    rw [bind_of_ok left] at run
    obtain ⟨rfl, rfl⟩ := Reply.ok.inj run
    exact .inl ⟨bound, by rw [bind_of_ok right]; rfl, by simp⟩
  · subst last
    obtain ⟨more, newline⟩ := cut.newline
    have right : Scan.take 2 t i = .ok "@" (i + 1) := by
      rw [take_eq, front', newline]
      rfl
    have left := take_eq 2 s i
    have shift : Source.run (fun _ => true) (s.ahead i) = '@' :: Source.run (fun _ => true) (s.ahead (i + 1)) := by
      rw [front]
      rfl
    rw [shift] at left
    rw [bind_of_ok left] at run
    obtain ⟨rfl, rfl⟩ := Reply.ok.inj run
    cases Source.run (fun _ => true) (s.ahead (i + 1)) with
    | nil => exact .inl ⟨Nat.le_refl _, by rw [bind_of_ok right]; rfl, by simp⟩
    | cons d ds =>
      exact .inr ⟨_, (.register, "@"), i + 1, rfl, by rw [bind_of_ok right]; rfl, rfl, cut.readable_cut,
        .inl (Nat.lt_succ_self _)⟩

theorem tries_sigil (cut : s.Cut t j) (h : i < j) (front : s.ahead i = c :: s.ahead (i + 1))
    (front' : t.ahead i = c :: t.ahead (i + 1)) : cut.Tries i (sigil c) := by
  have words (d : Char) (word : CharClass.word.has d = true) : CharClass.name.has d = true := name_of_word word
  have colons (d : Option Char) (colon : (d == some ':') = true) : CharClass.name.hasOpt d = true := by
    rw [eq_of_beq colon]
    rfl
  unfold sigil
  split
  · exact cut.tries_headed .env .word words h
  · exact cut.tries_register h front front'
  · intro found k run
    obtain ⟨same, within⟩ := cut.marked_eq (f := fun d => d == some 'g' || d == some 'l') (name_of_either (by decide)) colons h
    rw [bind_of_ok (peekAt_char 1 s i), bind_of_ok (peekAt_char 2 s i)] at run
    rw [bind_of_ok (peekAt_char 1 t i), bind_of_ok (peekAt_char 2 t i), ← same]
    split at run
    · rename_i isScoped
      rw [if_pos isScoped]
      simp only [Bool.and_eq_true] at isScoped
      exact cut.tries_headed .option .word words (cut.lt_of_test colons (within isScoped.1) isScoped.2) found k run
    · rename_i plain
      rw [if_neg plain]
      exact cut.tries_headed .option .word words h found k run
  · rintro found k ⟨⟩
    exact .inl ⟨Nat.le_of_lt h, rfl, fun _ => rfl⟩

/-! ### Operators -/

/-- What a proper part of an operator is read as: a shorter operator, a mark, or the sigil of an option. -/
def isBroken (xs : List Char) : Bool :=
  match form? xs with
  | some form => form.1.toList == xs && isRemnant form.2
  | none => xs == ['&'] || punctuation.any fun mark => xs == [mark.1] && isRemnant mark.2

theorem operatorForms_broken : (operatorForms.all fun form =>
    form.1.toList.inits.all fun xs => xs == [] || xs == form.1.toList || isBroken xs) = true := by
  decide +kernel

theorem operatorForms_line {form : String × TokenKind} (place : form ∈ operatorForms) : '\n' ∉ form.1.toList := by
  have table : (operatorForms.all fun form => !form.1.toList.contains '\n') = true := by decide +kernel
  simpa using List.all_eq_true.mp table form place

theorem find?_of_fewer {α : Type} {f g : α → Bool} {xs : List α} {a : α} (fewer : ∀ x, g x = true → f x = true)
    (found : xs.find? f = some a) (met : g a = true) : xs.find? g = some a := by
  induction xs with
  | nil => simp at found
  | cons x xs ih =>
    rw [List.find?_cons] at found ⊢
    cases first : f x with
    | true =>
      rw [first] at found
      obtain rfl := Option.some.inj found
      rw [met]
    | false =>
      rw [first] at found
      have other : g x = false := Bool.eq_false_iff.mpr fun met => by simp [fewer x met] at first
      rw [other]
      exact ih found

theorem find?_congr {α : Type} {f g : α → Bool} {xs : List α} (same : ∀ x ∈ xs, f x = g x) : xs.find? f = xs.find? g := by
  induction xs with
  | nil => rfl
  | cons x xs ih =>
    rw [List.find?_cons, List.find?_cons, same x List.mem_cons_self, ih fun y place => same y (List.mem_cons_of_mem x place)]

/-- An operator of the first buffer that stands before the cut is the one of the second buffer. One that does not
leaves the part before the cut. -/
theorem form_within (cut : s.Cut t j) (h : i ≤ j) :
    form? (t.ahead i) = form? (s.between i j) ∧
      (form? (s.ahead i) = form? (s.between i j) ∨
        ∃ form ∈ operatorForms, form? (s.ahead i) = some form ∧ j < i + form.1.length ∧ s.between i j <+: form.1.toList) := by
  obtain ⟨more, newline⟩ := cut.newline
  have length := cut.length_between h
  constructor
  · rw [cut.front i h, newline, form?, form?]
    refine find?_congr fun form place => ?_
    exact Overlap.isPrefixOf_newline (operatorForms_line place) _ _
  have fewer (form : String × TokenKind) (part : form.1.toList.isPrefixOf (s.between i j) = true) :
      form.1.toList.isPrefixOf (s.ahead i) = true := by
    rw [List.isPrefixOf_iff_prefix] at part ⊢
    exact part.trans ⟨_, (ahead_eq s h).symm⟩
  cases found : form? (s.ahead i) with
  | none =>
    left
    refine (List.find?_eq_none.mpr fun form place part => ?_).symm
    exact List.find?_eq_none.mp found form place (fewer form part)
  | some form =>
    have stands := List.isPrefixOf_iff_prefix.mp
      (List.find?_some (p := fun form : String × TokenKind => form.1.toList.isPrefixOf (s.ahead i)) found)
    rw [ahead_eq s h] at stands
    by_cases whole : i + form.1.length ≤ j
    · left
      refine (find?_of_fewer (fun form => fewer form) found (List.isPrefixOf_iff_prefix.mpr ?_)).symm
      exact List.prefix_of_prefix_length_le stands (List.prefix_append ..) (by rw [String.length_toList]; omega)
    · right
      refine ⟨form, List.mem_of_find?_eq_some found, rfl, by omega, ?_⟩
      exact List.prefix_of_prefix_length_le (List.prefix_append ..) stands (by rw [String.length_toList]; omega)

theorem firstForm_of_some {form : String × TokenKind} (found : form? (s.ahead i) = some form) :
    firstForm operatorForms s i = .ok (some (form.2, form.1)) (i + form.1.length) := by
  have forms := firstForm_of_ahead operatorForms (s := s) (i := i) rfl
  rw [form?] at found
  rwa [found] at forms

theorem firstForm_of_none (missing : form? (s.ahead i) = none) : firstForm operatorForms s i = .ok none i := by
  have forms := firstForm_of_ahead operatorForms (s := s) (i := i) rfl
  rw [form?] at missing
  rwa [missing] at forms

/-- What is read at a character that starts neither a number nor a name. -/
def symbol (c : Char) : Scan (TokenKind × String) := do
  if let some found ← firstForm operatorForms then return found
  if let some found ← sigil c then return found
  match punctuation.lookup c with
  | some kind =>
    Scan.skip 1
    return (kind, String.singleton c)
  | none => Scan.failHere (.unexpectedCharacter (some c))

/-- A text comes out alike, or something is left of it. -/
def Gets (cut : s.Cut t j) (i : Nat) (x : Scan (TokenKind × String)) : Prop :=
  ∀ a k, x s i = .ok a k → (k ≤ j ∧ x t i = .ok a k) ∨ ∃ b k', x t i = .ok b k' ∧ cut.Leaves a.1 k b.1 k'

theorem Tries.gets {x : Scan (Option (TokenKind × String))} {y : Scan (TokenKind × String)} (first : cut.Tries i x)
    (rest : cut.Gets i y) : cut.Gets i (do if let some found ← x then return found else y) := by
  intro a k run
  obtain ⟨found, q, left, last⟩ := bind_ok.mp run
  rcases first found q left with ⟨bound, right, none⟩ | ⟨a', b, k', rfl, right, leaves⟩
  · cases found with
    | some found =>
      obtain ⟨rfl, rfl⟩ := Reply.ok.inj last
      exact .inl ⟨bound, bind_of_ok right⟩
    | none =>
      obtain rfl := none rfl
      rw [bind_of_ok right]
      exact rest a k last
  · obtain ⟨rfl, rfl⟩ := Reply.ok.inj last
    exact .inr ⟨b, k', bind_of_ok right, leaves⟩

theorem punctuation_found {mark : Char × TokenKind} (place : mark ∈ punctuation) :
    punctuation.lookup mark.1 = some mark.2 ∧ mark.1 ≠ '$' ∧ mark.1 ≠ '@' ∧ mark.1 ≠ '&' := by
  have table : (punctuation.all fun mark =>
      punctuation.lookup mark.1 == some mark.2 && mark.1 != '$' && mark.1 != '@' && mark.1 != '&') = true := by decide
  simpa [and_assoc] using List.all_eq_true.mp table mark place

theorem sigil_of_other (other : c ≠ '$' ∧ c ≠ '@' ∧ c ≠ '&') (s : Source) (i : Nat) : sigil c s i = .ok none i := by
  unfold sigil
  split
  · exact absurd rfl other.1
  · exact absurd rfl other.2.1
  · exact absurd rfl other.2.2
  · rfl

/-- In place of an operator that goes on behind the cut, the part before it is read. -/
theorem symbol_of_broken (cut : s.Cut t j) (h : i < j) (front : t.ahead i = c :: t.ahead (i + 1))
    (same : form? (t.ahead i) = form? (s.between i j)) (first : (s.between i j).head? = some c)
    (broken : isBroken (s.between i j) = true) :
    ∃ found, symbol c t i = .ok found j ∧ isRemnant found.1 = true := by
  obtain ⟨more, newline⟩ := cut.newline
  have length := cut.length_between (Nat.le_of_lt h)
  unfold isBroken at broken
  cases found : form? (s.between i j) with
  | some form =>
    have forms := firstForm_of_some (same.trans found)
    rw [found] at broken
    simp only [Bool.and_eq_true, beq_iff_eq] at broken
    obtain ⟨whole, remnant⟩ := broken
    have size : i + form.1.length = j := by
      rw [← String.length_toList, whole]
      omega
    rw [size] at forms
    exact ⟨(form.2, form.1), bind_of_ok forms, remnant⟩
  | none =>
    have forms := firstForm_of_none (same.trans found)
    rw [found] at broken
    simp only [Bool.or_eq_true, List.any_eq_true, Bool.and_eq_true, beq_iff_eq] at broken
    rcases broken with option | ⟨mark, place, single, remnant⟩
    · rw [option, List.length_singleton] at length
      obtain rfl : '&' = c := by simpa [option] using first
      obtain rfl : i + 1 = j := by omega
      have right : sigil '&' t i = .ok (some (.option, "&")) (i + 1) := by
        have point : t.ahead i = ['&'] ++ '\n' :: more := front.trans (by rw [newline, List.singleton_append])
        have taken : Scan.take 1 t i = .ok "&" (i + 1) := take_of_ahead ['&'] point (by decide)
        have none : Scan.takeClass .word t (i + 1) = .ok "" (i + 1) :=
          takeClass_of_ahead .word (show t.ahead (i + 1) = [] ++ '\n' :: more from newline) (by simp) rfl
        have noScope : t.char? (i + 1) = some '\n' := Source.char?_of_cons newline
        simp only [sigil, bind_of_ok (peekAt_char 1 t i), bind_of_ok (peekAt_char 2 t i), noScope]
        exact (bind_of_ok taken).trans (bind_of_ok none)
      exact ⟨_, (bind_of_ok forms).trans (bind_of_ok right), rfl⟩
    · obtain ⟨kind, other⟩ := punctuation_found place
      rw [single, List.length_singleton] at length
      obtain rfl : mark.1 = c := by simpa [single] using first
      obtain rfl : i + 1 = j := by omega
      refine ⟨(mark.2, String.singleton mark.1), ?_, remnant⟩
      rw [symbol, bind_of_ok forms]
      dsimp only
      rw [bind_of_ok (sigil_of_other other t i), kind]
      rfl

/-- An operator that stands before the cut, or none, is found in both buffers. -/
theorem tries_form (cut : s.Cut t j) (h : i ≤ j) (left : form? (s.ahead i) = form? (s.between i j))
    (right : form? (t.ahead i) = form? (s.between i j)) : cut.Tries i (firstForm operatorForms) := by
  intro found k run
  cases stands : form? (s.between i j) with
  | none =>
    obtain ⟨rfl, rfl⟩ := Reply.ok.inj ((firstForm_of_none (left.trans stands)).symm.trans run)
    exact .inl ⟨h, firstForm_of_none (right.trans stands), fun _ => rfl⟩
  | some form =>
    obtain ⟨rfl, rfl⟩ := Reply.ok.inj ((firstForm_of_some (left.trans stands)).symm.trans run)
    have part : form.1.toList.isPrefixOf (s.between i j) = true :=
      List.find?_some (p := fun form : String × TokenKind => form.1.toList.isPrefixOf (s.between i j)) stands
    have short := (List.isPrefixOf_iff_prefix.mp part).length_le
    have length := cut.length_between h
    rw [String.length_toList] at short
    exact .inl ⟨by omega, firstForm_of_some (right.trans stands), by simp⟩

theorem symbol_within (cut : s.Cut t j) (h : i < j) (front : s.ahead i = c :: s.ahead (i + 1))
    (front' : t.ahead i = c :: t.ahead (i + 1)) : cut.Gets i (symbol c) := by
  obtain ⟨right, left | ⟨form, place, found, far, part⟩⟩ := cut.form_within (Nat.le_of_lt h)
  · refine Tries.gets (cut.tries_form (Nat.le_of_lt h) left right) (Tries.gets (cut.tries_sigil h front front') ?_)
    split
    · rintro a k run
      obtain ⟨rfl, rfl⟩ := Reply.ok.inj run
      exact .inl ⟨h, rfl⟩
    · rintro a k ⟨⟩
  · -- The text before the cut is a proper part of the operator.
    intro a k run
    have length := cut.length_between (Nat.le_of_lt h)
    rw [symbol, bind_of_ok (firstForm_of_some found)] at run
    obtain ⟨rfl, rfl⟩ := Reply.ok.inj run
    obtain ⟨d, ds, text⟩ := List.exists_cons_of_length_pos (l := s.between i j) (by omega)
    have head : (s.between i j).head? = some c := by
      have whole := (ahead_eq s (Nat.le_of_lt h)).symm.trans front
      rw [text, List.cons_append, List.cons.injEq] at whole
      rw [text, whole.1, List.head?_cons]
    have broken : isBroken (s.between i j) = true := by
      have parts := List.all_eq_true.mp operatorForms_broken form place
      have known := List.all_eq_true.mp parts _ ((List.mem_inits _ _).mpr part)
      have some : s.between i j ≠ [] := by simp [text]
      have proper : s.between i j ≠ form.1.toList := by
        intro same
        rw [same, String.length_toList] at length
        omega
      simpa [some, proper] using known
    obtain ⟨b, run, remnant⟩ := cut.symbol_of_broken h front' right head broken
    exact .inr ⟨b, j, run, remnant, cut.readable_cut, .inl far⟩

theorem lexeme_within (cut : s.Cut t j) (h : i < j) (front : s.ahead i = c :: s.ahead (i + 1))
    (front' : t.ahead i = c :: t.ahead (i + 1)) : cut.Gets i (lexeme c) := by
  apply Tries.gets (cut.number_within h front front')
  apply Tries.gets (cut.tries_identity (.inr rfl) (Nat.le_of_lt h))
  apply Tries.gets (cut.tries_identity (.inl rfl) (Nat.le_of_lt h))
  split
  · intro a k run
    obtain ⟨text, q, -, bound, left, right⟩ := cut.takeClass_within .name (fun _ inside => inside) (Nat.le_of_lt h)
    rw [bind_of_ok left] at run
    obtain ⟨rfl, rfl⟩ := Reply.ok.inj run
    exact .inl ⟨bound, by rw [bind_of_ok right]; rfl⟩
  · exact cut.symbol_within h front front'

/-! ### Tokens -/

/-- A run before the cut. In the first buffer it may go on behind it. -/
theorem skipWhile_within (cut : s.Cut t j) (f : Char → Bool) (h : i ≤ j) :
    ∃ q r, i ≤ q ∧ q ≤ j ∧ Scan.skipWhile f s i = .ok () r ∧ Scan.skipWhile f t i = .ok () q ∧ (r = q ∨ q = j ∧ j < r) := by
  obtain ⟨xs, right, bound, left⟩ := cut.run_eq f h
  refine ⟨i + xs.length, _, Nat.le_add_right .., bound, skipWhile_eq _ s i, (skipWhile_eq _ t i).trans (by rw [right]), ?_⟩
  rcases left with left | ⟨last, c, cs, -, -, -, left⟩
  · exact .inl (by rw [left])
  · refine .inr ⟨last, ?_⟩
    rw [left, List.length_append, List.length_cons]
    omega

theorem next_of_skipWhite (skip : Scan.skipWhite s i = .ok () k) : Token.next s i = Token.next s k := by
  obtain ⟨xs, spans, blanks, -⟩ := (gives_skipWhite s i).of_ok skip
  rw [Token.next_blanks xs spans.ahead blanks, spans.cursor]

theorem next_of_char (skip : Scan.skipWhite s i = .ok () k) (front : s.ahead k = c :: cs) (line : c ≠ '\n') :
    Token.next s i = (do
      let (kind, value) ← lexeme c
      return ⟨kind, value, s.position k⟩ : Scan Token) s k := by
  rw [Token.next, bind_of_ok skip, bind_of_ok (here_apply s k), bind_of_ok (peek_of_ahead front)]
  simp only [List.head?_cons]

theorem readable_newline (cut : s.Cut t j) : cut.Readable (j + 1) := by
  obtain ⟨n, blank⟩ := cut.blank
  have behind : t.ahead (j + 1) = List.replicate n '\n' := Source.ahead_of_cons (blank.trans List.replicate_succ)
  cases n with
  | zero => exact ⟨_, _, next_of_empty behind⟩
  | succ n => exact ⟨_, _, next_of_newline (behind.trans List.replicate_succ)⟩

/-- What the second buffer has in place of a token that it does not share. -/
structure Broken (cut : s.Cut t j) (i : Nat) (token : Token) (k : Nat) (token' : Token) (k' : Nat) : Prop where
  remnant : isRemnant token'.kind = true
  readable : cut.Readable k'
  gone : j < k ∨ token.kind = .eof ∨ token.kind = .number ∧ token'.kind = .blob ∧ k < j ∧ cut.Shut k
  line : i = j → token'.kind = .eol

theorem next_within (cut : s.Cut t j) {token : Token} (h : i ≤ j) (run : Token.next s i = .ok token k) :
    (i < j ∧ k ≤ j ∧ Token.next t i = .ok token k) ∨
      ∃ token' k', Token.next t i = .ok token' k' ∧ cut.Broken i token k token' k' := by
  obtain ⟨more, newline⟩ := cut.newline
  obtain ⟨q, r, later, bound, left, right, place⟩ := cut.skipWhile_within CharClass.white.has h
  rcases Nat.lt_or_eq_of_le bound with less | rfl
  · obtain rfl : r = q := by omega
    obtain ⟨c, front, front'⟩ := cut.exists_char less
    by_cases line : c = '\n'
    · subst line
      rw [next_of_skipWhite left, next_of_newline front] at run
      obtain ⟨rfl, rfl⟩ := Reply.ok.inj run
      exact .inl ⟨by omega, less, by rw [next_of_skipWhite right, next_of_newline front', cut.places]⟩
    · rw [next_of_char left front line] at run
      rw [next_of_char right front' line, cut.places]
      obtain ⟨⟨kind, value⟩, l, found, last⟩ := bind_ok.mp run
      obtain ⟨rfl, rfl⟩ := Reply.ok.inj last
      rcases cut.lexeme_within less front front' _ l found with ⟨within, same⟩ | ⟨b, k', same, leaves⟩
      · exact .inl ⟨by omega, within, bind_of_ok same⟩
      · refine .inr ⟨⟨b.1, b.2, s.position r⟩, k', bind_of_ok same, leaves.remnant, leaves.readable, ?_, by omega⟩
        exact leaves.gone.imp_right .inr
  · refine .inr ⟨⟨.eol, "<EOL>", t.position q⟩, q + 1, ?_, rfl, cut.readable_newline, ?_, fun _ => rfl⟩
    · rw [next_of_skipWhite right, next_of_newline newline]
    · have covers := covers_of_next ((next_of_skipWhite left).symm.trans run)
      by_cases ended : token.kind = .eof
      · exact .inr (.inl ended)
      · have less := (covers.lt_of_more ended).1
        exact .inl (by omega)

end VimScript.Source.Cut
