import VimScript.Proofs.Scan.Gives
import VimScript.Proofs.Token.Text

/-!
How tokens are spelled: the text of every token, by its kind, and what cannot follow it.
-/

set_option autoImplicit false

namespace VimScript

variable {s : Source} {i : Nat} {xs ys cs rest : List Char} {c d e : Char} {kind : TokenKind} {text : String}

namespace Token

def isNumberChar (c : Char) : Bool :=
  CharClass.hex.has c || c == 'x' || c == 'X' || c == '.' || c == '-' || c == '+'

/-- A word that goes on is no identity test. -/
def NoIdentity (test : Comparison) (cs : List Char) : Prop :=
  ∀ rest, cs = test.lexeme.toList ++ rest → CharClass.ident.hasOpt rest.head? = true

/-- The texts a kind of token has, and what may come after them. -/
inductive Spelling : TokenKind → List Char → List Char → Prop where
  | number {d : Char} {ds rest : List Char} (digit : CharClass.digit.has d = true)
      (chars : ∀ x ∈ ds, isNumberChar x = true) (stop : rest.head? ≠ some '0') : Spelling .number (d :: ds) rest
  | blob {mark : Char} {ds rest : List Char} (isMark : mark = 'z' ∨ mark = 'Z')
      (chars : ∀ x ∈ ds, CharClass.hex.has x = true ∨ x = '.') : Spelling .blob ('0' :: mark :: ds) rest
  | identity {test : Comparison} {mode : CaseMode} {rest : List Char} (identity : test = .is ∨ test = .isNot)
      (stop : mode = .byOption → ∀ c ∈ rest.head?, CharClass.ident.has c = false ∧ c ≠ '?' ∧ c ≠ '#') :
      Spelling (.compare test mode) (identityText test mode) rest
  | identifier {c : Char} {cs rest : List Char} (start : CharClass.nameStart.has c = true)
      (chars : ∀ x ∈ cs, CharClass.name.has x = true) (stop : CharClass.name.hasOpt rest.head? = false)
      (other : ∀ test, test = .is ∨ test = .isNot → NoIdentity test (c :: cs ++ rest)) :
      Spelling .identifier (c :: cs) rest
  | form {text : String} {kind : TokenKind} {rest : List Char} (found : form? (text.toList ++ rest) = some (text, kind)) :
      Spelling kind text.toList rest
  | env {ws rest : List Char} (word : ∀ x ∈ ws, CharClass.word.has x = true) : Spelling .env ('$' :: ws) rest
  | register {c : Char} {rest : List Char} (line : c ≠ '\n') : Spelling .register ['@', c] rest
  | unnamedRegister {rest : List Char} (stop : ∀ c ∈ rest.head?, c = '\n') : Spelling .register ['@'] rest
  | option {ws rest : List Char} (chars : ∀ x ∈ ws, CharClass.name.has x = true) : Spelling .option ('&' :: ws) rest
  | punctuation {c : Char} {kind : TokenKind} {rest : List Char} (noForm : form? (c :: rest) = none)
      (entry : punctuation.lookup c = some kind) : Spelling kind [c] rest

/-- What is found by an attempt: a spelled token, or nothing and the cursor stays. -/
def Attempted (s : Source) (i : Nat) : Option (TokenKind × String) → Nat → Prop
  | none, j => j = i
  | some (kind, text), j => ∃ xs, text = String.ofList xs ∧ s.Spans i xs j ∧ Spelling kind xs (s.ahead j)

/-- What is read where the next character is not a blank. -/
inductive Taken (s : Source) (k : Nat) : Token → Nat → Prop where
  | eof (empty : s.ahead k = []) : Taken s k ⟨.eof, "<EOF>", s.position k⟩ k
  | eol (line : s.Spans k ['\n'] (k + 1)) : Taken s k ⟨.eol, "<EOL>", s.position k⟩ (k + 1)
  | lexeme {kind : TokenKind} {xs : List Char} {j : Nat} (spans : s.Spans k xs j)
      (spelled : Spelling kind xs (s.ahead j)) : Taken s k ⟨kind, String.ofList xs, s.position k⟩ j

/-! ### Numbers -/

theorem isNumberChar_of_hex (h : CharClass.hex.has c = true) : isNumberChar c = true := by
  simp [isNumberChar, h]

theorem isNumberChar_of_digit (h : CharClass.digit.has c = true) : isNumberChar c = true :=
  CharClass.forall_of_table (p := fun c => isNumberChar c = true) (by decide) h

theorem head_of_spans {j : Nat} (h : s.ahead i = c :: cs) (spans : s.Spans i xs j) (some : xs ≠ []) :
    ∃ ys, xs = c :: ys := by
  obtain ⟨x, ys, rfl⟩ := List.exists_cons_of_ne_nil some
  have whole := spans.ahead
  rw [h, List.cons_append, List.cons.injEq] at whole
  exact ⟨ys, by rw [whole.1]⟩

/-- The run of a class from a character of the class on. -/
theorem gives_takeClass_head (k : CharClass) (h : s.ahead i = c :: cs) (inside : k.has c = true) :
    (Scan.takeClass k).Gives s i fun text j => ∃ xs, text = String.ofList (c :: xs) ∧ s.Spans i (c :: xs) j ∧
      (∀ x ∈ xs, k.has x = true) ∧ k.hasOpt (s.ahead j).head? = false := by
  refine (Scan.gives_takeClass k s i).mono ?_
  rintro text j ⟨xs, value, spans, all, stop⟩
  have some : xs ≠ [] := by
    rintro rfl
    have same : j = i := spans.cursor
    simp [same, h, inside] at stop
  obtain ⟨ys, rfl⟩ := head_of_spans h spans some
  exact ⟨ys, value, spans, fun x place => all x (by simp [place]), stop⟩

/-- What a prefix of known length reads where it is all there. -/
theorem gives_take_of_ahead (xs : List Char) (h : s.ahead i = xs ++ cs) (line : '\n' ∉ xs) (n : Nat)
    (size : xs.length = n) : (Scan.take n).Gives s i fun text j => text = String.ofList xs ∧ s.Spans i xs j := by
  intro text j run
  rw [← size, Scan.take_of_ahead xs h line] at run
  obtain ⟨rfl, rfl⟩ : String.ofList xs = text ∧ i + xs.length = j := by simpa using run
  exact ⟨rfl, .of_append h⟩

/-- The mark of an exponent and the character after it. -/
theorem exponent_of_ahead
    (exponent : ((cs.head? == some 'e' || cs.head? == some 'E') && (CharClass.digit.hasOpt cs[1]? ||
      (cs[1]? == some '-' || cs[1]? == some '+') && CharClass.digit.hasOpt cs[2]?)) = true) :
    ∃ mark x rest, cs = [mark, x] ++ rest ∧ isNumberChar mark = true ∧ isNumberChar x = true := by
  simp only [Bool.and_eq_true, Bool.or_eq_true, beq_iff_eq] at exponent
  obtain ⟨mark, next⟩ := exponent
  rcases cs with _ | ⟨mark', _ | ⟨x, rest⟩⟩
  · simp at mark
  · simp at next
  simp only [List.head?_cons, Option.some.injEq, List.getElem?_cons_succ, List.getElem?_cons_zero,
    CharClass.hasOpt_some] at mark next
  refine ⟨mark', x, rest, rfl, ?_, ?_⟩
  · rcases mark with rfl | rfl <;> rfl
  · rcases next with digit | ⟨rfl | rfl, -⟩
    · exact isNumberChar_of_digit digit
    · rfl
    · rfl

theorem ne_newline_of_isNumberChar (h : isNumberChar c = true) : c ≠ '\n' := by
  rintro rfl
  exact absurd h (by decide)

theorem ne_zero_of_stop {k : CharClass} (zero : k.has '0' = true) (stop : k.hasOpt cs.head? = false) :
    cs.head? ≠ some '0' := by
  intro first
  rw [first, CharClass.hasOpt_some, zero] at stop
  simp at stop

theorem gives_decimal (h : s.ahead i = c :: cs) (digit : CharClass.digit.has c = true) :
    decimal.Gives s i fun text j => ∃ xs, text = String.ofList (c :: xs) ∧ s.Spans i (c :: xs) j ∧
      (∀ x ∈ xs, isNumberChar x = true) ∧ (s.ahead j).head? ≠ some '0' := by
  have number {xs : List Char} (digits : ∀ x ∈ xs, CharClass.digit.has x = true) : ∀ x ∈ xs, isNumberChar x = true :=
    fun x place => isNumberChar_of_digit (digits x place)
  refine (gives_takeClass_head .digit h digit).bind ?_
  rintro _ j ⟨whole, rfl, first, digits, stop⟩
  refine .after (Scan.peek_of_ahead rfl) (.after (Scan.peekAt_of_ahead 1 rfl) (.ite (fun point => ?_) fun _ => ?_))
  · simp only [Bool.and_eq_true, beq_iff_eq] at point
    obtain ⟨cs', dot⟩ : ∃ cs', s.ahead j = ['.'] ++ cs' := List.head?_eq_some_iff.mp point.1
    refine (gives_take_of_ahead ['.'] dot (by decide) 1 rfl).bind ?_
    rintro _ k ⟨rfl, second⟩
    refine (Scan.gives_takeClass .digit s k).bind ?_
    rintro _ l ⟨fraction, rfl, third, digits', stop'⟩
    have upTo := (first.append second).append third
    refine .after (Scan.peek_of_ahead rfl) (.after (Scan.peekAt_of_ahead 1 rfl) (.after (Scan.peekAt_of_ahead 2 rfl) ?_))
    refine .ite (fun exponent => ?_) fun _ => ?_
    · obtain ⟨mark, x, rest, ahead, isMark, isNext⟩ := exponent_of_ahead exponent
      have line : '\n' ∉ [mark, x] := by
        simp [(ne_newline_of_isNumberChar isMark).symm, (ne_newline_of_isNumberChar isNext).symm]
      refine (gives_take_of_ahead [mark, x] ahead line 2 rfl).bind ?_
      rintro _ m ⟨rfl, fourth⟩
      refine (Scan.gives_takeClass .digit s m).bind ?_
      rintro _ n ⟨last, rfl, fifth, digits'', stop''⟩
      refine .pure ⟨whole ++ '.' :: (fraction ++ mark :: x :: last), ?_, ?_, ?_, ne_zero_of_stop rfl stop''⟩
      · simp only [← String.ofList_append, List.cons_append, List.append_assoc, List.nil_append]
      · simpa using (upTo.append fourth).append fifth
      · simp only [List.mem_append, List.mem_cons]
        rintro y (place | rfl | place | rfl | rfl | place)
        · exact number digits y place
        · rfl
        · exact number digits' y place
        · exact isMark
        · exact isNext
        · exact number digits'' y place
    · refine .pure ⟨whole ++ '.' :: fraction, ?_, by simpa using upTo, ?_, ne_zero_of_stop rfl stop'⟩
      · simp only [← String.ofList_append, List.cons_append, List.append_assoc, List.nil_append]
      · simp only [List.mem_append, List.mem_cons]
        rintro x (place | rfl | place)
        · exact number digits x place
        · rfl
        · exact number digits' x place
  · exact .pure ⟨whole, rfl, first, number digits, ne_zero_of_stop rfl stop⟩

/-- A number with a base: its mark, its first digit and the digits after it. -/
theorem gives_based (k : CharClass) (zero : k.has '0' = true) (hex : ∀ x, k.has x = true → isNumberChar x = true)
    (h : s.ahead i = [c, d, e] ++ cs) (mark : isNumberChar d = true) (first : k.has e = true) (line : c ≠ '\n') :
    Scan.Gives (do
      let head ← Scan.take 3
      let digits ← Scan.takeClass k
      return some (TokenKind.number, head ++ digits)) s i fun found j => ∃ xs,
        found = some (.number, String.ofList (c :: xs)) ∧ s.Spans i (c :: xs) j ∧ (∀ x ∈ xs, isNumberChar x = true) ∧
          (s.ahead j).head? ≠ some '0' := by
  have lines : '\n' ∉ [c, d, e] := by
    simp [line.symm, (ne_newline_of_isNumberChar mark).symm, (ne_newline_of_isNumberChar (hex e first)).symm]
  refine (gives_take_of_ahead [c, d, e] h lines 3 rfl).bind ?_
  rintro _ j ⟨rfl, head⟩
  refine (Scan.gives_takeClass k s j).bind ?_
  rintro _ l ⟨digits, rfl, tail, all, stop⟩
  refine .pure ⟨d :: e :: digits, ?_, head.append tail, ?_, ne_zero_of_stop zero stop⟩
  · simp only [← String.ofList_append, List.cons_append, List.nil_append]
  · simp only [List.mem_cons]
    rintro x (rfl | rfl | place)
    · exact mark
    · exact hex _ first
    · exact hex x (all x place)

theorem gives_takeBlobDigits (s : Source) (i : Nat) :
    Scan.takeBlobDigits.Gives s i fun text j => ∃ xs, text = String.ofList xs ∧ s.Spans i xs j ∧
      ∀ x ∈ xs, CharClass.hex.has x = true ∨ x = '.' := by
  refine .after (Scan.tell_apply s i) ?_
  let keeps (_ : Unit) (j : Nat) : Prop :=
    ∃ xs, s.Spans i xs j ∧ ∀ x ∈ xs, CharClass.hex.has x = true ∨ x = '.'
  refine .loop keeps ⟨[], .nil s i, by simp⟩ ?_
  rintro _ j ⟨xs, upTo, all⟩
  have stops : Scan.Gives (do return Scan.Turn.done (← Scan.textSince i)) s j
      (Scan.Turn.Goes keeps fun text j => ∃ xs, text = String.ofList xs ∧ s.Spans i xs j ∧
        ∀ x ∈ xs, CharClass.hex.has x = true ∨ x = '.') :=
    .after (show Scan.textSince i s j = .ok (s.text i j) j from rfl) (.pure ⟨xs, upTo.text, upTo, all⟩)
  have goes {ys cs : List Char} (n : Nat) (size : ys.length = n) (h : s.ahead j = ys ++ cs) (line : '\n' ∉ ys)
      (kept : ∀ x ∈ ys, CharClass.hex.has x = true ∨ x = '.') :
      Scan.Gives (do
        let _ ← Scan.take n
        return Scan.Turn.again ()) s j
        (Scan.Turn.Goes keeps fun text j => ∃ xs, text = String.ofList xs ∧ s.Spans i xs j ∧
          ∀ x ∈ xs, CharClass.hex.has x = true ∨ x = '.') := by
    refine (gives_take_of_ahead ys h line n size).bind ?_
    rintro _ k ⟨rfl, next⟩
    refine .pure ⟨xs ++ ys, upTo.append next, ?_⟩
    intro x place
    exact (List.mem_append.mp place).elim (all x) (kept x)
  refine .after (Scan.peekRun_of_ahead 2 rfl) ?_
  split
  · rename_i a b two
    obtain ⟨cs, ahead⟩ : ∃ cs, s.ahead j = [a, b] ++ cs := by
      have starts := (List.takeWhile_prefix (l := (s.ahead j).take 2) (· != '\n')).trans (List.take_prefix 2 _)
      rw [String.toList_ofList] at two
      rw [two] at starts
      obtain ⟨cs, same⟩ := starts
      exact ⟨cs, same.symm⟩
    refine .ite (fun pair => ?_) fun _ => .ite (fun dot => ?_) fun _ => .ite (fun _ => .failHere) fun _ => stops
    · simp only [Bool.and_eq_true] at pair
      have line : '\n' ∉ [a, b] := by
        simp [(Scan.ne_newline_of_has pair.1).symm, (Scan.ne_newline_of_has pair.2).symm]
      exact goes 2 rfl ahead line (by simp [pair])
    · simp only [Bool.and_eq_true, beq_iff_eq] at dot
      have ahead : s.ahead j = [a] ++ b :: cs := ahead
      exact goes 1 rfl ahead (by simp [dot.1]) (by simp [dot.1])
  · exact stops

theorem number_attempted (h : s.ahead i = c :: cs) : (number c).Gives s i (Attempted s i) := by
  have spelled {ds : List Char} {j : Nat} {found : Option (TokenKind × String)} (digit : CharClass.digit.has c = true)
      (value : found = some (.number, String.ofList (c :: ds))) (spans : s.Spans i (c :: ds) j)
      (chars : ∀ x ∈ ds, isNumberChar x = true) (stop : (s.ahead j).head? ≠ some '0') : Attempted s i found j := by
    rw [value]
    exact ⟨c :: ds, rfl, spans, .number digit chars stop⟩
  -- Two more characters are there wherever the second is of a class.
  have three {k : CharClass} {first : Char} (one : cs[0]? = some first) (two : k.hasOpt cs[1]? = true) :
      ∃ second rest, s.ahead i = [c, first, second] ++ rest ∧ k.has second = true := by
    rcases cs with _ | ⟨_, _ | ⟨second, rest⟩⟩
    · simp at one
    · simp at two
    · obtain rfl := Option.some.inj one
      exact ⟨second, rest, h, two⟩
  have first : (c :: cs)[1]? = cs[0]? := rfl
  have second : (c :: cs)[2]? = cs[1]? := rfl
  refine .after (Scan.peekAt_of_ahead 1 h) (.after (Scan.peekAt_of_ahead 2 h) ?_)
  rw [first, second]
  refine .ite (fun hex => ?_) fun _ => .ite (fun binary => ?_) fun _ => .ite (fun blob => ?_) fun _ => ?_
  · simp only [Bool.and_eq_true, Bool.or_eq_true, beq_iff_eq] at hex
    obtain ⟨⟨rfl, mark⟩, two⟩ := hex
    obtain ⟨mark', isMark, one⟩ : ∃ mark', isNumberChar mark' = true ∧ cs[0]? = some mark' := by
      rcases mark with mark | mark
      · exact ⟨'x', rfl, mark⟩
      · exact ⟨'X', rfl, mark⟩
    obtain ⟨e, rest, ahead, digit⟩ := three one two
    refine (gives_based .hex rfl (fun _ => isNumberChar_of_hex) ahead isMark digit (by decide)).mono ?_
    rintro found j ⟨xs, value, spans, chars, stop⟩
    exact spelled rfl value spans chars stop
  · simp only [Bool.and_eq_true, Bool.or_eq_true, beq_iff_eq] at binary
    obtain ⟨⟨rfl, mark⟩, two⟩ := binary
    obtain ⟨mark', isMark, one⟩ : ∃ mark', isNumberChar mark' = true ∧ cs[0]? = some mark' := by
      rcases mark with mark | mark
      · exact ⟨'b', rfl, mark⟩
      · exact ⟨'B', rfl, mark⟩
    obtain ⟨e, rest, ahead, digit⟩ := three one two
    have chars (x : Char) (h : CharClass.binary.has x = true) : isNumberChar x = true :=
      CharClass.forall_of_table (p := fun x => isNumberChar x = true) (by decide) h
    refine (gives_based .binary rfl chars ahead isMark digit (by decide)).mono ?_
    rintro found j ⟨xs, value, spans, chars, stop⟩
    exact spelled rfl value spans chars stop
  · simp only [Bool.and_eq_true, Bool.or_eq_true, beq_iff_eq] at blob
    obtain ⟨⟨rfl, mark⟩, -⟩ := blob
    obtain ⟨mark', isMark, line, one⟩ : ∃ mark', (mark' = 'z' ∨ mark' = 'Z') ∧ mark' ≠ '\n' ∧ cs[0]? = some mark' := by
      rcases mark with mark | mark
      · exact ⟨'z', .inl rfl, by decide, mark⟩
      · exact ⟨'Z', .inr rfl, by decide, mark⟩
    obtain ⟨rest, rfl⟩ : ∃ rest, cs = mark' :: rest := List.head?_eq_some_iff.mp (by rwa [List.head?_eq_getElem?])
    refine (gives_take_of_ahead ['0', mark'] h (by simp [line.symm]) 2 rfl).bind ?_
    rintro _ j ⟨rfl, head⟩
    refine (gives_takeBlobDigits s j).bind ?_
    rintro _ k ⟨ds, rfl, tail, chars⟩
    refine .pure ⟨'0' :: mark' :: ds, ?_, head.append tail, .blob isMark chars⟩
    simp only [← String.ofList_append, List.cons_append, List.nil_append]
  · refine .ite (fun digit => ?_) fun _ => .pure rfl
    refine (gives_decimal h digit).bind ?_
    rintro _ j ⟨ds, rfl, spans, chars, stop⟩
    exact .pure (spelled digit rfl spans chars stop)

/-! ### Identity tests and names -/

theorem identityTest_attempted (test : Comparison) (identity : test = .is ∨ test = .isNot) (s : Source) (i : Nat) :
    (identityTest test).Gives s i fun found j =>
      Attempted s i found j ∧ (found = none → NoIdentity test (s.ahead i)) := by
  refine .after (Scan.lookingAt_of_ahead test.lexeme rfl)
    (.after (Scan.peekAt_of_ahead test.lexeme.length rfl) (.ite (fun found => ?_) fun none => .pure ⟨rfl, fun _ => ?_⟩))
  case refine_2 =>
    intro rest split
    rw [split, ← length_lexeme, List.getElem?_append_right (Nat.le_refl _), Nat.sub_self] at none
    simpa [List.head?_eq_getElem?] using none
  simp only [Bool.and_eq_true, List.isPrefixOf_iff_prefix] at found
  obtain ⟨⟨rest, split⟩, solid⟩ := found
  have after : (s.ahead i)[test.lexeme.length]? = rest.head? := by
    rw [← split, ← length_lexeme, List.getElem?_append_right (Nat.le_refl _), Nat.sub_self, List.head?_eq_getElem?]
  have taken (mode : CaseMode) (cs : List Char) (tail : rest = mode.suffix.toList ++ cs)
      (stop : mode = .byOption → ∀ c ∈ cs.head?, CharClass.ident.has c = false ∧ c ≠ '?' ∧ c ≠ '#') :
      Scan.Gives (do
        let text ← Scan.take (test.lexeme.length + mode.suffix.length)
        return some (TokenKind.compare test mode, text)) s i fun found j =>
          Attempted s i found j ∧ (found = none → NoIdentity test (s.ahead i)) := by
    have ahead : s.ahead i = identityText test mode ++ cs := by
      rw [← split, tail, identityText, List.append_assoc]
    have line : '\n' ∉ identityText test mode := by
      rcases identity with rfl | rfl <;> cases mode <;> decide
    have size : (identityText test mode).length = test.lexeme.length + mode.suffix.length := by
      simp [identityText, String.length_toList]
    refine (gives_take_of_ahead _ ahead line _ size).bind ?_
    rintro _ j ⟨rfl, spans⟩
    refine .pure ⟨⟨_, rfl, spans, .identity identity ?_⟩, by simp⟩
    rwa [spans.cursor, Source.ahead_of_append ahead]
  rw [after] at solid ⊢
  split
  · rename_i mark
    obtain ⟨cs, tail⟩ := List.head?_eq_some_iff.mp mark
    exact taken .ignoring cs tail (by simp)
  · rename_i mark
    obtain ⟨cs, tail⟩ := List.head?_eq_some_iff.mp mark
    exact taken .matching cs tail (by simp)
  · rename_i noQuestion noSharp
    refine taken .byOption rest rfl fun _ c first => ?_
    rw [first] at solid noQuestion noSharp
    exact ⟨by simpa using solid, fun same => noQuestion (by rw [same]), fun same => noSharp (by rw [same])⟩

/-! ### Symbols -/

theorem form_spans {form : String × TokenKind} (found : form? (s.ahead i) = some form) :
    s.Spans i form.1.toList (i + form.1.length) ∧ Spelling form.2 form.1.toList (s.ahead (i + form.1.length)) := by
  obtain ⟨rest, split⟩ : form.1.toList <+: s.ahead i := by simpa using List.find?_some found
  rw [← String.length_toList]
  refine ⟨.of_append split.symm, .form ?_⟩
  rwa [Source.ahead_of_append split.symm, split]

theorem name_of_word (h : CharClass.word.has c = true) : CharClass.name.has c = true := by
  simp only [CharClass.has] at h ⊢
  simp [h]

theorem word_of_nameStart (h : CharClass.nameStart.has c = true) : CharClass.word.has c = true := by
  simp only [CharClass.has, Bool.or_eq_true] at h
  rcases h with alpha | under
  · simp [CharClass.has, Char.isAlphanum, alpha]
  · simp [CharClass.has, under]

theorem name_of_nameStart (h : CharClass.nameStart.has c = true) : CharClass.name.has c = true :=
  name_of_word (word_of_nameStart h)

theorem sigil_attempted (h : s.ahead i = c :: cs) : (sigil c).Gives s i (Attempted s i) := by
  unfold sigil
  split
  · refine (gives_take_of_ahead ['$'] h (by decide) 1 rfl).bind ?_
    rintro _ j ⟨rfl, head⟩
    refine (Scan.gives_takeClass .word s j).bind ?_
    rintro _ k ⟨ws, rfl, tail, word, -⟩
    refine .pure ⟨'$' :: ws, ?_, head.append tail, .env word⟩
    simp only [← String.ofList_append, List.cons_append, List.nil_append]
  · refine (Scan.gives_take 2 s i).bind ?_
    rintro _ j ⟨xs, rfl, spans, line, size, short⟩
    refine .pure ⟨xs, rfl, spans, ?_⟩
    have some : xs ≠ [] := by
      rintro rfl
      have same : j = i := spans.cursor
      have stop := short (by simp) '@' (by rw [same, h]; rfl)
      exact absurd stop (by decide)
    obtain ⟨ys, rfl⟩ := head_of_spans h spans some
    rcases ys with _ | ⟨d, _ | ⟨_, _⟩⟩
    · exact .unnamedRegister (short (by simp))
    · exact .register fun same => line (by simp [same])
    · simp at size
  · refine .after (Scan.peekAt_of_ahead 1 h) (.after (Scan.peekAt_of_ahead 2 h) ?_)
    have letters {xs cs : List Char} (n : Nat) (size : ('&' :: xs).length = n) (ahead : s.ahead i = '&' :: xs ++ cs)
        (chars : ∀ x ∈ xs, CharClass.name.has x = true) :
        Scan.Gives (do
          let mark ← Scan.take n
          let word ← Scan.takeClass .word
          return some (TokenKind.option, mark ++ word)) s i (Attempted s i) := by
      have line : '\n' ∉ '&' :: xs := by
        rw [List.mem_cons, not_or]
        exact ⟨by decide, fun place => Scan.ne_newline_of_has (chars _ place) rfl⟩
      refine (gives_take_of_ahead ('&' :: xs) ahead line n size).bind ?_
      rintro _ j ⟨rfl, head⟩
      refine (Scan.gives_takeClass .word s j).bind ?_
      rintro _ k ⟨ws, rfl, tail, word, -⟩
      refine .pure ⟨'&' :: (xs ++ ws), ?_, head.append tail, .option fun x place => ?_⟩
      · simp only [← String.ofList_append, List.cons_append]
      · exact (List.mem_append.mp place).elim (chars x) fun place => name_of_word (word x place)
    have scope (cs : List Char) : ∃ xs rest, '&' :: cs = '&' :: xs ++ rest ∧ (∀ x ∈ xs, CharClass.name.has x = true) ∧
        ('&' :: xs).length = if ((('&' :: cs)[1]? == some 'g' || ('&' :: cs)[1]? == some 'l') &&
          ('&' :: cs)[2]? == some ':') = true then 3 else 1 := by
      split
      · rename_i marks
        simp only [Bool.and_eq_true, Bool.or_eq_true, beq_iff_eq] at marks
        rcases cs with _ | ⟨letter, _ | ⟨colon, rest⟩⟩
        · simp at marks
        · simp at marks
        simp only [List.getElem?_cons_succ, List.getElem?_cons_zero, Option.some.injEq] at marks
        obtain ⟨letter, rfl⟩ := marks
        exact ⟨[_, ':'], rest, rfl, by rcases letter with rfl | rfl <;> simp [CharClass.has], rfl⟩
      · exact ⟨[], cs, rfl, by simp, rfl⟩
    obtain ⟨xs, rest, split, chars, size⟩ := scope cs
    exact letters _ size (h.trans split) chars
  · exact .pure rfl

/-! ### Tokens -/

theorem gives_lexeme (h : s.ahead i = c :: cs) : (lexeme c).Gives s i fun found j =>
    ∃ xs, found.2 = String.ofList xs ∧ s.Spans i xs j ∧ Spelling found.1 xs (s.ahead j) := by
  -- Each attempt that finds a token is the last one.
  refine (number_attempted h).bind ?_
  rintro (_ | _) _ found
  case some => exact .pure found
  obtain rfl := Eq.symm found
  refine (identityTest_attempted .isNot (.inr rfl) s _).bind ?_
  rintro (_ | _) _ ⟨found, noIsNot⟩
  case some => exact .pure found
  obtain rfl := Eq.symm found
  refine (identityTest_attempted .is (.inl rfl) s _).bind ?_
  rintro (_ | _) _ ⟨found, noIs⟩
  case some => exact .pure found
  obtain rfl := Eq.symm found
  refine .ite (fun start => ?_) fun _ => ?_
  · refine (gives_takeClass_head .name h (name_of_nameStart start)).bind ?_
    rintro _ j ⟨xs, rfl, spans, chars, stop⟩
    refine .pure ⟨c :: xs, rfl, spans, .identifier start chars stop fun test identity => ?_⟩
    rw [← spans.ahead]
    rcases identity with rfl | rfl
    · exact noIs rfl
    · exact noIsNot rfl
  have forms := firstForm_of_ahead operatorForms h
  cases form : form? (c :: cs) with
  | some found =>
    rw [form?] at form
    rw [form] at forms
    obtain ⟨spans, spelled⟩ := form_spans (h ▸ form)
    refine .after forms (.pure ?_)
    exact ⟨found.1.toList, by simp, spans, spelled⟩
  | none =>
    have missing := form
    rw [form?] at missing
    rw [missing] at forms
    refine .after forms ?_
    refine (sigil_attempted h).bind ?_
    rintro (_ | _) _ found
    case some => exact .pure found
    obtain rfl := Eq.symm found
    dsimp only
    split
    · rename_i kind entry
      have spans : s.Spans i [c] (i + 1) := .of_append h
      refine .after (Scan.skip_apply 1 s i) (.pure ⟨[c], rfl, spans, .punctuation ?_ entry⟩)
      rw [← form, h.symm.trans spans.ahead, List.singleton_append]
    · exact .failHere

/-- A token stands after blanks, and all of them are taken. -/
theorem gives_next (s : Source) (i : Nat) : next.Gives s i fun token j =>
    ∃ ws k, s.Spans i ws k ∧ (∀ x ∈ ws, CharClass.white.has x = true) ∧
      CharClass.white.hasOpt (s.ahead k).head? = false ∧ Taken s k token j := by
  refine (Scan.gives_skipWhite s i).bind ?_
  rintro _ k ⟨ws, spans, blanks, solid⟩
  refine .after (Scan.here_apply s k) (.after (Scan.peek_of_ahead rfl) ?_)
  suffices taken : Scan.Gives _ s k (Taken s k) from taken.mono fun token j found => ⟨ws, k, spans, blanks, solid, found⟩
  split
  · rename_i none
    exact .pure (.eof (List.head?_eq_none_iff.mp none))
  · rename_i some
    obtain ⟨cs, line⟩ := List.head?_eq_some_iff.mp some
    have ahead : s.ahead k = ['\n'] ++ cs := line
    exact .after (Scan.skip_apply 1 s k) (.pure (.eol (.of_append ahead)))
  · rename_i some
    obtain ⟨cs, ahead⟩ := List.head?_eq_some_iff.mp some
    refine (gives_lexeme ahead).bind ?_
    rintro ⟨kind, _⟩ j ⟨xs, rfl, spans, spelled⟩
    exact .pure (.lexeme spans spelled)

end Token

end VimScript
