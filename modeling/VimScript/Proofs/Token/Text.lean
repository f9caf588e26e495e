import VimScript.Proofs.Scan.Text
import VimScript.Token.Lexer

/-!
Which token a text starts with.
-/

set_option autoImplicit false

namespace VimScript

namespace Scan

variable {s : Source} {i : Nat} {xs cs : List Char}

/-- Blanks ahead make no difference to a scan that skips them. -/
theorem skipWhite_blanks (h : s.ahead i = xs ++ cs) (blanks : ∀ x ∈ xs, CharClass.white.has x = true) :
    skipWhite s i = skipWhite s (i + xs.length) := by
  have all : ∀ x ∈ xs, (x != '\n' && CharClass.white.has x) = true := by
    intro x place
    simp [ne_newline_of_has (blanks x place), blanks x place]
  simp only [skipWhite, skipWhile, Source.runEnd_eq, Source.ahead_of_append h, h, Source.run,
    List.takeWhile_append_of_pos all, List.length_append, Nat.add_assoc]

end Scan

namespace Token

variable {s : Source} {i j : Nat} {xs ws cs : List Char} {c : Char} {kind : TokenKind} {text : String}

theorem peek_of_next {token : Token} (h : next s i = .ok token j) : peek s i = .ok token i :=
  Scan.peeking_of_ok h

theorem next_blanks (xs : List Char) (h : s.ahead i = xs ++ cs) (blanks : ∀ x ∈ xs, CharClass.white.has x = true) :
    next s i = next s (i + xs.length) := by
  simp only [next, Scan.bind_apply, Scan.skipWhite_blanks h blanks]

theorem next_of_lexeme (h : s.ahead i = c :: cs) (solid : CharClass.white.has c = false) (line : c ≠ '\n')
    (read : lexeme c s i = .ok (kind, text) j) : next s i = .ok ⟨kind, text, s.position i⟩ j := by
  simp only [next, Scan.bind_of_ok (Scan.skipWhite_of_solid h (by simpa using solid)),
    Scan.bind_of_ok (Scan.here_apply s i), Scan.bind_of_ok (Scan.peek_of_ahead h)]
  simp [Scan.bind_apply, read, Scan.pure_apply]

theorem next_of_newline (h : s.ahead i = '\n' :: cs) : next s i = .ok ⟨.eol, "<EOL>", s.position i⟩ (i + 1) := by
  simp only [next, Scan.bind_of_ok (Scan.skipWhite_of_solid h (rfl : CharClass.white.has '\n' = false)),
    Scan.bind_of_ok (Scan.here_apply s i), Scan.bind_of_ok (Scan.peek_of_ahead h)]
  rfl

/-! ### Symbols -/

/-- The operator of more than one character, or the comparison, that a text starts with. -/
def form? (cs : List Char) : Option (String × TokenKind) :=
  operatorForms.find? fun form => form.1.toList.isPrefixOf cs

theorem firstForm_of_ahead (forms : List (String × TokenKind)) (h : s.ahead i = cs) :
    firstForm forms s i =
      match forms.find? fun form => form.1.toList.isPrefixOf cs with
      | some (text, kind) => .ok (some (kind, text)) (i + text.length)
      | none => .ok none i := by
  induction forms with
  | nil => rfl
  | cons form forms ih =>
    obtain ⟨text, kind⟩ := form
    rw [firstForm, Scan.bind_of_ok (Scan.lookingAt_of_ahead text h)]
    by_cases found : text.toList.isPrefixOf cs = true
    · simp [found, Scan.bind_apply, Scan.skip, Scan.pure_apply]
    · simpa [found] using ih

theorem number_of_not_digit (h : s.ahead i = c :: cs) (other : CharClass.digit.has c = false) :
    number c s i = .ok none i := by
  have zero : (c == '0') = false := by
    by_contra same
    obtain rfl : c = '0' := by simpa using same
    exact absurd other (by decide)
  simp only [number, Scan.bind_of_ok (Scan.peekAt_of_ahead 1 h), Scan.bind_of_ok (Scan.peekAt_of_ahead 2 h), zero,
    other]
  rfl

theorem identityTest_of_ahead (test : Comparison) (h : s.ahead i = cs)
    (other : (test.lexeme.toList.isPrefixOf cs && !CharClass.ident.hasOpt cs[test.lexeme.length]?) = false) :
    identityTest test s i = .ok none i := by
  simp only [identityTest, Scan.bind_of_ok (Scan.lookingAt_of_ahead test.lexeme h),
    Scan.bind_of_ok (Scan.peekAt_of_ahead test.lexeme.length h), other]
  rfl

theorem identityTest_of_mark (test : Comparison) (identity : test = .is ∨ test = .isNot) (h : s.ahead i = c :: cs)
    (letter : CharClass.nameStart.has c = false) : identityTest test s i = .ok none i := by
  refine identityTest_of_ahead test h ?_
  have other : ('i' == c) = false := by
    by_contra same
    obtain rfl : 'i' = c := by simpa using same
    exact absurd letter (by decide)
  rcases identity with rfl | rfl <;> simp [Comparison.lexeme, List.isPrefixOf, other]

/-- The token of a text that starts with neither a digit, a letter nor a sigil. -/
def symbol? : List Char → Option (TokenKind × String)
  | [] => none
  | c :: cs =>
    if CharClass.digit.has c || CharClass.nameStart.has c || CharClass.white.has c || c == '\n' then none
    else
      match form? (c :: cs) with
      | some (text, kind) => some (kind, text)
      | none =>
        if c == '$' || c == '@' || c == '&' then none
        else (punctuation.lookup c).map fun kind => (kind, String.singleton c)

theorem next_of_symbol (h : s.ahead i = cs) (found : symbol? cs = some (kind, text)) :
    next s i = .ok ⟨kind, text, s.position i⟩ (i + text.length) := by
  cases cs with
  | nil => simp [symbol?] at found
  | cons c cs =>
    simp only [symbol?] at found
    split at found
    · simp at found
    · rename_i plain
      simp only [Bool.or_eq_true, beq_iff_eq, not_or, Bool.not_eq_true] at plain
      obtain ⟨⟨⟨digit, letter⟩, solid⟩, line⟩ := plain
      refine next_of_lexeme h solid line ?_
      simp only [lexeme, Scan.bind_of_ok (number_of_not_digit h digit), letter,
        Scan.bind_of_ok (identityTest_of_mark .isNot (.inr rfl) h letter),
        Scan.bind_of_ok (identityTest_of_mark .is (.inl rfl) h letter)]
      have forms := firstForm_of_ahead operatorForms h
      change firstForm operatorForms s i = match form? (c :: cs) with
        | some (text, kind) => .ok (some (kind, text)) (i + text.length)
        | none => .ok none i at forms
      cases form : form? (c :: cs) with
      | some entry =>
        simp only [form, Option.some.injEq, Prod.mk.injEq] at found
        obtain ⟨rfl, rfl⟩ := found
        simp [Scan.bind_apply, forms, form, Scan.pure_apply]
      | none =>
        simp only [form] at found forms
        split at found
        · simp at found
        · rename_i noSigil
          simp only [Bool.or_eq_true, beq_iff_eq, not_or] at noSigil
          have sigils : sigil c s i = .ok none i := by
            simp [sigil, noSigil, Scan.pure_apply]
          obtain ⟨kind', entry, same⟩ := Option.map_eq_some_iff.mp found
          simp only [Prod.mk.injEq] at same
          obtain ⟨rfl, rfl⟩ := same
          simp [Scan.bind_apply, forms, sigils, entry, Scan.map_of_ok (Scan.skip_apply 1 s i)]

/-! ### Names -/

theorem prefix_of_class (k : CharClass) {word : List Char} (all : ∀ x ∈ word, k.has x = true)
    (stop : k.hasOpt cs.head? = false) (h : word <+: xs ++ cs) : word <+: xs := by
  induction xs generalizing word with
  | nil =>
    cases word with
    | nil => exact List.nil_prefix
    | cons x word =>
      obtain ⟨rest, same⟩ := h
      have front : cs.head? = some x := by simpa using (congrArg List.head? same).symm
      rw [front, CharClass.hasOpt_some, all x (by simp)] at stop
      exact absurd stop (by simp)
  | cons y xs ih =>
    cases word with
    | nil => exact List.nil_prefix
    | cons x word =>
      obtain ⟨same, inner⟩ := List.cons_prefix_cons.mp (by simpa using h)
      exact List.cons_prefix_cons.mpr ⟨same, ih (fun z place => all z (by simp [place])) inner⟩

/-- Where the word of an identity test stands in front, the word ends there or goes on. -/
theorem getElem?_of_prefix (k : CharClass) {word : List Char} (all : ∀ x ∈ word, k.has x = true)
    (stop : k.hasOpt cs.head? = false) (h : word <+: xs ++ cs) :
    ∃ rest, xs = word ++ rest ∧ (xs ++ cs)[word.length]? = (rest ++ cs).head? := by
  obtain ⟨rest, rfl⟩ := prefix_of_class k all stop h
  refine ⟨rest, rfl, ?_⟩
  rw [List.append_assoc, List.getElem?_append_right (Nat.le_refl _), Nat.sub_self, List.head?_eq_getElem?]

theorem ident_of_identityTest {test : Comparison} (identity : test = .is ∨ test = .isNot) :
    ∀ x ∈ test.lexeme.toList, CharClass.ident.has x = true := by
  rcases identity with rfl | rfl <;> exact List.all_eq_true.mp rfl

theorem length_lexeme (test : Comparison) : test.lexeme.toList.length = test.lexeme.length :=
  String.length_toList

/-- A name of word characters that is not the word of an identity test. -/
structure IsName (ws : List Char) : Prop where
  head : CharClass.nameStart.hasOpt ws.head? = true
  word : ∀ x ∈ ws, CharClass.word.has x = true
  is : ws ≠ ['i', 's']
  isNot : ws ≠ ['i', 's', 'n', 'o', 't']

theorem IsName.ne_nil {ws : List Char} (name : IsName ws) : ws ≠ [] := by
  rintro rfl
  simpa using name.head

theorem IsName.inside {ws : List Char} (name : IsName ws) : ∀ x ∈ ws, CharClass.name.has x = true := by
  intro x place
  have word := name.word x place
  simp only [CharClass.has] at word ⊢
  simp [word]

theorem word_of_not_name {c : Option Char} (h : CharClass.name.hasOpt c = false) : CharClass.word.hasOpt c = false := by
  cases c with
  | none => rfl
  | some c => simp_all [CharClass.has]

theorem identityTest_of_name (test : Comparison) (identity : test = .is ∨ test = .isNot) (h : s.ahead i = ws ++ cs)
    (name : IsName ws) (stop : CharClass.word.hasOpt cs.head? = false) : identityTest test s i = .ok none i := by
  refine identityTest_of_ahead test h ?_
  by_contra holds
  simp only [Bool.not_eq_false, Bool.and_eq_true, Bool.not_eq_true', List.isPrefixOf_iff_prefix] at holds
  obtain ⟨rest, whole, next⟩ := getElem?_of_prefix .ident (ident_of_identityTest identity) stop holds.1
  rw [← length_lexeme, next] at holds
  cases rest with
  | nil =>
    rcases identity with rfl | rfl
    · exact name.is (whole.trans (List.append_nil _))
    · exact name.isNot (whole.trans (List.append_nil _))
  | cons x rest =>
    have inside : CharClass.word.has x = true := name.word x (by simp [whole])
    have outside : CharClass.word.has x = false := holds.2
    simp [inside] at outside

theorem next_of_name (h : s.ahead i = ws ++ cs) (name : IsName ws) (stop : CharClass.name.hasOpt cs.head? = false) :
    next s i = .ok ⟨.identifier, String.ofList ws, s.position i⟩ (i + ws.length) := by
  have test (test : Comparison) (identity : test = .is ∨ test = .isNot) : identityTest test s i = .ok none i :=
    identityTest_of_name test identity h name (word_of_not_name stop)
  have inside : ∀ x ∈ ws, CharClass.name.has x = true := by
    intro x place
    have word := name.word x place
    simp only [CharClass.has] at word ⊢
    simp [word]
  have front := name.head
  cases ws with
  | nil => simp at front
  | cons c ws =>
    simp only [List.head?_cons, CharClass.hasOpt_some] at front
    have whole : s.ahead i = c :: (ws ++ cs) := h
    have digit := CharClass.not_digit_of_nameStart front
    have solid := CharClass.not_white_of_nameStart front
    refine next_of_lexeme whole solid (Scan.ne_newline_of_has front) ?_
    simp only [lexeme, Scan.bind_of_ok (number_of_not_digit whole digit), Scan.bind_of_ok (test .isNot (.inr rfl)),
      Scan.bind_of_ok (test .is (.inl rfl)), front, if_true,
      Scan.bind_of_ok (Scan.takeClass_of_ahead .name h inside stop)]
    rfl

/-! ### Starts of names -/

/-- The kinds of token that the first written part of a name can be taken for. -/
def startsName : TokenKind → Bool
  | .identifier | .compare .is .byOption | .compare .is .matching | .compare .isNot .byOption
  | .compare .isNot .matching => true
  | _ => false

theorem identityTest_cases (test : Comparison) (h : s.ahead i = cs) :
    identityTest test s i = .ok none i ∨
      ∃ mode text j, identityTest test s i = .ok (some (.compare test mode, text)) j ∧
        test.lexeme.toList <+: cs ∧ (mode = .ignoring → cs[test.lexeme.length]? = some '?') := by
  by_cases found : (test.lexeme.toList.isPrefixOf cs && !CharClass.ident.hasOpt cs[test.lexeme.length]?) = true
  · have front : test.lexeme.toList <+: cs := by
      simp only [Bool.and_eq_true, List.isPrefixOf_iff_prefix] at found
      exact found.1
    refine .inr ?_
    simp only [identityTest, Scan.bind_of_ok (Scan.lookingAt_of_ahead test.lexeme h),
      Scan.bind_of_ok (Scan.peekAt_of_ahead test.lexeme.length h), found, if_true]
    split
    · exact ⟨.ignoring, _, _, rfl, front, fun _ => by assumption⟩
    · exact ⟨.matching, _, _, rfl, front, nofun⟩
    · exact ⟨.byOption, _, _, rfl, front, nofun⟩
  · exact .inl (identityTest_of_ahead test h (by simpa using found))

theorem next_of_nameStart (h : s.ahead i = ws ++ cs) (head : CharClass.nameStart.hasOpt ws.head? = true)
    (inside : ∀ x ∈ ws, CharClass.name.has x = true) (stop : CharClass.name.hasOpt cs.head? = false)
    (mark : cs.head? ≠ some '?') : ∃ token j, next s i = .ok token j ∧ startsName token.kind = true := by
  cases ws with
  | nil => simp at head
  | cons c ws =>
    simp only [List.head?_cons, CharClass.hasOpt_some] at head
    have whole : s.ahead i = c :: (ws ++ cs) := h
    have noMark (test : Comparison) (identity : test = .is ∨ test = .isNot)
        (front : test.lexeme.toList <+: c :: ws ++ cs) : (c :: ws ++ cs)[test.lexeme.length]? ≠ some '?' := by
      obtain ⟨rest, same, next⟩ :=
        getElem?_of_prefix .ident (ident_of_identityTest identity) (word_of_not_name stop) front
      rw [← length_lexeme, next]
      cases rest with
      | nil => exact mark
      | cons x rest =>
        have inClass := inside x (by simp [same])
        rintro ⟨rfl⟩
        exact absurd inClass (by decide)
    have solid := CharClass.not_white_of_nameStart head
    have line := Scan.ne_newline_of_has head
    have digit := number_of_not_digit whole (CharClass.not_digit_of_nameStart head)
    rcases identityTest_cases .isNot h with isNot | ⟨mode, text, j, isNot, front, ignoring⟩
    · rcases identityTest_cases .is h with is | ⟨mode, text, j, is, front, ignoring⟩
      · have read : lexeme c s i = .ok (.identifier, String.ofList (c :: ws)) (i + (c :: ws).length) := by
          simp only [lexeme, Scan.bind_of_ok digit, Scan.bind_of_ok isNot, Scan.bind_of_ok is, head, if_true,
            Scan.bind_of_ok (Scan.takeClass_of_ahead .name h inside stop)]
          rfl
        exact ⟨_, _, next_of_lexeme whole solid line read, rfl⟩
      · have read : lexeme c s i = .ok (.compare .is mode, text) j := by
          simp only [lexeme, Scan.bind_of_ok digit, Scan.bind_of_ok isNot, Scan.bind_of_ok is]
          rfl
        refine ⟨_, _, next_of_lexeme whole solid line read, ?_⟩
        cases mode with
        | ignoring => exact absurd (ignoring rfl) (noMark .is (.inl rfl) front)
        | byOption => rfl
        | matching => rfl
    · have read : lexeme c s i = .ok (.compare .isNot mode, text) j := by
        simp only [lexeme, Scan.bind_of_ok digit, Scan.bind_of_ok isNot]
        rfl
      refine ⟨_, _, next_of_lexeme whole solid line read, ?_⟩
      cases mode with
      | ignoring => exact absurd (ignoring rfl) (noMark .isNot (.inr rfl) front)
      | byOption => rfl
      | matching => rfl

/-! ### Identity tests -/

/-- The text of an identity test in one of its forms. -/
def identityText (test : Comparison) (mode : CaseMode) : List Char :=
  test.lexeme.toList ++ mode.suffix.toList

theorem identityTest_of_text (test : Comparison) (mode : CaseMode) (identity : test = .is ∨ test = .isNot)
    (h : s.ahead i = identityText test mode ++ ' ' :: cs) :
    identityTest test s i = .ok (some (.compare test mode, String.ofList (identityText test mode)))
      (i + (identityText test mode).length) := by
  have line : '\n' ∉ identityText test mode := by
    rcases identity with rfl | rfl <;> cases mode <;> decide
  have taken := Scan.take_of_ahead (identityText test mode) h line
  have size : (identityText test mode).length = test.lexeme.length + mode.suffix.length := by
    simp [identityText, String.length_toList]
  rw [size] at taken ⊢
  simp only [identityTest, Scan.bind_of_ok (Scan.lookingAt_of_ahead test.lexeme h),
    Scan.bind_of_ok (Scan.peekAt_of_ahead test.lexeme.length h)]
  rcases identity with rfl | rfl <;> cases mode <;> exact Scan.bind_of_ok taken

theorem next_of_identity (test : Comparison) (mode : CaseMode) (identity : test = .is ∨ test = .isNot)
    (h : s.ahead i = identityText test mode ++ ' ' :: cs) :
    next s i = .ok ⟨.compare test mode, String.ofList (identityText test mode), s.position i⟩
      (i + (identityText test mode).length) := by
  have read := identityTest_of_text test mode identity h
  have whole : ∃ cs', s.ahead i = 'i' :: cs' := by
    rcases identity with rfl | rfl <;> cases mode <;> exact ⟨_, h⟩
  obtain ⟨cs', whole⟩ := whole
  refine next_of_lexeme whole rfl (by decide) ?_
  rcases identity with rfl | rfl
  · have other : identityTest .isNot s i = .ok none i := by
      refine identityTest_of_ahead .isNot h ?_
      cases mode <;> rfl
    simp only [lexeme, Scan.bind_of_ok (number_of_not_digit whole rfl), Scan.bind_of_ok other, Scan.bind_of_ok read]
    rfl
  · simp only [lexeme, Scan.bind_of_ok (number_of_not_digit whole rfl), Scan.bind_of_ok read]
    rfl

/-! ### Sigils -/

theorem next_of_sigil (h : s.ahead i = c :: cs) (mark : c = '$' ∨ c = '@' ∨ c = '&') (noForm : form? (c :: cs) = none)
    (read : sigil c s i = .ok (some (kind, text)) j) : next s i = .ok ⟨kind, text, s.position i⟩ j := by
  obtain ⟨digit, letter, solid, line⟩ : CharClass.digit.has c = false ∧ CharClass.nameStart.has c = false ∧
      CharClass.white.has c = false ∧ c ≠ '\n' := by
    rcases mark with rfl | rfl | rfl <;> decide
  have forms : firstForm operatorForms s i = .ok none i := by
    have found := firstForm_of_ahead operatorForms h
    change firstForm operatorForms s i = match form? (c :: cs) with
      | some (text, kind) => .ok (some (kind, text)) (i + text.length)
      | none => .ok none i at found
    simpa [noForm] using found
  refine next_of_lexeme h solid line ?_
  simp only [lexeme, Scan.bind_of_ok (number_of_not_digit h digit), letter,
    Scan.bind_of_ok (identityTest_of_mark .isNot (.inr rfl) h letter),
    Scan.bind_of_ok (identityTest_of_mark .is (.inl rfl) h letter)]
  simp [Scan.bind_apply, forms, read, Scan.pure_apply]

theorem next_of_env (h : s.ahead i = '$' :: (ws ++ cs)) (word : ∀ x ∈ ws, CharClass.word.has x = true)
    (stop : CharClass.name.hasOpt cs.head? = false) :
    next s i = .ok ⟨.env, String.ofList ('$' :: ws), s.position i⟩ (i + 1 + ws.length) := by
  have mark : Scan.take 1 s i = .ok "$" (i + 1) := Scan.take_of_ahead ['$'] h (by decide)
  have rest := Scan.takeClass_of_ahead .word (Source.ahead_of_cons h) word (word_of_not_name stop)
  have value : "$" ++ String.ofList ws = String.ofList ('$' :: ws) := by
    rw [show "$" = String.ofList ['$'] from rfl, ← String.ofList_append, List.singleton_append]
  refine next_of_sigil h (.inl rfl) rfl ?_
  simp only [sigil, Scan.bind_of_ok mark, Scan.bind_of_ok rest, value]
  rfl

theorem next_of_register (h : s.ahead i = '@' :: c :: cs) (line : c ≠ '\n') :
    next s i = .ok ⟨.register, String.ofList ['@', c], s.position i⟩ (i + 2) := by
  have both : Scan.take 2 s i = .ok (String.ofList ['@', c]) (i + 2) :=
    Scan.take_of_ahead ['@', c] h (by simpa using Ne.symm line)
  refine next_of_sigil h (.inr (.inl rfl)) rfl ?_
  simp only [sigil, Scan.bind_of_ok both]
  rfl

theorem next_of_option {w : Char} (h : s.ahead i = '&' :: w :: (ws ++ cs))
    (word : ∀ x ∈ w :: ws, CharClass.word.has x = true) (stop : CharClass.name.hasOpt cs.head? = false) :
    next s i = .ok ⟨.option, String.ofList ('&' :: w :: ws), s.position i⟩ (i + 1 + (w :: ws).length) := by
  have mark : Scan.take 1 s i = .ok "&" (i + 1) := Scan.take_of_ahead ['&'] h (by decide)
  have rest := Scan.takeClass_of_ahead .word (Source.ahead_of_cons h) word (word_of_not_name stop)
  have value : "&" ++ String.ofList (w :: ws) = String.ofList ('&' :: w :: ws) := by
    rw [show "&" = String.ofList ['&'] from rfl, ← String.ofList_append, List.singleton_append]
  have noScope : (ws ++ cs).head? ≠ some ':' := by
    cases ws with
    | nil =>
      intro same
      rw [List.nil_append] at same
      rw [same] at stop
      exact absurd stop (by decide)
    | cons x ws =>
      rintro ⟨rfl⟩
      exact absurd (word ':' (by simp)) (by decide)
  have noForm : form? ('&' :: w :: (ws ++ cs)) = none := by
    have other : ('&' == w) = false := by
      by_contra same
      obtain rfl : '&' = w := by simpa using same
      exact absurd (word '&' (by simp)) (by decide)
    simp [form?, operatorForms, comparisonForms, Comparison.lexeme, CaseMode.suffix, List.isPrefixOf, other]
  refine next_of_sigil h (.inr (.inr rfl)) noForm ?_
  have second : ((ws ++ cs).head? == some ':') = false := by simpa using noScope
  simp only [sigil, Scan.bind_of_ok (Scan.peekAt_of_ahead 1 h), Scan.bind_of_ok (Scan.peekAt_of_ahead 2 h)]
  simp only [List.getElem?_cons_succ, ← List.head?_eq_getElem?, second, Bool.and_false, Bool.false_eq_true, if_false,
    Scan.bind_of_ok mark, Scan.bind_of_ok rest, value]
  rfl

end Token

end VimScript
