import VimScript.Proofs.Expr.RoundTrip
import VimScript.Proofs.Token.Extent
import VimScript.Proofs.Token.Literals

/-!
Texts that are one token. A name or a number that is scanned as one token on a line of its own is scanned as this token
wherever no name goes on behind it.
-/

set_option autoImplicit false

namespace VimScript.Token

variable {s : Source} {i : Nat} {v : String} {c d : Char} {ds cs ws : List Char} {k : CharClass}

/-- A text that is one token when it stands on a line of its own. -/
def IsLexeme (kind : TokenKind) (text : String) : Prop :=
  ∃ position, next (Source.ofLines [text]) 0 = .ok ⟨kind, text, position⟩ text.toList.length

/-- No operator is read as a name or a number. -/
theorem not_operator {kind : TokenKind} (word : kind = .identifier ∨ kind = .number) :
    (∀ form ∈ operatorForms, form.2 ≠ kind) ∧ ∀ mark ∈ punctuation, mark.2 ≠ kind := by
  rcases word with rfl | rfl <;> decide

/-! ### Names -/

theorem identifier_of_isLexeme (lexeme : IsLexeme .identifier v) :
    CharClass.nameStart.hasOpt v.toList.head? = true ∧ (∀ x ∈ v.toList, CharClass.name.has x = true) ∧
      ∀ test, test = .is ∨ test = .isNot → NoIdentity test (v.toList ++ ['\n']) := by
  obtain ⟨position, run⟩ := lexeme
  obtain ⟨blanks, k, -, -, -, taken⟩ := gives_next _ _ _ _ run
  generalize size : v.toList.length = j at run taken
  cases taken with
  | @lexeme _ xs _ spans spelled =>
    -- The token takes the whole text, so it starts at the start of the line and the line ends behind it.
    have start : k = 0 := by
      have cursor := spans.cursor
      rw [String.toList_ofList] at size
      omega
    have line := Expr.ahead_ofLines (String.ofList xs)
    have rest : (Source.ofLines [String.ofList xs]).ahead j = ['\n'] := by
      have whole := spans.ahead
      rw [start, line, String.toList_ofList] at whole
      exact (List.append_cancel_left whole).symm
    rw [rest] at spelled
    rw [String.toList_ofList]
    generalize kind : TokenKind.identifier = sort at spelled
    cases spelled with
    | identifier start chars stop other =>
      refine ⟨start, ?_, other⟩
      simpa [name_of_nameStart start] using chars
    | form found => exact absurd kind.symm ((not_operator (.inl rfl)).1 _ (List.mem_of_find?_eq_some found))
    | punctuation noForm entry => exact absurd kind.symm ((not_operator (.inl rfl)).2 _ (mem_of_lookup entry))
    | _ => cases kind

theorem identityTest_of_isLexeme (test : Comparison) (identity : test = .is ∨ test = .isNot)
    (lexeme : IsLexeme .identifier v) (h : s.ahead i = v.toList ++ cs) (stop : CharClass.name.hasOpt cs.head? = false) :
    identityTest test s i = .ok none i := by
  refine identityTest_of_ahead test h ?_
  by_contra holds
  simp only [Bool.not_eq_false, Bool.and_eq_true, Bool.not_eq_true', List.isPrefixOf_iff_prefix] at holds
  obtain ⟨rest, whole, next⟩ :=
    getElem?_of_prefix .ident (ident_of_identityTest identity) (word_of_not_name stop) holds.1
  -- On a line of its own the name would start with the word of the test, too.
  have goesOn := (identifier_of_isLexeme lexeme).2.2 test identity (rest ++ ['\n']) (by rw [whole, List.append_assoc])
  rw [← length_lexeme, next] at holds
  cases rest with
  | nil => exact absurd goesOn (by decide)
  | cons x rest => simp_all

theorem next_of_identifier (lexeme : IsLexeme .identifier v) (h : s.ahead i = v.toList ++ cs)
    (stop : CharClass.name.hasOpt cs.head? = false) :
    next s i = .ok ⟨.identifier, v, s.position i⟩ (i + v.toList.length) := by
  obtain ⟨start, inside, -⟩ := identifier_of_isLexeme lexeme
  have taken := Scan.takeClass_of_ahead .name h inside stop
  have test (test : Comparison) (identity : test = .is ∨ test = .isNot) :=
    identityTest_of_isLexeme test identity lexeme h stop
  rw [String.ofList_toList] at taken
  cases text : v.toList with
  | nil => simp [text] at start
  | cons c tail =>
    rw [text, List.head?_cons, CharClass.hasOpt_some] at start
    have front : s.ahead i = c :: (tail ++ cs) := by rw [h, text, List.cons_append]
    rw [text] at taken
    refine next_of_lexeme front (CharClass.not_white_of_nameStart start) (Scan.ne_newline_of_has start) ?_
    simp only [Token.lexeme, Scan.bind_of_ok (number_of_not_digit front (CharClass.not_digit_of_nameStart start)),
      Scan.bind_of_ok (test .isNot (.inr rfl)), Scan.bind_of_ok (test .is (.inl rfl)), start, if_true,
      Scan.bind_of_ok taken]
    rfl

/-! ### Numbers -/

/-- The marks of numbers with a base, each with the class of its digits. -/
def bases : List (Char × CharClass) :=
  [('x', .hex), ('X', .hex), ('b', .binary), ('B', .binary)]

inductive IsNumber : List Char → Prop where
  | decimal {ws : List Char} (number : IsDecimal ws) : IsNumber ws
  | based {mark d : Char} {k : CharClass} {ds : List Char} (base : (mark, k) ∈ bases) (first : k.has d = true)
      (digits : ∀ x ∈ ds, k.has x = true) : IsNumber ('0' :: mark :: d :: ds)

/-- The mark of an exponent, and its first digit or its sign, which has a digit behind it. -/
theorem exponent_head
    (exponent : ((cs.head? == some 'e' || cs.head? == some 'E') && (CharClass.digit.hasOpt cs[1]? ||
      (cs[1]? == some '-' || cs[1]? == some '+') && CharClass.digit.hasOpt cs[2]?)) = true) :
    ∃ (mark x : Char) (rest : List Char), cs = [mark, x] ++ rest ∧ (mark = 'e' ∨ mark = 'E') ∧
      (CharClass.digit.has x = true ∨ (x = '-' ∨ x = '+') ∧ CharClass.digit.hasOpt rest.head? = true) := by
  simp only [Bool.and_eq_true, Bool.or_eq_true, beq_iff_eq] at exponent
  obtain ⟨isMark, behind⟩ := exponent
  match cs with
  | [] => simp at isMark
  | [_] => simp at behind
  | mark :: x :: rest =>
    refine ⟨mark, x, rest, rfl, by simpa using isMark, ?_⟩
    simpa [List.head?_eq_getElem?] using behind

theorem isDecimal_exponent {fs xs : List Char} {mark x : Char} (some : ds ≠ [])
    (digits : ∀ d ∈ ds, CharClass.digit.has d = true) (some' : fs ≠ []) (digits' : ∀ d ∈ fs, CharClass.digit.has d = true)
    (isMark : mark = 'e' ∨ mark = 'E') (start : CharClass.digit.has x = true ∨ (x = '-' ∨ x = '+') ∧ xs ≠ [])
    (digits'' : ∀ d ∈ xs, CharClass.digit.has d = true) : IsDecimal (ds ++ '.' :: (fs ++ mark :: x :: xs)) := by
  rcases start with digit | ⟨sign, more⟩
  · have last : ∀ d ∈ x :: xs, CharClass.digit.has d = true := List.forall_mem_cons.mpr ⟨digit, digits''⟩
    simpa using IsDecimal.exponent some digits some' digits' isMark (.inl rfl) (List.cons_ne_nil x xs) last
  · have isSign : [x] = [] ∨ [x] = ['-'] ∨ [x] = ['+'] := by simpa using sign
    simpa using IsDecimal.exponent some digits some' digits' isMark isSign more digits''

theorem decimal_isDecimal (h : s.ahead i = c :: cs) (digit : CharClass.digit.has c = true) :
    decimal.Gives s i fun text _ => IsDecimal text.toList := by
  refine (gives_takeClass_head .digit h digit).bind ?_
  rintro _ j ⟨whole, rfl, -, digits, -⟩
  have digits : ∀ x ∈ c :: whole, CharClass.digit.has x = true := List.forall_mem_cons.mpr ⟨digit, digits⟩
  refine .after (Scan.peek_of_ahead rfl) (.after (Scan.peekAt_of_ahead 1 rfl) (.ite (fun point => ?_) fun _ => ?_))
  · simp only [Bool.and_eq_true, beq_iff_eq] at point
    obtain ⟨dot, behind⟩ := point
    obtain ⟨rest, dot⟩ : ∃ rest, s.ahead j = ['.'] ++ rest := List.head?_eq_some_iff.mp dot
    obtain ⟨f, tail, rfl, fraction⟩ : ∃ f tail, rest = f :: tail ∧ CharClass.digit.has f = true := by
      cases rest with
      | nil => simp [dot] at behind
      | cons f tail => exact ⟨f, tail, rfl, by simpa [dot] using behind⟩
    refine (gives_take_of_ahead ['.'] dot (by decide) 1 rfl).bind ?_
    rintro _ k ⟨rfl, point⟩
    have inner : s.ahead k = f :: tail := List.append_cancel_left (point.ahead.symm.trans dot)
    refine (gives_takeClass_head .digit inner fraction).bind ?_
    rintro _ l ⟨more, rfl, -, digits', -⟩
    have digits' : ∀ x ∈ f :: more, CharClass.digit.has x = true := List.forall_mem_cons.mpr ⟨fraction, digits'⟩
    refine .after (Scan.peek_of_ahead rfl) (.after (Scan.peekAt_of_ahead 1 rfl) (.after (Scan.peekAt_of_ahead 2 rfl) ?_))
    refine .ite (fun exponent => ?_) fun _ => ?_
    · obtain ⟨mark, x, rest, ahead, isMark, start⟩ := exponent_head exponent
      have line : '\n' ∉ [mark, x] := by
        have first : mark ≠ '\n' := by rcases isMark with rfl | rfl <;> decide
        have second : x ≠ '\n' := by
          rcases start with digit | ⟨rfl | rfl, -⟩
          · exact Scan.ne_newline_of_has digit
          · decide
          · decide
        simp [first.symm, second.symm]
      refine (gives_take_of_ahead [mark, x] ahead line 2 rfl).bind ?_
      rintro _ m ⟨rfl, head⟩
      have behind : s.ahead m = rest := List.append_cancel_left (head.ahead.symm.trans ahead)
      refine (Scan.gives_takeClass .digit s m).bind ?_
      rintro _ n ⟨last, rfl, spans, digits'', stop⟩
      have start : CharClass.digit.has x = true ∨ (x = '-' ∨ x = '+') ∧ last ≠ [] := by
        refine start.imp_right fun ⟨sign, digit⟩ => ⟨sign, ?_⟩
        -- Behind a sign there is a digit, and the digits are all taken.
        rintro rfl
        rw [← behind, spans.ahead, List.nil_append, stop] at digit
        simp at digit
      have text := isDecimal_exponent (List.cons_ne_nil c whole) digits (List.cons_ne_nil f more) digits' isMark start digits''
      exact .pure (by simpa using text)
    · have text := IsDecimal.fraction (List.cons_ne_nil c whole) digits (List.cons_ne_nil f more) digits'
      exact .pure (by simpa using text)
  · exact .pure (by simpa using IsDecimal.whole (List.cons_ne_nil c whole) digits)

theorem based_isNumber {mark : Char} (base : (mark, k) ∈ bases) (h : s.ahead i = '0' :: cs)
    (one : cs[0]? = some mark) (two : k.hasOpt cs[1]? = true) :
    Scan.Gives (do
      let head ← Scan.take 3
      let digits ← Scan.takeClass k
      return some (TokenKind.number, head ++ digits)) s i fun found _ =>
        ∃ kind text, found = some (kind, text) ∧ (kind = .number → IsNumber text.toList) := by
  match cs with
  | [] => simp at one
  | [_] => simp at two
  | mark' :: d :: rest =>
    obtain rfl : mark' = mark := by simpa using one
    have first : k.has d = true := by simpa using two
    have lines : '\n' ∉ ['0', mark', d] := by
      have line : mark' ≠ '\n' := by
        rintro rfl
        exact absurd base (by simp [bases])
      simp [line.symm, (Scan.ne_newline_of_has first).symm]
    refine (gives_take_of_ahead ['0', mark', d] h lines 3 rfl).bind ?_
    rintro _ j ⟨rfl, -⟩
    refine (Scan.gives_takeClass k s j).bind ?_
    rintro _ l ⟨ds, rfl, -, digits, -⟩
    have text := IsNumber.based base first digits
    exact .pure ⟨_, _, rfl, fun _ => by simpa using text⟩

theorem number_isNumber (h : s.ahead i = c :: cs) (digit : CharClass.digit.has c = true) :
    (number c).Gives s i fun found _ => ∃ kind text, found = some (kind, text) ∧ (kind = .number → IsNumber text.toList) := by
  have first : (c :: cs)[1]? = cs[0]? := rfl
  have second : (c :: cs)[2]? = cs[1]? := rfl
  refine .after (Scan.peekAt_of_ahead 1 h) (.after (Scan.peekAt_of_ahead 2 h) ?_)
  rw [first, second]
  refine .ite (fun hex => ?_) fun _ => .ite (fun binary => ?_) fun _ => .ite (fun _ => ?_) fun _ => ?_
  · simp only [Bool.and_eq_true, Bool.or_eq_true, beq_iff_eq] at hex
    obtain ⟨⟨rfl, one | one⟩, two⟩ := hex
    · exact based_isNumber (by simp [bases]) h one two
    · exact based_isNumber (by simp [bases]) h one two
  · simp only [Bool.and_eq_true, Bool.or_eq_true, beq_iff_eq] at binary
    obtain ⟨⟨rfl, one | one⟩, two⟩ := binary
    · exact based_isNumber (by simp [bases]) h one two
    · exact based_isNumber (by simp [bases]) h one two
  · exact .step fun _ _ _ => .step fun _ _ _ => .pure ⟨_, _, rfl, nofun⟩
  · rw [if_pos digit]
    refine (decimal_isDecimal h digit).bind ?_
    intro text _ isDecimal
    exact .pure ⟨_, text, rfl, fun _ => .decimal isDecimal⟩

theorem Spelling.digit_of_number {kind : TokenKind} {xs rest : List Char} (spelled : Spelling kind xs rest)
    (number : kind = .number) : ∃ d ds, xs = d :: ds ∧ CharClass.digit.has d = true := by
  cases spelled with
  | number digit => exact ⟨_, _, rfl, digit⟩
  | form found => exact absurd number ((not_operator (.inr rfl)).1 _ (List.mem_of_find?_eq_some found))
  | punctuation noForm entry => exact absurd number ((not_operator (.inr rfl)).2 _ (mem_of_lookup entry))
  | _ => cases number

theorem lexeme_isNumber (h : s.ahead i = c :: cs) :
    (lexeme c).Gives s i fun found _ => found.1 = .number → IsNumber found.2.toList := by
  by_cases digit : CharClass.digit.has c = true
  · refine (number_isNumber h digit).bind ?_
    rintro _ j ⟨kind, text, rfl, isNumber⟩
    exact .pure isNumber
  · refine (gives_lexeme h).mono ?_
    rintro ⟨kind, text⟩ j ⟨xs, -, spans, spelled⟩ number
    obtain ⟨d, ds, rfl, first⟩ := spelled.digit_of_number number
    have whole := spans.ahead
    rw [h, List.cons_append, List.cons.injEq] at whole
    exact absurd (whole.1 ▸ first) digit

/-- What is read as a number is written as one. -/
theorem next_isNumber (s : Source) (i : Nat) :
    next.Gives s i fun token _ => token.kind = .number → IsNumber token.value.toList := by
  refine (Scan.gives_skipWhite s i).bind ?_
  intro _ k _
  refine .after (Scan.here_apply s k) (.after (Scan.peek_of_ahead rfl) ?_)
  split
  · exact .pure nofun
  · exact .after (Scan.skip_apply 1 s k) (.pure nofun)
  · rename_i some
    obtain ⟨cs, ahead⟩ := List.head?_eq_some_iff.mp some
    refine (lexeme_isNumber ahead).bind ?_
    intro found _ isNumber
    exact .pure isNumber

theorem name_of_base {mark x : Char} (base : (mark, k) ∈ bases) (digit : k.has x = true) : CharClass.name.has x = true := by
  have table : ∀ base ∈ bases, ∀ n < 128, base.2.has (Char.ofNat n) = true → CharClass.name.has (Char.ofNat n) = true := by
    decide
  exact CharClass.forall_of_table (p := fun x => CharClass.name.has x = true) (table _ base) digit

theorem number_of_based {mark : Char} (base : (mark, k) ∈ bases) (first : k.has d = true)
    (digits : ∀ x ∈ ds, k.has x = true) (h : s.ahead i = '0' :: mark :: d :: (ds ++ cs))
    (stop : CharClass.name.hasOpt cs.head? = false) :
    number '0' s i = .ok (some (.number, String.ofList ('0' :: mark :: d :: ds))) (i + 3 + ds.length) := by
  have front : s.ahead i = ['0', mark, d] ++ (ds ++ cs) := h
  have lines : '\n' ∉ ['0', mark, d] := by
    have line : mark ≠ '\n' := by
      rintro rfl
      exact absurd base (by simp [bases])
    simp [line.symm, (Scan.ne_newline_of_has first).symm]
  have head := Scan.take_of_ahead ['0', mark, d] front lines
  have ends : k.hasOpt cs.head? = false := by
    cases next : cs.head? with
    | none => rfl
    | some x =>
      rw [next, CharClass.hasOpt_some] at stop
      by_contra digit
      have inside := name_of_base base (by simpa using digit : k.has x = true)
      exact absurd (inside.symm.trans stop) (by decide)
  have taken := Scan.takeClass_of_ahead k (Source.ahead_of_append front) digits ends
  have one : Scan.peekAt 1 s i = .ok (some mark) i := Scan.peekAt_of_ahead 1 h
  have two : Scan.peekAt 2 s i = .ok (some d) i := Scan.peekAt_of_ahead 2 h
  have read : Scan.bind (Scan.take 3) (fun head => do
      let digits ← Scan.takeClass k
      return some (TokenKind.number, head ++ digits)) s i =
        .ok (some (.number, String.ofList ('0' :: mark :: d :: ds))) (i + 3 + ds.length) := by
    refine (Scan.bind_of_ok head).trans ((Scan.bind_of_ok taken).trans ?_)
    rw [← String.ofList_append]
    rfl
  rw [number, Scan.bind_of_ok one, Scan.bind_of_ok two]
  simp only [bases, List.mem_cons, Prod.mk.injEq, List.not_mem_nil, or_false] at base
  rcases base with ⟨rfl, rfl⟩ | ⟨rfl, rfl⟩ | ⟨rfl, rfl⟩ | ⟨rfl, rfl⟩
  all_goals
    rw [CharClass.hasOpt_some, CharClass.hasOpt_some, first]
    exact read

theorem next_of_number (isNumber : IsNumber ws) (h : s.ahead i = ws ++ cs) (stop : CharClass.name.hasOpt cs.head? = false)
    (point : cs.head? ≠ some '.') : next s i = .ok ⟨.number, String.ofList ws, s.position i⟩ (i + ws.length) := by
  cases isNumber with
  | decimal number => exact next_of_decimal h number stop point
  | @based mark d k ds base first digits =>
    have read := number_of_based base first digits h stop
    refine next_of_lexeme h rfl (by decide) ?_
    simp only [lexeme, Scan.bind_of_ok read]
    simp [Scan.pure_apply, Nat.add_assoc, Nat.add_comm 3]

end VimScript.Token
