import VimScript.Proofs.Token.Text

/-!
Numbers and strings as they are written, and how they are read back.
-/

set_option autoImplicit false

namespace VimScript.Token

variable {s : Source} {i j k : Nat} {ds fs es body blanks cs : List Char} {c d : Char}

/-! ### Decimal numbers -/

/-- An integer, or a float with an exponent or without one. -/
inductive IsDecimal : List Char → Prop where
  | whole {ds : List Char} (some : ds ≠ []) (digits : ∀ d ∈ ds, CharClass.digit.has d = true) : IsDecimal ds
  | fraction {ds fs : List Char} (some : ds ≠ []) (digits : ∀ d ∈ ds, CharClass.digit.has d = true)
      (some' : fs ≠ []) (digits' : ∀ d ∈ fs, CharClass.digit.has d = true) : IsDecimal (ds ++ '.' :: fs)
  | exponent {ds fs sign es : List Char} {mark : Char} (some : ds ≠ [])
      (digits : ∀ d ∈ ds, CharClass.digit.has d = true) (some' : fs ≠ [])
      (digits' : ∀ d ∈ fs, CharClass.digit.has d = true) (isMark : mark = 'e' ∨ mark = 'E')
      (isSign : sign = [] ∨ sign = ['-'] ∨ sign = ['+']) (some'' : es ≠ [])
      (digits'' : ∀ d ∈ es, CharClass.digit.has d = true) :
      IsDecimal (ds ++ '.' :: fs ++ mark :: sign ++ es)

theorem digit_of_not_name {c : Option Char} (h : CharClass.name.hasOpt c = false) : CharClass.digit.hasOpt c = false := by
  cases c with
  | none => rfl
  | some c => simp_all [CharClass.has, Char.isAlphanum]

theorem nameStart_of_not_name {c : Option Char} (h : CharClass.name.hasOpt c = false) :
    CharClass.nameStart.hasOpt c = false := by
  cases c with
  | none => rfl
  | some c => simp_all [CharClass.has, Char.isAlphanum]

theorem hasOpt_head_of_digits (cs : List Char) (some : ds ≠ []) (digits : ∀ d ∈ ds, CharClass.digit.has d = true) :
    CharClass.digit.hasOpt (ds ++ cs).head? = true := by
  cases ds with
  | nil => exact absurd rfl some
  | cons d ds => simpa using digits d (by simp)

theorem decimal_of_whole (h : s.ahead i = ds ++ cs) (digits : ∀ d ∈ ds, CharClass.digit.has d = true)
    (stop : CharClass.name.hasOpt cs.head? = false) (point : cs.head? ≠ some '.') :
    decimal s i = .ok (String.ofList ds) (i + ds.length) := by
  have rest : s.ahead (i + ds.length) = cs := Source.ahead_of_append h
  simp only [decimal, Scan.bind_of_ok (Scan.takeClass_of_ahead .digit h digits (digit_of_not_name stop)),
    Scan.bind_of_ok (Scan.peek_of_ahead rest), Scan.bind_of_ok (Scan.peekAt_of_ahead 1 rest)]
  simp [point, Scan.pure_apply]

theorem decimal_of_fraction (h : s.ahead i = ds ++ '.' :: (fs ++ cs))
    (digits : ∀ d ∈ ds, CharClass.digit.has d = true) (some' : fs ≠ [])
    (digits' : ∀ d ∈ fs, CharClass.digit.has d = true) (stop : CharClass.name.hasOpt cs.head? = false) :
    decimal s i = .ok (String.ofList (ds ++ '.' :: fs)) (i + ds.length + 1 + fs.length) := by
  have dot : s.ahead (i + ds.length) = '.' :: (fs ++ cs) := Source.ahead_of_append h
  have point : Scan.take 1 s (i + ds.length) = .ok (String.ofList ['.']) (i + ds.length + 1) :=
    Scan.take_of_ahead ['.'] dot (by decide)
  have front : s.ahead (i + ds.length + 1) = fs ++ cs := Source.ahead_of_cons dot
  have rest : s.ahead (i + ds.length + 1 + fs.length) = cs := Source.ahead_of_append front
  have follows : CharClass.digit.hasOpt ('.' :: (fs ++ cs))[1]? = true := by
    simpa [List.head?_eq_getElem?] using hasOpt_head_of_digits cs some' digits'
  have noMark (mark : Char) (letter : CharClass.name.has mark = true) : (cs.head? == some mark) = false := by
    by_contra same
    obtain same : cs.head? = some mark := by simpa using same
    rw [same, CharClass.hasOpt_some, letter] at stop
    exact absurd stop (by decide)
  simp only [decimal, Scan.bind_of_ok (Scan.takeClass_of_ahead .digit h digits rfl),
    Scan.bind_of_ok (Scan.peek_of_ahead dot), Scan.bind_of_ok (Scan.peekAt_of_ahead 1 dot), follows, List.head?_cons,
    beq_self_eq_true, Bool.and_self, if_true, Scan.bind_of_ok point,
    Scan.bind_of_ok (Scan.takeClass_of_ahead .digit front digits' (digit_of_not_name stop)),
    Scan.bind_of_ok (Scan.peek_of_ahead rest), Scan.bind_of_ok (Scan.peekAt_of_ahead 1 rest),
    Scan.bind_of_ok (Scan.peekAt_of_ahead 2 rest), noMark 'e' rfl, noMark 'E' rfl, ← String.ofList_append]
  simp [Scan.pure_apply]

/-- The exponent is its mark, one more character and digits after it. -/
theorem decimal_of_exponent {mark x : Char} {xs : List Char}
    (h : s.ahead i = ds ++ '.' :: (fs ++ mark :: x :: (xs ++ cs))) (digits : ∀ d ∈ ds, CharClass.digit.has d = true)
    (some' : fs ≠ []) (digits' : ∀ d ∈ fs, CharClass.digit.has d = true) (isMark : mark = 'e' ∨ mark = 'E')
    (start : CharClass.digit.has x = true ∨ (x = '-' ∨ x = '+') ∧ xs ≠ [])
    (digits'' : ∀ d ∈ xs, CharClass.digit.has d = true) (stop : CharClass.name.hasOpt cs.head? = false) :
    decimal s i = .ok (String.ofList (ds ++ '.' :: (fs ++ mark :: x :: xs)))
      (i + ds.length + 1 + fs.length + 2 + xs.length) := by
  have dot : s.ahead (i + ds.length) = '.' :: (fs ++ mark :: x :: (xs ++ cs)) := Source.ahead_of_append h
  have point : Scan.take 1 s (i + ds.length) = .ok (String.ofList ['.']) (i + ds.length + 1) :=
    Scan.take_of_ahead ['.'] dot (by decide)
  have front : s.ahead (i + ds.length + 1) = fs ++ mark :: x :: (xs ++ cs) := Source.ahead_of_cons dot
  have rest : s.ahead (i + ds.length + 1 + fs.length) = mark :: x :: (xs ++ cs) := Source.ahead_of_append front
  have last : s.ahead (i + ds.length + 1 + fs.length + 2) = xs ++ cs :=
    Source.ahead_of_cons (Source.ahead_of_cons rest)
  have follows : CharClass.digit.hasOpt ('.' :: (fs ++ mark :: x :: (xs ++ cs)))[1]? = true := by
    simpa [List.head?_eq_getElem?] using hasOpt_head_of_digits (mark :: x :: (xs ++ cs)) some' digits'
  have ends : CharClass.digit.hasOpt (mark :: x :: (xs ++ cs)).head? = false := by
    rcases isMark with rfl | rfl <;> rfl
  have lines : '\n' ∉ [mark, x] := by
    have first : mark ≠ '\n' := by rcases isMark with rfl | rfl <;> decide
    have second : x ≠ '\n' := by
      rcases start with digit | ⟨rfl | rfl, -⟩
      · exact Scan.ne_newline_of_has digit
      · decide
      · decide
    simp [first.symm, second.symm]
  have head : Scan.take 2 s (i + ds.length + 1 + fs.length) =
      .ok (String.ofList [mark, x]) (i + ds.length + 1 + fs.length + 2) := Scan.take_of_ahead [mark, x] rest lines
  have goes : ((mark :: x :: (xs ++ cs)).head? == some 'e' || (mark :: x :: (xs ++ cs)).head? == some 'E') = true := by
    rcases isMark with rfl | rfl <;> rfl
  have signed : (CharClass.digit.hasOpt (some x) ||
      (some x == some '-' || some x == some '+') && CharClass.digit.hasOpt (xs ++ cs).head?) = true := by
    rcases start with digit | ⟨rfl | rfl, more⟩
    · simp [digit]
    · rw [hasOpt_head_of_digits cs more digits'']; rfl
    · rw [hasOpt_head_of_digits cs more digits'']; rfl
  have second : (mark :: x :: (xs ++ cs))[2]? = (xs ++ cs).head? := by simp [List.head?_eq_getElem?]
  have first : (mark :: x :: (xs ++ cs))[1]? = some x := rfl
  simp only [decimal, Scan.bind_of_ok (Scan.takeClass_of_ahead .digit h digits rfl),
    Scan.bind_of_ok (Scan.peek_of_ahead dot), Scan.bind_of_ok (Scan.peekAt_of_ahead 1 dot), follows,
    show (('.' :: (fs ++ mark :: x :: (xs ++ cs))).head? == some '.') = true from rfl, Bool.and_self, if_true,
    Scan.bind_of_ok point, Scan.bind_of_ok (Scan.takeClass_of_ahead .digit front digits' ends),
    Scan.bind_of_ok (Scan.peek_of_ahead rest), Scan.bind_of_ok (Scan.peekAt_of_ahead 1 rest),
    Scan.bind_of_ok (Scan.peekAt_of_ahead 2 rest), goes, first, second, signed, Scan.bind_of_ok head,
    Scan.bind_of_ok (Scan.takeClass_of_ahead .digit last digits'' (digit_of_not_name stop)),
    ← String.ofList_append]
  simp [Scan.pure_apply]

theorem IsDecimal.decimal {ws : List Char} (number : IsDecimal ws) (h : s.ahead i = ws ++ cs)
    (stop : CharClass.name.hasOpt cs.head? = false) (point : cs.head? ≠ some '.') :
    decimal s i = .ok (String.ofList ws) (i + ws.length) := by
  cases number with
  | whole some digits => exact decimal_of_whole h digits stop point
  | @fraction ds fs some digits some' digits' =>
    have read := decimal_of_fraction (by simpa using h) digits some' digits' stop
    rw [read]
    simp [Nat.add_assoc, Nat.add_comm fs.length]
  | @exponent ds fs sign es mark some digits some' digits' isMark isSign some'' digits'' =>
    obtain ⟨x, xs, same, start, rest⟩ : ∃ x xs, sign ++ es = x :: xs ∧
        (CharClass.digit.has x = true ∨ (x = '-' ∨ x = '+') ∧ xs ≠ []) ∧ ∀ d ∈ xs, CharClass.digit.has d = true := by
      rcases isSign with rfl | rfl | rfl
      · cases es with
        | nil => exact absurd rfl some''
        | cons x xs => exact ⟨x, xs, rfl, .inl (digits'' x (by simp)), fun d place => digits'' d (by simp [place])⟩
      · exact ⟨'-', es, rfl, .inr ⟨.inl rfl, some''⟩, digits''⟩
      · exact ⟨'+', es, rfl, .inr ⟨.inr rfl, some''⟩, digits''⟩
    have text : ds ++ '.' :: fs ++ mark :: sign ++ es = ds ++ '.' :: (fs ++ mark :: x :: xs) := by
      simp [← same]
    rw [text] at h ⊢
    have read := decimal_of_exponent (by simpa using h) digits some' digits' isMark start rest stop
    rw [read]
    congr 1
    simp only [List.length_append, List.length_cons]
    omega

theorem IsDecimal.head {ws : List Char} (number : IsDecimal ws) (cs : List Char)
    (stop : CharClass.name.hasOpt cs.head? = false) :
    ∃ c rest, ws = c :: rest ∧ CharClass.digit.has c = true ∧
      CharClass.nameStart.hasOpt (rest ++ cs).head? = false := by
  have split {ds : List Char} (tail : List Char) (some : ds ≠ []) (digits : ∀ d ∈ ds, CharClass.digit.has d = true)
      (after : CharClass.nameStart.hasOpt (tail ++ cs).head? = false) :
      ∃ c rest, ds ++ tail = c :: rest ∧ CharClass.digit.has c = true ∧
        CharClass.nameStart.hasOpt (rest ++ cs).head? = false := by
    cases ds with
    | nil => exact absurd rfl some
    | cons c ds =>
      refine ⟨c, ds ++ tail, rfl, digits c (by simp), ?_⟩
      cases ds with
      | nil => exact after
      | cons d ds =>
        exact CharClass.forall_of_table (p := fun d => CharClass.nameStart.has d = false) (by decide)
          (digits d (by simp))
  cases number with
  | whole some digits =>
    simpa using split [] some digits (nameStart_of_not_name stop)
  | fraction some digits some' digits' => exact split _ some digits rfl
  | exponent some digits some' digits' isMark isSign some'' digits'' =>
    simpa using split _ some digits (by rfl)

theorem next_of_decimal {ws : List Char} (h : s.ahead i = ws ++ cs) (number : IsDecimal ws)
    (stop : CharClass.name.hasOpt cs.head? = false) (point : cs.head? ≠ some '.') :
    next s i = .ok ⟨.number, String.ofList ws, s.position i⟩ (i + ws.length) := by
  have read := number.decimal h stop point
  obtain ⟨c, rest, rfl, digit, after⟩ := number.head cs stop
  have whole : s.ahead i = c :: (rest ++ cs) := h
  have front (d : Char) (letter : CharClass.nameStart.has d = true) : ((c :: (rest ++ cs))[1]? == some d) = false := by
    by_contra same
    have same : (rest ++ cs).head? = some d := by simpa [List.head?_eq_getElem?] using same
    rw [same, CharClass.hasOpt_some, letter] at after
    exact absurd after (by decide)
  refine next_of_lexeme whole ?_ (Scan.ne_newline_of_has digit) ?_
  · exact CharClass.forall_of_table (p := fun c => CharClass.white.has c = false) (by decide) digit
  · have found : Token.number c s i =
        .ok (some (.number, String.ofList (c :: rest))) (i + (c :: rest).length) := by
      simp only [Token.number, Scan.bind_of_ok (Scan.peekAt_of_ahead 1 whole),
        Scan.bind_of_ok (Scan.peekAt_of_ahead 2 whole), front 'x' rfl, front 'X' rfl, front 'b' rfl, front 'B' rfl,
        front 'z' rfl, front 'Z' rfl, digit, Bool.or_self, Bool.and_false, Bool.false_and, Bool.false_eq_true,
        if_false, if_true, Scan.bind_of_ok read]
      rfl
    simp only [lexeme, Scan.bind_of_ok found]
    rfl

/-! ### Strings -/

/-- What may stand between single quotes on one line: a quote is written twice. -/
inductive SingleQuoted : List Char → Prop where
  | nil : SingleQuoted []
  | quote {cs : List Char} (rest : SingleQuoted cs) : SingleQuoted ('\'' :: '\'' :: cs)
  | char {c : Char} {cs : List Char} (plain : c ≠ '\'') (line : c ≠ '\n') (rest : SingleQuoted cs) :
      SingleQuoted (c :: cs)

/-- What may stand between double quotes on one line: a quote or a backslash comes after a backslash. -/
inductive DoubleQuoted : List Char → Prop where
  | nil : DoubleQuoted []
  | escape {c : Char} {cs : List Char} (line : c ≠ '\n') (rest : DoubleQuoted cs) : DoubleQuoted ('\\' :: c :: cs)
  | char {c : Char} {cs : List Char} (plain : c ≠ '"') (noEscape : c ≠ '\\') (line : c ≠ '\n')
      (rest : DoubleQuoted cs) : DoubleQuoted (c :: cs)

theorem peekInLine_of_cons (h : s.ahead i = c :: cs) (line : c ≠ '\n') :
    Scan.peekInLine s i = .ok (some c) i := by
  rw [Scan.peekInLine_of_ahead h]
  simp [line]

/-- One turn through a single-quoted string whose text starts at a given cursor. -/
def singleTurn (start : Nat) : Scan (Scan.Turn Unit String) := do
  match ← Scan.peekInLine with
  | none => Scan.failHere .openSingleQuoted
  | some '\'' =>
    let stop ← Scan.tell
    Scan.skip 1
    if (← Scan.peek) == some '\'' then
      Scan.skip 1
      return .again ()
    else
      return .done (← Scan.textBetween start stop)
  | some _ =>
    Scan.skip 1
    return .again ()

/-- One turn through a double-quoted string whose text starts at a given cursor. -/
def doubleTurn (start : Nat) : Scan (Scan.Turn Unit String) := do
  match ← Scan.peekInLine with
  | none => Scan.failHere .openDoubleQuoted
  | some '"' =>
    let stop ← Scan.tell
    Scan.skip 1
    return .done (← Scan.textBetween start stop)
  | some '\\' =>
    Scan.skip 1
    match ← Scan.peekInLine with
    | none => Scan.failHere .openEscape
    | some _ =>
      Scan.skip 1
      return .again ()
  | some _ =>
    Scan.skip 1
    return .again ()

theorem singleQuoted_eq_loop (blanks : List Char) (white : ∀ x ∈ blanks, CharClass.white.has x = true)
    (h : s.ahead i = blanks ++ '\'' :: cs) :
    singleQuoted s i = Scan.loop () (fun _ => singleTurn (i + blanks.length + 1)) s (i + blanks.length + 1) := by
  have opens : (some '\'' != some '\'') = false := rfl
  simp only [singleQuoted, Scan.bind_of_ok (Scan.skipWhite_of_ahead blanks h white rfl),
    Scan.bind_of_ok (Scan.peek_of_ahead (Source.ahead_of_append h)), List.head?_cons, opens]
  rfl

theorem doubleQuoted_eq_loop (blanks : List Char) (white : ∀ x ∈ blanks, CharClass.white.has x = true)
    (h : s.ahead i = blanks ++ '"' :: cs) :
    doubleQuoted s i = Scan.loop () (fun _ => doubleTurn (i + blanks.length + 1)) s (i + blanks.length + 1) := by
  have opens : (some '"' != some '"') = false := rfl
  simp only [doubleQuoted, Scan.bind_of_ok (Scan.skipWhite_of_ahead blanks h white rfl),
    Scan.bind_of_ok (Scan.peek_of_ahead (Source.ahead_of_append h)), List.head?_cons, opens]
  rfl

theorem singleTurn_plain (start : Nat) (h : s.ahead i = c :: cs) (plain : c ≠ '\'') (line : c ≠ '\n') :
    singleTurn start s i = .ok (.again ()) (i + 1) := by
  simp only [singleTurn, Scan.bind_of_ok (peekInLine_of_cons h line)]
  rfl

theorem singleTurn_quote (start : Nat) (h : s.ahead i = '\'' :: '\'' :: cs) :
    singleTurn start s i = .ok (.again ()) (i + 2) := by
  simp only [singleTurn, Scan.bind_of_ok (peekInLine_of_cons h (by decide)), Scan.bind_of_ok (Scan.tell_apply s i),
    Scan.bind_of_ok (Scan.skip_apply 1 s i), Scan.bind_of_ok (Scan.peek_of_ahead (Source.ahead_of_cons h))]
  rfl

theorem singleTurn_close (start : Nat) (h : s.ahead i = '\'' :: cs) (stop : cs.head? ≠ some '\'') :
    singleTurn start s i = .ok (.done (s.text start i)) (i + 1) := by
  have closes : (cs.head? == some '\'') = false := by simpa using stop
  simp only [singleTurn, Scan.bind_of_ok (peekInLine_of_cons h (by decide)), Scan.bind_of_ok (Scan.tell_apply s i),
    Scan.bind_of_ok (Scan.skip_apply 1 s i), Scan.bind_of_ok (Scan.peek_of_ahead (Source.ahead_of_cons h)), closes]
  rfl

theorem doubleTurn_plain (start : Nat) (h : s.ahead i = c :: cs) (plain : c ≠ '"') (noEscape : c ≠ '\\')
    (line : c ≠ '\n') : doubleTurn start s i = .ok (.again ()) (i + 1) := by
  simp only [doubleTurn, Scan.bind_of_ok (peekInLine_of_cons h line)]
  rfl

theorem doubleTurn_escape (start : Nat) (h : s.ahead i = '\\' :: c :: cs) (line : c ≠ '\n') :
    doubleTurn start s i = .ok (.again ()) (i + 2) := by
  have second : Scan.peekInLine s (i + 1) = .ok (some c) (i + 1) := peekInLine_of_cons (Source.ahead_of_cons h) line
  simp only [doubleTurn, Scan.bind_of_ok (peekInLine_of_cons h (by decide)), Scan.bind_of_ok (Scan.skip_apply 1 s i),
    Scan.bind_of_ok second]
  rfl

theorem doubleTurn_close (start : Nat) (h : s.ahead i = '"' :: cs) :
    doubleTurn start s i = .ok (.done (s.text start i)) (i + 1) := by
  simp only [doubleTurn, Scan.bind_of_ok (peekInLine_of_cons h (by decide)), Scan.bind_of_ok (Scan.tell_apply s i)]
  rfl

theorem SingleQuoted.turns (quoted : SingleQuoted body) (start : Nat) (h : s.ahead i = body ++ cs) :
    Scan.Turns (fun _ => singleTurn start) s () i () (i + body.length) := by
  induction quoted generalizing i with
  | nil => exact .none () i
  | @quote body quoted ih =>
    have within : i + 1 < s.size := Source.lt_size_of_cons (Source.ahead_of_cons h)
    have tail := ih (i := i + 2) (Source.ahead_of_cons (Source.ahead_of_cons h))
    rw [Nat.add_assoc i 2, Nat.add_comm 2] at tail
    exact .turn (singleTurn_quote start h) (by omega) (by omega) tail
  | @char c body plain line quoted ih =>
    have within : i < s.size := Source.lt_size_of_cons h
    have tail := ih (Source.ahead_of_cons h)
    rw [Nat.add_assoc i 1, Nat.add_comm 1] at tail
    exact .turn (singleTurn_plain start h plain line) (by omega) (by omega) tail

theorem DoubleQuoted.turns (quoted : DoubleQuoted body) (start : Nat) (h : s.ahead i = body ++ cs) :
    Scan.Turns (fun _ => doubleTurn start) s () i () (i + body.length) := by
  induction quoted generalizing i with
  | nil => exact .none () i
  | @escape c body line quoted ih =>
    have within : i + 1 < s.size := Source.lt_size_of_cons (Source.ahead_of_cons h)
    have tail := ih (i := i + 2) (Source.ahead_of_cons (Source.ahead_of_cons h))
    rw [Nat.add_assoc i 2, Nat.add_comm 2] at tail
    exact .turn (doubleTurn_escape start h line) (by omega) (by omega) tail
  | @char c body plain noEscape line quoted ih =>
    have within : i < s.size := Source.lt_size_of_cons h
    have tail := ih (Source.ahead_of_cons h)
    rw [Nat.add_assoc i 1, Nat.add_comm 1] at tail
    exact .turn (doubleTurn_plain start h plain noEscape line) (by omega) (by omega) tail

theorem SingleQuoted.loop (quoted : SingleQuoted body) (h : s.ahead i = body ++ '\'' :: cs) (stop : cs.head? ≠ some '\'') :
    Scan.loop () (fun _ => singleTurn i) s i = .ok (String.ofList body) (i + body.length + 1) := by
  rw [← Source.text_of_append h]
  exact (quoted.turns i h).loop_done (singleTurn_close i (Source.ahead_of_append h) stop)

theorem DoubleQuoted.loop (quoted : DoubleQuoted body) (h : s.ahead i = body ++ '"' :: cs) :
    Scan.loop () (fun _ => doubleTurn i) s i = .ok (String.ofList body) (i + body.length + 1) := by
  rw [← Source.text_of_append h]
  exact (quoted.turns i h).loop_done (doubleTurn_close i (Source.ahead_of_append h))

theorem SingleQuoted.read (quoted : SingleQuoted body) (h : s.ahead i = '\'' :: (body ++ '\'' :: cs))
    (stop : cs.head? ≠ some '\'') : singleQuoted s i = .ok (String.ofList body) (i + 1 + body.length + 1) :=
  (singleQuoted_eq_loop [] (by simp) h).trans (quoted.loop (Source.ahead_of_cons h) stop)

theorem DoubleQuoted.read (quoted : DoubleQuoted body) (h : s.ahead i = '"' :: (body ++ '"' :: cs)) :
    doubleQuoted s i = .ok (String.ofList body) (i + 1 + body.length + 1) :=
  (doubleQuoted_eq_loop [] (by simp) h).trans (quoted.loop (Source.ahead_of_cons h))

end VimScript.Token
