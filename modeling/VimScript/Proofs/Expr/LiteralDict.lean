import VimScript.Proofs.Expr.RoundTrip
import VimScript.Proofs.Token.Keys

/-!
Reading literal dictionaries of numbers. They are read as written unless a key is taken for something else first: the
first two tokens after the brace are read in search of a lambda, and the token after each comma in search of the end.
-/

set_option autoImplicit false

namespace VimScript

variable {s : Source} {i j k n : Nat} {cs rest blanks key : List Char} {expr : Scan Node} {depth : Nat} {token : Token}

namespace Expr

open Token

/-- A key and a number, with or without a blank between the colon and the number. -/
structure Entry where
  key : List Char
  isKey : IsKey key
  blank : Bool
  value : List Char
  some : value ≠ []
  digits : ∀ d ∈ value, CharClass.digit.has d = true

namespace Entry

def gap (e : Entry) : List Char :=
  if e.blank then [' '] else []

def written (e : Entry) : List Char :=
  e.key ++ ':' :: (e.gap ++ e.value)

/-- The entries after the first, and the closing brace. -/
def writtenLater : List Entry → List Char
  | [] => ['\x7d']
  | e :: es => ',' :: ' ' :: (e.written ++ writtenLater es)

/-- The nodes of an entry that starts at a cursor. The position of a key is that of the character after its first. -/
def nodes (s : Source) (i : Nat) (e : Entry) : Node × Node :=
  (.leaf .string ("'" ++ String.ofList e.key ++ "'") (s.position (i + 1)),
    .leaf .number (String.ofList e.value) (s.position (i + e.key.length + 1 + e.gap.length)))

def nodesFrom (s : Source) : Nat → List Entry → List (Node × Node)
  | _, [] => []
  | i, e :: es => e.nodes s i :: nodesFrom s (i + e.written.length + 2) es

end Entry

open Entry

variable {e : Entry} {es : List Entry} {entries : List (Node × Node)} {position : Position} {start : Nat}

/-! ### One entry -/

theorem literalKey_of_key (h : s.ahead i = blanks ++ (key ++ ':' :: cs)) (isKey : IsKey key)
    (white : ∀ x ∈ blanks, CharClass.white.has x = true) :
    literalKey s i = .ok (.leaf .string ("'" ++ String.ofList key ++ "'") (s.position (i + blanks.length + 1)))
      (i + blanks.length + key.length) := by
  obtain ⟨c, tail, rfl⟩ := List.exists_cons_of_ne_nil isKey.some
  have char := isKey.chars c (by simp)
  have front : s.ahead (i + blanks.length) = c :: (tail ++ ':' :: cs) := Source.ahead_of_append h
  have solid : CharClass.white.hasOpt (c :: tail ++ ':' :: cs).head? = false := (isKeyChar_facts char).1
  have inside : ∀ x ∈ tail, x ≠ '\n' ∧ isKeyChar x = true := fun x place =>
    ⟨(isKeyChar_facts (isKey.chars x (by simp [place]))).2.1, isKey.chars x (by simp [place])⟩
  have later : s.ahead (i + blanks.length + 1) = tail ++ ':' :: cs := Source.ahead_of_cons front
  have run : Scan.skipWhile isKeyChar s (i + blanks.length + 1) = .ok () (i + blanks.length + 1 + tail.length) :=
    Scan.skipWhile_of_ahead isKeyChar later inside (by simp [isKeyChar, CharClass.has])
  have colon : Scan.peekInLine s (i + blanks.length + 1 + tail.length) =
      .ok (some ':') (i + blanks.length + 1 + tail.length) :=
    Scan.peekInLine_of_ahead (Source.ahead_of_append later)
  have text : s.text (i + blanks.length) (i + blanks.length + 1 + tail.length) = String.ofList (c :: tail) := by
    have whole : s.ahead (i + blanks.length) = (c :: tail) ++ ':' :: cs := front
    have last : i + blanks.length + 1 + tail.length = i + blanks.length + (c :: tail).length := by
      simp
      omega
    rw [last, Source.text_of_append whole]
  have read : Token.literalKey s i =
      .ok (String.ofList (c :: tail), s.position (i + blanks.length + 1)) (i + blanks.length + 1 + tail.length) := by
    have known : (!(c :: (tail ++ ':' :: cs)).head?.any isKeyChar) = false := by simp [char]
    simp only [Token.literalKey, Scan.bind_of_ok (Scan.skipWhite_of_ahead blanks h white solid),
      Scan.bind_of_ok (Scan.peek_of_ahead front), known, Bool.false_eq_true, if_false,
      Scan.bind_of_ok (Scan.tell_apply s _), Scan.bind_of_ok (Scan.skip_apply 1 s _),
      Scan.bind_of_ok (Scan.here_apply s _), Scan.bind_of_ok run, Scan.bind_of_ok colon]
    rw [← text]
    rfl
  have last : i + blanks.length + 1 + tail.length = i + blanks.length + (c :: tail).length := by
    simp
    omega
  rw [last] at read
  simp only [literalKey, Scan.bind_of_ok read]
  rfl

/-- A number with what ends an expression after it. -/
theorem nested_of_digits (depth : Nat) {c : Char} {gap value : List Char} (h : s.ahead i = gap ++ (value ++ c :: cs))
    (white : ∀ x ∈ gap, CharClass.white.has x = true) (decimal : IsDecimal value) (mark : c = ',' ∨ c = '\x7d') :
    nested (depth + 1) s i =
      .ok (.leaf .number (String.ofList value) (s.position (i + gap.length))) (i + gap.length + value.length) := by
  have digits : s.ahead (i + gap.length) = value ++ c :: cs := Source.ahead_of_append h
  have next : Token.next s i = .ok ⟨.number, String.ofList value, s.position (i + gap.length)⟩
      (i + gap.length + value.length) := by
    rw [Token.next_blanks gap h white]
    exact Token.next_of_decimal digits decimal (by rcases mark with rfl | rfl <;> rfl)
      (by rcases mark with rfl | rfl <;> simp)
  have ends : EndsAt s (i + gap.length + value.length) :=
    endsAt_of_mark (Source.ahead_of_append digits) (by rcases mark with rfl | rfl <;> decide)
  refine nested_of_postfixed next rfl (postfixed_of_ends ?_ ends) ends
  simp only [primary, Scan.bind_of_ok (Scan.tell_apply s i), Scan.bind_of_ok next]
  rfl

theorem Entry.white_gap (e : Entry) : ∀ x ∈ e.gap, CharClass.white.has x = true := by
  unfold gap
  split <;> simp [CharClass.has]

theorem exists_mark (es : List Entry) : ∃ c later, writtenLater es = c :: later ∧ (c = ',' ∨ c = '\x7d') := by
  cases es with
  | nil => exact ⟨'\x7d', [], rfl, .inr rfl⟩
  | cons e es => exact ⟨',', _, rfl, .inl rfl⟩

theorem length_lt_writtenLater (es : List Entry) : es.length < (writtenLater es).length := by
  induction es with
  | nil => simp [writtenLater]
  | cons e es ih =>
    simp [writtenLater]
    omega

/-- A key, a colon and a value. -/
theorem entry_of_ahead (depth : Nat) (h : s.ahead i = blanks ++ (e.written ++ (writtenLater es ++ cs)))
    (white : ∀ x ∈ blanks, CharClass.white.has x = true) :
    ∃ j, literalKey s i = .ok (e.nodes s (i + blanks.length)).1 j ∧
      Token.next s j = .ok ⟨.colon, ":", s.position j⟩ (j + 1) ∧
      nested (depth + 1) s (j + 1) = .ok (e.nodes s (i + blanks.length)).2 (i + blanks.length + e.written.length) ∧
      s.ahead (i + blanks.length + e.written.length) = writtenLater es ++ cs := by
  obtain ⟨c, later, tail, mark⟩ := exists_mark es
  have whole : s.ahead i = blanks ++ (e.key ++ ':' :: (e.gap ++ (e.value ++ c :: (later ++ cs)))) := by
    simpa [Entry.written, tail] using h
  have colon : s.ahead (i + blanks.length + e.key.length) = ':' :: (e.gap ++ (e.value ++ c :: (later ++ cs))) :=
    Source.ahead_of_append (Source.ahead_of_append whole)
  have number := nested_of_digits depth (Source.ahead_of_cons colon) e.white_gap (.whole e.some e.digits) mark
  have size : i + blanks.length + e.key.length + 1 + e.gap.length + e.value.length =
      i + blanks.length + e.written.length := by
    simp [Entry.written]
    omega
  rw [size] at number
  refine ⟨_, literalKey_of_key whole e.isKey white, Token.next_of_symbol colon rfl, number, ?_⟩
  exact Source.ahead_of_append (Source.ahead_of_append h)

theorem dictTurn_last (h : s.ahead i = blanks ++ (e.written ++ (writtenLater [] ++ cs)))
    (white : ∀ x ∈ blanks, CharClass.white.has x = true) :
    dictTurn (nested (depth + 1)) literalKey start position entries s i =
      .ok (.done (.mk position (.dict (entries ++ [e.nodes s (i + blanks.length)]))))
        (i + blanks.length + e.written.length + 1) := by
  obtain ⟨j, key, colon, value, after⟩ := entry_of_ahead depth h white
  have close := Token.next_of_symbol after rfl
  simp only [dictTurn, Scan.bind_of_ok key, Scan.bind_of_ok colon, Scan.bind_of_ok value, Scan.bind_of_ok close]
  rfl

/-- After a comma the next key is looked at as a token. -/
theorem dictTurn_comma (depth start : Nat) (position : Position) (entries : List (Node × Node)) {l : Entry}
    (h : s.ahead i = blanks ++ (e.written ++ (writtenLater (l :: es) ++ cs)))
    (white : ∀ x ∈ blanks, CharClass.white.has x = true) :
    (startsOddBlob l.key = false → dictTurn (nested (depth + 1)) literalKey start position entries s i =
      .ok (.again (entries ++ [e.nodes s (i + blanks.length)])) (i + blanks.length + e.written.length + 1)) ∧
    (startsOddBlob l.key = true → ∃ a b p j,
      dictTurn (nested (depth + 1)) literalKey start position entries s i = .fail ⟨.oddBlob a b, s.position p⟩ j) := by
  obtain ⟨j, key, colon, value, after⟩ := entry_of_ahead depth h white
  have comma : Token.next s (i + blanks.length + e.written.length) =
      .ok ⟨.comma, ",", s.position _⟩ (i + blanks.length + e.written.length + 1) := Token.next_of_symbol after rfl
  have blank : s.ahead (i + blanks.length + e.written.length + 1) =
      [' '] ++ (l.key ++ ':' :: (l.gap ++ l.value ++ (writtenLater es ++ cs))) := by
    rw [Source.ahead_of_cons after]
    simp [Entry.written]
  have skips := Token.next_blanks [' '] blank (by simp [CharClass.has])
  have later := Source.ahead_of_append blank
  refine ⟨fun even => ?_, fun odd => ?_⟩
  · obtain ⟨token, k, next⟩ := exists_next_of_key later l.isKey even
    have plain := (keyToken_of_next later l.isKey next).plain
    have peek := Token.peek_of_next (skips.trans next)
    have other : (token.kind == .braceClose) = false := by
      simp only [isTelling, Bool.or_eq_false_iff] at plain
      exact plain.1.1.2
    simp only [dictTurn, Scan.bind_of_ok key, Scan.bind_of_ok colon, Scan.bind_of_ok value, Scan.bind_of_ok comma,
      Scan.bind_of_ok peek, other]
    rfl
  · obtain ⟨a, b, p, fault⟩ := next_of_oddKey later l.isKey.chars odd
    have peek : Token.peek s (i + blanks.length + e.written.length + 1) = .fail ⟨.oddBlob a b, s.position p⟩
        (i + blanks.length + e.written.length + 1) := by
      simp only [Token.peek, Scan.peeking, skips, fault]
    refine ⟨a, b, p, i + blanks.length + e.written.length + 1, ?_⟩
    simp only [dictTurn, Scan.bind_of_ok key, Scan.bind_of_ok colon, Scan.bind_of_ok value, Scan.bind_of_ok comma]
    exact Scan.bind_fail.mpr (.inl peek)

/-- All entries from one on are read, unless a later key looks like an odd blob. -/
theorem repeatUpTo_dictTurn (depth start : Nat) (position : Position) :
    ∀ (es : List Entry) (e : Entry) (n i : Nat) (blanks : List Char) (entries : List (Node × Node)),
      s.ahead i = blanks ++ (e.written ++ (writtenLater es ++ cs)) → (∀ x ∈ blanks, CharClass.white.has x = true) →
      es.length < n →
      ((∀ l ∈ es, startsOddBlob l.key = false) →
        Scan.repeatUpTo (dictTurn (nested (depth + 1)) literalKey start position) n entries s i =
          .ok (.mk position (.dict (entries ++ nodesFrom s (i + blanks.length) (e :: es))))
            (i + blanks.length + e.written.length + (writtenLater es).length)) ∧
      (∀ l ∈ es, startsOddBlob l.key = true → ∃ a b p j,
        Scan.repeatUpTo (dictTurn (nested (depth + 1)) literalKey start position) n entries s i =
          .fail ⟨.oddBlob a b, s.position p⟩ j)
  | [], e, n + 1, i, blanks, entries, h, white, _ => by
    refine ⟨fun _ => ?_, by simp⟩
    simp [Scan.repeatUpTo, dictTurn_last h white, nodesFrom, writtenLater]
  | l :: es, e, n + 1, i, blanks, entries, h, white, enough => by
    obtain ⟨goes, stops⟩ := dictTurn_comma depth start position entries h white
    have comma : s.ahead i = blanks ++ (e.written ++ ',' :: ([' '] ++ (l.written ++ (writtenLater es ++ cs)))) := by
      simpa [writtenLater] using h
    have after := Source.ahead_of_cons (Source.ahead_of_append (Source.ahead_of_append comma))
    have blank : ∀ x ∈ [' '], CharClass.white.has x = true := by simp [CharClass.has]
    obtain ⟨reads, faults⟩ :=
      repeatUpTo_dictTurn depth start position es l n (i + blanks.length + e.written.length + 1) [' ']
        (entries ++ [e.nodes s (i + blanks.length)]) after blank (by simpa using enough)
    cases odd : startsOddBlob l.key with
    | false =>
      have turn := goes odd
      have next : Scan.repeatUpTo (dictTurn (nested (depth + 1)) literalKey start position) (n + 1) entries s i =
          Scan.repeatUpTo (dictTurn (nested (depth + 1)) literalKey start position) n
            (entries ++ [e.nodes s (i + blanks.length)]) s (i + blanks.length + e.written.length + 1) := by
        simp only [Scan.repeatUpTo, turn]
      rw [next]
      refine ⟨fun even => ?_, fun m place isOdd => ?_⟩
      · rw [reads fun m place => even m (by simp [place])]
        have size :
            i + blanks.length + e.written.length + 1 + [' '].length + l.written.length + (writtenLater es).length =
            i + blanks.length + e.written.length + (writtenLater (l :: es)).length := by
          simp [writtenLater]
          omega
        rw [size]
        simp [nodesFrom]
      · rcases List.mem_cons.mp place with rfl | later
        · simp [isOdd] at odd
        · exact faults m later isOdd
    | true =>
      obtain ⟨a, b, p, j, turn⟩ := stops odd
      refine ⟨fun even => ?_, fun m place isOdd => ⟨a, b, p, j, ?_⟩⟩
      · simp [even l (by simp)] at odd
      · simp only [Scan.repeatUpTo, turn]

/-! ### The guess for a lambda -/

/-- The first entry starts like the parameters of a lambda: its key and value are one identifier with a comma after it. -/
def GuessesLambda (e : Entry) (es : List Entry) : Prop :=
  isWordKey e.key = true ∧ e.blank = false ∧ es ≠ []

/-- A key is tried as a token that turns out to be a blob with half a byte. The token after a dash is tried only where the
first key is. -/
def HidesBlob (e : Entry) (es : List Entry) : Prop :=
  startsOddBlob e.key = true ∨ (∃ later, e.key = '-' :: later ∧ startsOddBlob later = true) ∨
    ∃ l ∈ es, startsOddBlob l.key = true

instance (e : Entry) (es : List Entry) : Decidable (GuessesLambda e es) :=
  inferInstanceAs (Decidable (_ ∧ _ ∧ _))

variable {first second brace : Token}

theorem promisesLambda_of_second (plain : isTelling first.kind = false) (next : Token.next s k = .ok second n) :
    promisesLambda first s k = .ok (second.kind == .arrow || second.kind == .comma) k := by
  have looks : promisesLambda first = (do
      let second ← Token.peek
      return second.kind == .arrow || second.kind == .comma) := by
    simp only [isTelling, Bool.or_eq_false_iff, beq_eq_false_iff_ne] at plain
    unfold promisesLambda
    split <;> simp_all
  rw [looks, Scan.bind_of_ok (Token.peek_of_next next)]
  rfl

theorem not_promising (plain : isTelling second.kind = false) :
    (second.kind == .arrow || second.kind == .comma) = false := by
  simp only [isTelling, Bool.or_eq_false_iff] at plain
  simp [plain.1.1.1.1, plain.1.1.1.2]

/-- The identifier a key of letters starts is all of its name characters. -/
theorem run_of_name {xs ys zs : List Char} (h : s.ahead i = ys ++ zs) (spans : s.Spans i xs k)
    (chars : ∀ x ∈ xs, CharClass.name.has x = true) (stop : CharClass.name.hasOpt (s.ahead k).head? = false)
    (chars' : ∀ y ∈ ys, CharClass.name.has y = true) (stop' : CharClass.name.hasOpt zs.head? = false) : xs = ys := by
  have run {ws rest : List Char} (inside : ∀ x ∈ ws, CharClass.name.has x = true)
      (out : CharClass.name.hasOpt rest.head? = false) : Source.run CharClass.name.has (ws ++ rest) = ws := by
    refine Source.run_append (fun x place => ⟨Scan.ne_newline_of_has (inside x place), inside x place⟩) fun c front => ?_
    rw [front] at out
    exact .inr out
  rw [← run chars stop, ← spans.ahead, h, run chars' stop']

theorem name_of_isWordKey (word : isWordKey key = true) : ∀ c ∈ key, CharClass.name.has c = true := by
  simp only [isWordKey, Bool.and_eq_true, List.all_eq_true] at word
  exact fun c place => name_of_word (word.1.1.2 c place)

/-- Without a blank the number is part of the identifier. -/
theorem identifier_of_glued {xs : List Char} (h : s.ahead i = e.written ++ (writtenLater es ++ cs))
    (word : isWordKey e.key = true) (glued : e.blank = false) (spans : s.Spans i xs k)
    (chars : ∀ x ∈ xs, CharClass.name.has x = true) (stop : CharClass.name.hasOpt (s.ahead k).head? = false) :
    xs = e.key ++ ':' :: e.value ∧ s.ahead k = writtenLater es ++ cs := by
  have whole : s.ahead i = (e.key ++ ':' :: e.value) ++ (writtenLater es ++ cs) := by
    simpa [Entry.written, Entry.gap, glued] using h
  have names : ∀ c ∈ e.key ++ ':' :: e.value, CharClass.name.has c = true := by
    intro c place
    rcases List.mem_append.mp place with key | place
    · exact name_of_isWordKey word c key
    · rcases List.mem_cons.mp place with rfl | digit
      · rfl
      · exact CharClass.forall_of_table (p := fun c => CharClass.name.has c = true) (by decide) (e.digits c digit)
  have stop' : CharClass.name.hasOpt (writtenLater es ++ cs).head? = false := by
    obtain ⟨c, later, tail, mark⟩ := exists_mark es
    rw [tail]
    rcases mark with rfl | rfl <;> rfl
  obtain rfl := run_of_name whole spans chars stop names stop'
  exact ⟨rfl, List.append_cancel_left (spans.ahead.symm.trans whole)⟩

/-- With a blank it ends with the colon. -/
theorem ahead_of_blank {xs : List Char} (h : s.ahead i = e.written ++ (writtenLater es ++ cs))
    (word : isWordKey e.key = true) (apart : e.blank = true) (spans : s.Spans i xs k)
    (chars : ∀ x ∈ xs, CharClass.name.has x = true) (stop : CharClass.name.hasOpt (s.ahead k).head? = false) :
    s.ahead k = [' '] ++ (e.value ++ (writtenLater es ++ cs)) := by
  have whole : s.ahead i = (e.key ++ [':']) ++ ([' '] ++ (e.value ++ (writtenLater es ++ cs))) := by
    simpa [Entry.written, Entry.gap, apart] using h
  have names : ∀ c ∈ e.key ++ [':'], CharClass.name.has c = true := by
    simpa [or_imp, forall_and, CharClass.has] using name_of_isWordKey word
  obtain rfl := run_of_name whole spans chars stop names rfl
  exact List.append_cancel_left (spans.ahead.symm.trans whole)

theorem promisesLambda_of_entry (h : s.ahead i = e.written ++ (writtenLater es ++ cs))
    (next : Token.next s i = .ok token k) (noDash : ∀ later, e.key = '-' :: later → startsOddBlob later = false) :
    promisesLambda token s k = .ok (decide (GuessesLambda e es)) k := by
  have whole : s.ahead i = e.key ++ ':' :: (e.gap ++ (e.value ++ (writtenLater es ++ cs))) := by
    simpa [Entry.written] using h
  have keyToken := keyToken_of_next whole e.isKey next
  have plain := keyToken.plain
  cases keyToken with
  | @part first later split ahead _ blob other =>
    have noGuess : decide (GuessesLambda e es) = false := by simp [GuessesLambda, other]
    obtain ⟨second, n, read, plain'⟩ : ∃ second n, Token.next s k = .ok second n ∧ isTelling second.kind = false := by
      cases later with
      | nil => exact ⟨_, _, Token.next_of_symbol ahead rfl, rfl⟩
      | cons c later =>
        have isKey : IsKey (c :: later) := ⟨by simp, fun x place => e.isKey.chars x (by simp [split, place])⟩
        have even : startsOddBlob (c :: later) = false := by
          by_contra odd
          have odd := eq_true_of_ne_false odd
          have dash : e.key = '-' :: c :: later := by rw [split, blob odd]; rfl
          simp [noDash _ dash] at odd
        obtain ⟨second, n, read⟩ := exists_next_of_key ahead isKey even
        exact ⟨second, n, read, (keyToken_of_next ahead isKey read).plain⟩
    rw [promisesLambda_of_second plain read, not_promising plain', noGuess]
  | @whole xs word kind value spans chars stop =>
    obtain ⟨second, n, read, kinds⟩ : ∃ second n, Token.next s k = .ok second n ∧
        (second.kind == .arrow || second.kind == .comma) = decide (GuessesLambda e es) := by
      cases blank : e.blank with
      | true =>
        have after := ahead_of_blank h word blank spans chars stop
        obtain ⟨c, later, tail, mark⟩ := exists_mark es
        have number := Token.next_of_decimal (Source.ahead_of_append after) (.whole e.some e.digits)
          (by rw [tail]; rcases mark with rfl | rfl <;> rfl) (by rw [tail]; rcases mark with rfl | rfl <;> simp)
        have second := (Token.next_blanks [' '] after (by simp [CharClass.has])).trans number
        exact ⟨_, _, second, by simp [GuessesLambda, blank]⟩
      | false =>
        obtain ⟨-, after⟩ := identifier_of_glued h word blank spans chars stop
        cases es with
        | nil => exact ⟨_, _, Token.next_of_symbol after rfl, by simp [GuessesLambda]⟩
        | cons l es => exact ⟨_, _, Token.next_of_symbol after rfl, by simp [GuessesLambda, word, blank]⟩
    rw [promisesLambda_of_second plain read, kinds]

/-! ### What the brace opens -/

/-- What keeps a first key from being tried as a token to the end. -/
def HidesFirst (key : List Char) : Prop :=
  startsOddBlob key = true ∨ ∃ later, key = '-' :: later ∧ startsOddBlob later = true

theorem braces_of_hidden (depth start : Nat) (h : s.ahead i = e.written ++ (writtenLater es ++ cs))
    (hidden : HidesFirst e.key) :
    ∃ a b p j, braces (nested (depth + 1)) start brace s i = .fail ⟨.oddBlob a b, s.position p⟩ j := by
  have whole : s.ahead i = e.key ++ ':' :: (e.gap ++ (e.value ++ (writtenLater es ++ cs))) := by
    simpa [Entry.written] using h
  rcases hidden with odd | ⟨later, dash, odd⟩
  · obtain ⟨a, b, p, fault⟩ := next_of_oddKey whole e.isKey.chars odd
    refine ⟨a, b, p, p, ?_⟩
    simp only [braces, Scan.bind_of_ok (Scan.tell_apply s i)]
    exact Scan.bind_fail.mpr (.inl fault)
  · rw [dash] at whole
    have chars : ∀ c ∈ later, isKeyChar c = true := fun c place => e.isKey.chars c (by simp [dash, place])
    obtain ⟨a, b, p, fault⟩ := next_of_oddKey (Source.ahead_of_cons whole) chars odd
    have minus : Token.next s i = .ok ⟨.minus, "-", s.position i⟩ (i + 1) := by
      refine Token.next_of_symbol whole ?_
      cases later with
      | nil => simp [startsOddBlob] at odd
      | cons c later =>
        obtain rfl : c = '0' := by
          by_contra other
          have even : startsOddBlob (c :: later) = false := startsOddBlob_of_head (by simpa using other)
          simp [even] at odd
        rfl
    have peek : Token.peek s (i + 1) = .fail ⟨.oddBlob a b, s.position p⟩ (i + 1) := by
      simp only [Token.peek, Scan.peeking, fault]
    have stops : promisesLambda ⟨.minus, "-", s.position i⟩ s (i + 1) = .fail ⟨.oddBlob a b, s.position p⟩ (i + 1) :=
      Scan.bind_fail.mpr (.inl peek)
    refine ⟨a, b, p, i + 1, ?_⟩
    simp only [braces, bind_assoc, Scan.bind_of_ok (Scan.tell_apply s i), Scan.bind_of_ok minus]
    exact Scan.bind_fail.mpr (.inl stops)

theorem loop_of_fault {σ α : Type} {body : σ → Scan (Scan.Turn σ α)} {state : σ} {fault : Fault}
    (stops : body state s i = .fail fault j) : Scan.loop state body s i = .fail fault j := by
  simp [Scan.loop, Scan.repeatUpTo, stops]

theorem word_of_isArgumentName {text : String} (name : isArgumentName text = true) :
    ∀ c ∈ text.toList, CharClass.word.has c = true := by
  unfold isArgumentName at name
  split at name
  · simp at name
  · rename_i d rest letters
    simp only [Bool.and_eq_true, List.all_eq_true] at name
    rw [letters]
    intro c place
    rcases List.mem_cons.mp place with rfl | later
    · exact word_of_nameStart name.1
    · exact name.2 c later

/-- The first entry is taken for a parameter, and its colon is no part of a name. -/
theorem braces_of_guess (depth start : Nat) (h : s.ahead i = e.written ++ (writtenLater es ++ cs))
    (guess : GuessesLambda e es) :
    braces (nested (depth + 1)) start brace s i =
      .fail ⟨.illegalArgument (String.ofList e.written), s.position i⟩ (i + e.written.length) := by
  obtain ⟨word, glued, more⟩ := guess
  have whole : s.ahead i = e.key ++ ':' :: (e.gap ++ (e.value ++ (writtenLater es ++ cs))) := by
    simpa [Entry.written] using h
  have letter : CharClass.nameStart.hasOpt e.key.head? = true := by
    simp only [isWordKey, Bool.and_eq_true] at word
    exact word.1.1.1
  have even : startsOddBlob e.key = false := startsOddBlob_of_head fun zero => by
    rw [zero] at letter
    exact absurd letter (by decide)
  obtain ⟨token, k, next⟩ := exists_next_of_key whole e.isKey even
  have noDash : ∀ later, e.key = '-' :: later → startsOddBlob later = false := fun later dash => by
    rw [dash] at letter
    exact absurd letter (by simp [CharClass.has])
  have promise := promisesLambda_of_entry h next noDash
  rw [decide_eq_true (show GuessesLambda e es from ⟨word, glued, more⟩)] at promise
  obtain ⟨-, -, position, -⟩ := spelled_of_key whole e.isKey next
  cases keyToken_of_next whole e.isKey next with
  | part _ _ _ _ other => simp [word] at other
  | whole _ kind value spans chars stop =>
    obtain ⟨rfl, -⟩ := identifier_of_glued h word glued spans chars stop
    have text : e.key ++ ':' :: e.value = e.written := by simp [Entry.written, Entry.gap, glued]
    rw [text] at value spans
    have noName : isArgumentName token.value = false := by
      by_contra name
      have colon := word_of_isArgumentName (eq_true_of_ne_false name) ':' (by simp [value, Entry.written])
      exact absurd colon (by decide)
    have illegal : parameterTurn ([], token) s k =
        .fail ⟨.illegalArgument (String.ofList e.written), s.position i⟩ (i + e.written.length) := by
      simp only [parameterTurn, kind, parameter, noName]
      rw [value, position, spans.cursor]
      rfl
    have stops : parameters token s k =
        .fail ⟨.illegalArgument (String.ofList e.written), s.position i⟩ (i + e.written.length) := loop_of_fault illegal
    simp only [braces, bind_assoc, Scan.bind_of_ok (Scan.tell_apply s i), Scan.bind_of_ok next,
      Scan.bind_of_ok promise, if_true, lambda]
    exact Scan.bind_fail.mpr (.inl stops)

theorem braces_of_entries (depth start : Nat) (kind : brace.kind = .literalBraceOpen)
    (h : s.ahead i = e.written ++ (writtenLater es ++ cs)) (noGuess : ¬GuessesLambda e es) (shown : ¬HidesFirst e.key) :
    ((∀ l ∈ es, startsOddBlob l.key = false) → braces (nested (depth + 1)) start brace s i =
      .ok (.mk brace.position (.dict (nodesFrom s i (e :: es)))) (i + e.written.length + (writtenLater es).length)) ∧
    (∀ l ∈ es, startsOddBlob l.key = true → ∃ a b p j,
      braces (nested (depth + 1)) start brace s i = .fail ⟨.oddBlob a b, s.position p⟩ j) := by
  have whole : s.ahead i = e.key ++ ':' :: (e.gap ++ (e.value ++ (writtenLater es ++ cs))) := by
    simpa [Entry.written] using h
  have even : startsOddBlob e.key = false := by
    by_contra odd
    exact shown (.inl (eq_true_of_ne_false odd))
  have noDash : ∀ later, e.key = '-' :: later → startsOddBlob later = false := fun later dash => by
    by_contra odd
    exact shown (.inr ⟨later, dash, eq_true_of_ne_false odd⟩)
  obtain ⟨token, k, next⟩ := exists_next_of_key whole e.isKey even
  have promise := promisesLambda_of_entry h next noDash
  rw [decide_eq_false noGuess] at promise
  have plain := (keyToken_of_next whole e.isKey next).plain
  have noClose : (token.kind == .braceClose) = false := by
    simp only [isTelling, Bool.or_eq_false_iff] at plain
    exact plain.1.1.2
  have opens : braces (nested (depth + 1)) start brace s i =
      Scan.repeatUpTo (dictTurn (nested (depth + 1)) literalKey start brace.position) (s.size + 2) [] s i := by
    simp only [braces, bind_assoc, Scan.bind_of_ok (Scan.tell_apply s i), Scan.bind_of_ok next,
      Scan.bind_of_ok promise, kind]
    show dict (nested (depth + 1)) literalKey start brace.position s i = _
    simp only [dict_eq, Scan.bind_of_ok (Token.peek_of_next next), noClose]
    rfl
  have enough : es.length < s.size + 2 := by
    have size := s.length_ahead i
    have entries := length_lt_writtenLater es
    rw [h, List.length_append, List.length_append] at size
    omega
  obtain ⟨reads, faults⟩ := repeatUpTo_dictTurn depth start brace.position es e (s.size + 2) i [] [] h (by simp) enough
  rw [opens]
  exact ⟨by simpa using reads, faults⟩

/-! ### Whole lines -/

theorem tier_of_fault {fault : Fault} (first : Token.next s i = .ok token k) (plain : token.kind.unary? = none)
    (fails : primary expr s i = .fail fault j) (level : Nat) : tier expr level s i = .fail fault j := by
  have operand : tier expr 0 s i = .fail fault j := by
    have part : postfixed expr (primary expr) s i = .fail fault j := Scan.bind_fail.mpr (.inl fails)
    have bottom : tier expr 0 = prefixed (postfixed expr (primary expr)) := rfl
    rw [bottom, prefixed_eq, Scan.bind_of_ok (signs_of_none first plain)]
    exact Scan.bind_fail.mpr (.inl part)
  have product : tier expr 1 s i = .fail fault j := Scan.bind_fail.mpr (.inl operand)
  have sum : tier expr 2 s i = .fail fault j := Scan.bind_fail.mpr (.inl product)
  have comparison : tier expr 3 s i = .fail fault j := Scan.bind_fail.mpr (.inl sum)
  have conjunction : tier expr 4 s i = .fail fault j := Scan.bind_fail.mpr (.inl comparison)
  match level with
  | 0 => exact operand
  | 1 => exact product
  | 2 => exact sum
  | 3 => exact comparison
  | 4 => exact conjunction
  | _ + 5 => exact Scan.bind_fail.mpr (.inl conjunction)

theorem nested_of_fault {fault : Fault} (first : Token.next s i = .ok token k) (plain : token.kind.unary? = none)
    (fails : primary (nested depth) s i = .fail fault j) : nested (depth + 1) s i = .fail fault j :=
  Scan.bind_fail.mpr (.inl (tier_of_fault first plain fails 5))

def literalDict (e : Entry) (es : List Entry) : String :=
  String.ofList ('#' :: '\x7b' :: (e.written ++ writtenLater es))

/-- A literal dictionary of numbers is read back with its entries in order, unless its first entry is taken for the
parameter of a lambda or a key for an odd blob. Keys stand where their second characters do. -/
theorem ofLine_literalDict (e : Entry) (es : List Entry) :
    (GuessesLambda e es → ofLine (literalDict e es) =
      .fail ⟨.illegalArgument (String.ofList e.written), (Source.ofLines [literalDict e es]).position 2⟩
        (2 + e.written.length)) ∧
    (¬GuessesLambda e es → HidesBlob e es → ∃ a b p j, ofLine (literalDict e es) =
      .fail ⟨.oddBlob a b, (Source.ofLines [literalDict e es]).position p⟩ j) ∧
    (¬GuessesLambda e es → ¬HidesBlob e es → ofLine (literalDict e es) =
      .ok (.mk ((Source.ofLines [literalDict e es]).position 0)
        (.dict (nodesFrom (.ofLines [literalDict e es]) 2 (e :: es)))) (literalDict e es).length) := by
  generalize source : Source.ofLines [literalDict e es] = s
  have front : s.ahead 0 = '#' :: '\x7b' :: (e.written ++ (writtenLater es ++ ['\n'])) := by
    simp [← source, ahead_ofLines, literalDict]
  have inner : s.ahead 2 = e.written ++ (writtenLater es ++ ['\n']) := Source.ahead_of_cons (Source.ahead_of_cons front)
  have brace : Token.next s 0 = .ok ⟨.literalBraceOpen, "#\x7b", s.position 0⟩ 2 := Token.next_of_symbol front rfl
  have opens : primary (nested s.size) s 0 = braces (nested s.size) 0 ⟨.literalBraceOpen, "#\x7b", s.position 0⟩ s 2 := by
    simp only [primary, Scan.bind_of_ok (Scan.tell_apply s 0), Scan.bind_of_ok brace]
  have read : ofLine (literalDict e es) = nested (s.size + 1) s 0 := by
    simp only [ofLine, Expr.read, source]
  obtain ⟨depth, size⟩ : ∃ depth, s.size = depth + 1 := by
    have size := s.length_ahead 0
    rw [front] at size
    exact ⟨s.size - 1, by simp at size; omega⟩
  rw [read, size]
  rw [size] at opens
  have fails {fault : Fault} {j : Nat}
      (stops : braces (nested (depth + 1)) 0 ⟨.literalBraceOpen, "#\x7b", s.position 0⟩ s 2 = .fail fault j) :
      nested (depth + 1 + 1) s 0 = .fail fault j := nested_of_fault brace rfl (opens.trans stops)
  have isBrace : (⟨.literalBraceOpen, "#\x7b", s.position 0⟩ : Token).kind = .literalBraceOpen := rfl
  refine ⟨fun guess => ?_, fun noGuess hidden => ?_, fun noGuess shown => ?_⟩
  · exact fails (braces_of_guess depth 0 inner guess)
  · by_cases first : HidesFirst e.key
    · obtain ⟨a, b, p, j, stops⟩ := braces_of_hidden depth 0 inner first
      exact ⟨a, b, p, j, fails stops⟩
    · obtain ⟨l, place, odd⟩ := (or_assoc.mpr hidden).resolve_left first
      obtain ⟨a, b, p, j, stops⟩ := (braces_of_entries depth 0 isBrace inner noGuess first).2 l place odd
      exact ⟨a, b, p, j, fails stops⟩
  · have even : ∀ l ∈ es, startsOddBlob l.key = false := fun l place => by
      by_contra odd
      exact shown (.inr (.inr ⟨l, place, eq_true_of_ne_false odd⟩))
    have first : ¬HidesFirst e.key := fun hides => shown (or_assoc.mp (.inl hides))
    have dict := (braces_of_entries depth 0 isBrace inner noGuess first).1 even
    have length : 2 + e.written.length + (writtenLater es).length = (literalDict e es).length := by
      simp only [literalDict, String.length_ofList, List.length_cons, List.length_append]
      omega
    have newline : s.ahead (2 + e.written.length + (writtenLater es).length) = ['\n'] :=
      Source.ahead_of_append (Source.ahead_of_append inner)
    have ends : EndsAt s (2 + e.written.length + (writtenLater es).length) := endsAt_of_mark newline (by decide)
    rw [← length]
    exact nested_of_postfixed brace rfl (postfixed_of_ends (opens.trans dict) ends) ends

theorem literalDict_refused :
    (∃ fault j, ofLine "#\x7ba:1, b:2\x7d" = .fail fault j) ∧ (∃ fault j, ofLine "#\x7b0z1: 2\x7d" = .fail fault j) ∧
      ∃ n j, ofLine "#\x7ba: 1\x7d" = .ok n j ∧ n.children.map (·.position.cursor) = [3, 5] := by
  refine ⟨⟨_, _, rfl⟩, ⟨_, _, rfl⟩, ⟨_, _, rfl, rfl⟩⟩

end Expr

end VimScript
