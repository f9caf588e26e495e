import VimScript.Proofs.Cut.Scan
import VimScript.Proofs.Token.Blobs

/-!
Numbers and blobs before a cut. They look further ahead than other tokens: at the sign of an exponent, at the dot between
two bytes, and at the character behind the mark of a blob.
-/

set_option autoImplicit false

namespace VimScript.Source.Cut

open Scan Token

variable {s t : Source} {i j k n : Nat} {c : Char} {cs : List Char} {cut : s.Cut t j}

/-! ### Texts before the cut -/

theorem take_within (cut : s.Cut t j) (n : Nat) (h : i + n ≤ j) :
    ∃ v k, i ≤ k ∧ k ≤ j ∧ Scan.take n s i = .ok v k ∧ Scan.take n t i = .ok v k := by
  obtain ⟨xs, right, bound, left | ⟨whole, c, rest, -, -, -, left⟩⟩ := cut.run_eq (fun _ => true) (i := i) (by omega)
  · refine ⟨_, _, by omega, ?_, take_eq n s i, ?_⟩
    · rw [left]
      have := List.length_take_le' n xs
      omega
    · rw [take_eq, right, left]
  · have same : (xs ++ c :: rest).take n = xs.take n := List.take_append_of_le_length (by omega)
    refine ⟨_, _, by omega, ?_, take_eq n s i, ?_⟩
    · rw [left, same]
      have := List.length_take_le' n xs
      omega
    · rw [take_eq, right, left, same]

theorem takeClass_within (cut : s.Cut t j) (class_ : CharClass)
    (names : ∀ c, class_.has c = true → CharClass.name.has c = true) (h : i ≤ j) :
    ∃ v k, i ≤ k ∧ k ≤ j ∧ Scan.takeClass class_ s i = .ok v k ∧ Scan.takeClass class_ t i = .ok v k :=
  cut.takeWhile_within h (cut.stop_of_name names)

theorem name_of_hex (c : Char) (h : CharClass.hex.has c = true) : CharClass.name.has c = true :=
  CharClass.forall_of_table (p := fun c => CharClass.name.has c = true) (by decide) h

theorem name_of_digit (c : Char) (h : CharClass.digit.has c = true) : CharClass.name.has c = true :=
  CharClass.forall_of_table (p := fun c => CharClass.name.has c = true) (by decide) h

theorem name_of_binary (c : Char) (h : CharClass.binary.has c = true) : CharClass.name.has c = true :=
  CharClass.forall_of_table (p := fun c => CharClass.name.has c = true) (by decide) h

/-! ### Blobs -/

theorem blobTurn_onward (start : Nat) (s : Source) (i : Nat) : (blobTurn start ()).Gives s i fun _ k => i ≤ k := by
  have taken {n : Nat} : Scan.Gives (do
      let _ ← Scan.take n
      return Turn.again ()) s i fun (_ : Turn Unit String) k => i ≤ k :=
    .after (take_eq n s i) (.pure (Nat.le_add_right i _))
  have stops : Scan.Gives (do return Turn.done (← Scan.textSince start)) s i fun (_ : Turn Unit String) k => i ≤ k :=
    .after (show Scan.textSince start s i = .ok (s.text start i) i from rfl) (.pure (Nat.le_refl i))
  refine .after (peekRun_of_ahead 2 rfl) ?_
  split
  · exact .ite (fun _ => taken) fun _ => .ite (fun _ => taken) fun _ => .ite (fun _ => .failHere) fun _ => stops
  · exact stops

/-- The text goes on neither with a byte of a blob nor with a dot before one. -/
def EndsBlob (cs : List Char) : Prop :=
  ((∀ c ∈ cs.tail.head?, c = '\n') ∨ CharClass.hex.hasOpt cs.head? = false) ∧
    ∀ c rest, cs = '.' :: c :: rest → CharClass.hex.has c = false

theorem endsBlob_cons {a b : Char} (stop : b = '\n' ∨ CharClass.hex.has a = false)
    (noDot : a = '.' → CharClass.hex.has b = false) : EndsBlob (a :: b :: cs) := by
  refine ⟨stop.imp_left fun line => by simp [line], ?_⟩
  rintro c rest ⟨⟩
  exact noDot rfl

theorem endsBlob_newline : EndsBlob ('\n' :: cs) := by
  refine ⟨.inr rfl, ?_⟩
  rintro c rest ⟨⟩

theorem blobTurn_done (cut : s.Cut t j) (start : Nat) {turn : Turn Unit String} (h : i ≤ j) (left : EndsBlob (s.ahead i))
    (right : EndsBlob (t.ahead i)) (run : blobTurn start () s i = .ok turn k) :
    k ≤ j ∧ blobTurn start () t i = .ok turn k := by
  rw [blobTurn_stop start rfl left.1 left.2] at run
  obtain ⟨rfl, rfl⟩ := Reply.ok.inj run
  exact ⟨h, by rw [blobTurn_stop start rfl right.1 right.2, cut.text_eq h start]⟩

/-- Two characters before the cut are a byte of a blob, or a dot and a digit, in both buffers or in none. -/
theorem blobTurn_of_two (cut : s.Cut t j) (start : Nat) {turn : Turn Unit String} {a b : Char} {ds : List Char}
    (two : i + 2 ≤ j) (left : s.ahead i = a :: b :: cs) (right : t.ahead i = a :: b :: ds)
    (run : blobTurn start () s i = .ok turn k) : k ≤ j ∧ blobTurn start () t i = .ok turn k := by
  by_cases dot : a = '.' ∧ CharClass.hex.has b = true
  · obtain ⟨rfl, digit⟩ := dot
    rw [blobTurn_dot start left digit] at run
    obtain ⟨rfl, rfl⟩ := Reply.ok.inj run
    exact ⟨by omega, blobTurn_dot start right digit⟩
  by_cases stop : b = '\n' ∨ CharClass.hex.has a = false
  · have noDot (point : a = '.') : CharClass.hex.has b = false := Bool.eq_false_iff.mpr fun digit => dot ⟨point, digit⟩
    exact cut.blobTurn_done start (by omega) (left ▸ endsBlob_cons stop noDot) (right ▸ endsBlob_cons stop noDot) run
  · simp only [not_or, Bool.not_eq_false] at stop
    obtain ⟨line, first⟩ := stop
    by_cases second : CharClass.hex.has b = true
    · rw [blobTurn_pair start left first second] at run
      obtain ⟨rfl, rfl⟩ := Reply.ok.inj run
      exact ⟨two, blobTurn_pair start right first second⟩
    · rw [blobTurn_odd start left first (by simpa using second) line] at run
      cases run

theorem hex_at_cut (cut : s.Cut t j) (front : s.ahead j = c :: cs) : CharClass.hex.has c = false := by
  have stop := cut.stop
  rw [front] at stop
  exact Bool.eq_false_iff.mpr fun digit => by simp [name_of_hex c digit] at stop

/-- One character before the cut is no byte of a blob. -/
theorem blobTurn_of_one (cut : s.Cut t j) (start : Nat) {turn : Turn Unit String} (last : i + 1 = j)
    (run : blobTurn start () s i = .ok turn k) : k ≤ j ∧ blobTurn start () t i = .ok turn k := by
  obtain ⟨more, newline⟩ := cut.newline
  obtain ⟨a, left, right⟩ := cut.exists_char (i := i) (by omega)
  rw [last] at left right
  rw [newline] at right
  refine cut.blobTurn_done start (by omega) ?_ (right ▸ endsBlob_cons (.inl rfl) fun _ => rfl) run
  rw [left]
  cases behind : s.ahead j with
  | nil =>
    refine ⟨.inl (by simp), ?_⟩
    rintro c rest ⟨⟩
  | cons b cs =>
    have other := cut.hex_at_cut behind
    refine endsBlob_cons ?_ fun _ => other
    by_contra stop
    simp only [not_or, Bool.not_eq_false] at stop
    rw [blobTurn_odd start (left.trans (by rw [behind])) stop.2 other stop.1] at run
    cases run

/-- One turn before the cut is the same in both buffers, unless the dot of the next byte stands at the cut. -/
theorem blobTurn_within (cut : s.Cut t j) (start : Nat) {turn : Turn Unit String} (h : i ≤ j)
    (run : blobTurn start () s i = .ok turn k) :
    (k ≤ j ∧ blobTurn start () t i = .ok turn k) ∨
      i = j ∧ j < k ∧ turn = .again () ∧ blobTurn start () t i = .ok (.done (t.text start j)) j := by
  rcases Nat.lt_or_eq_of_le h with less | rfl
  · rcases Nat.lt_or_eq_of_le (Nat.succ_le_of_lt less) with two | last
    · obtain ⟨a, left, right⟩ := cut.exists_char less
      obtain ⟨b, left', right'⟩ := cut.exists_char two
      rw [left'] at left
      rw [right'] at right
      exact .inl (cut.blobTurn_of_two start two left right run)
    · exact .inl (cut.blobTurn_of_one start last run)
  · obtain ⟨more, newline⟩ := cut.newline
    have ends : EndsBlob (t.ahead i) := newline ▸ endsBlob_newline
    by_cases dot : ∃ b cs, s.ahead i = '.' :: b :: cs ∧ CharClass.hex.has b = true
    · obtain ⟨b, cs, front, second⟩ := dot
      rw [blobTurn_dot start front second] at run
      obtain ⟨rfl, rfl⟩ := Reply.ok.inj run
      exact .inr ⟨rfl, Nat.lt_succ_self i, rfl, blobTurn_stop start rfl ends.1 ends.2⟩
    · refine .inl (cut.blobTurn_done start h ⟨.inr ?_, fun c rest front => ?_⟩ ends run)
      · cases front : s.ahead i with
        | nil => rfl
        | cons c cs => exact cut.hex_at_cut front
      · exact Bool.eq_false_iff.mpr fun digit => dot ⟨c, rest, front, digit⟩

theorem repeatUpTo_blobTurn_within (cut : s.Cut t j) (start : Nat) {v : String} (n : Nat) : ∀ i, i ≤ j →
    repeatUpTo (blobTurn start) n () s i = .ok v k →
    ∃ v' k', repeatUpTo (blobTurn start) n () t i = .ok v' k' ∧ k' ≤ j ∧ (v' = v ∧ k' = k ∨ j < k ∧ k' = j) := by
  induction n with
  | zero => rintro i - ⟨⟩
  | succ n ih =>
    intro i h run
    simp only [Scan.repeatUpTo] at run
    split at run
    · rename_i turn
      rcases cut.blobTurn_within start h turn with ⟨within, right⟩ | ⟨rfl, past, -, right⟩
      · obtain ⟨v', k', run', found⟩ := ih _ within run
        exact ⟨v', k', by simp only [Scan.repeatUpTo, right, run'], found⟩
      · have later := Overlap.repeatUpTo_onward (fun _ => blobTurn_onward start s) run
        exact ⟨t.text start i, i, by simp only [Scan.repeatUpTo, right], h, .inr ⟨by omega, rfl⟩⟩
    · rename_i turn
      obtain ⟨rfl, rfl⟩ := Reply.ok.inj run
      rcases cut.blobTurn_within start h turn with ⟨within, right⟩ | ⟨-, -, never, -⟩
      · exact ⟨_, _, by simp only [Scan.repeatUpTo, right], within, .inl ⟨rfl, rfl⟩⟩
      · cases never
    · cases run
    · cases run

theorem takeBlobDigits_within (cut : s.Cut t j) {v : String} (h : i ≤ j) (run : takeBlobDigits s i = .ok v k) :
    ∃ v' k', takeBlobDigits t i = .ok v' k' ∧ k' ≤ j ∧ (v' = v ∧ k' = k ∨ j < k ∧ k' = j) := by
  rw [takeBlobDigits_eq, bind_of_ok (tell_apply s i)] at run
  obtain ⟨v', k', run', found⟩ := cut.repeatUpTo_blobTurn_within i _ i h run
  have size := cut.size
  refine ⟨v', k', ?_, found⟩
  rw [takeBlobDigits_eq, bind_of_ok (tell_apply t i)]
  exact repeatUpTo_more (by omega) run'

/-! ### Numbers -/

/-- Where a test for characters of names is met, the character stands before the cut. -/
theorem lt_of_test (cut : s.Cut t j) {f : Option Char → Bool} (names : ∀ c, f c = true → CharClass.name.hasOpt c = true)
    (h : i ≤ j) (met : f (s.char? i) = true) : i < j := by
  refine Nat.lt_of_le_of_ne h fun same => ?_
  have stop := cut.stop
  rw [← Source.char?_eq, ← same, names _ met] at stop
  cases stop

/-- A token can be read in the second buffer. -/
def Readable (_ : s.Cut t j) (k : Nat) : Prop :=
  ∃ token l, Token.next t k = .ok token l

theorem readable_cut (cut : s.Cut t j) : cut.Readable j := by
  obtain ⟨more, newline⟩ := cut.newline
  exact ⟨_, _, next_of_newline newline⟩

theorem peek_char (s : Source) (i : Nat) : Scan.peek s i = .ok (s.char? i) i := rfl

theorem peekAt_char (n : Nat) (s : Source) (i : Nat) : Scan.peekAt n s i = .ok (s.char? (i + n)) i := rfl

theorem name_of_hasOpt {class_ : CharClass} (names : ∀ c, class_.has c = true → CharClass.name.has c = true) (c : Option Char)
    (h : class_.hasOpt c = true) : CharClass.name.hasOpt c = true := by
  cases c with
  | none => simp at h
  | some c => exact names c h

theorem take_onward (n : Nat) (s : Source) (i : Nat) : (Scan.take n).Gives s i fun _ k => i ≤ k := by
  intro v k run
  rw [take_eq] at run
  have cursor := (Reply.ok.inj run).2
  omega

theorem takeClass_onward (class_ : CharClass) (s : Source) (i : Nat) : (Scan.takeClass class_).Gives s i fun _ k => i ≤ k := by
  intro v k run
  rw [Scan.takeClass, takeWhile_eq] at run
  have cursor := (Reply.ok.inj run).2
  omega

/-- Where the first buffer has an exponent and the second one has not, its sign stands at the cut. -/
theorem exponent_within (cut : s.Cut t j) (h : i ≤ j) :
    (isExponent (s.char? i) (s.char? (i + 1)) (s.char? (i + 2)) = isExponent (t.char? i) (t.char? (i + 1)) (t.char? (i + 2)) ∧
        (isExponent (t.char? i) (t.char? (i + 1)) (t.char? (i + 2)) = true → i + 2 ≤ j)) ∨
      i + 1 = j ∧ isExponent (t.char? i) (t.char? (i + 1)) (t.char? (i + 2)) = false ∧
        ∃ e c cs, s.ahead i = e :: c :: cs ∧ t.ahead i = e :: t.ahead j ∧ (e = 'e' ∨ e = 'E') ∧ (c = '-' ∨ c = '+') := by
  have isMark (c : Option Char) (met : (c == some 'e' || c == some 'E') = true) : CharClass.name.hasOpt c = true := by
    simp only [Bool.or_eq_true, beq_iff_eq] at met
    rcases met with rfl | rfl <;> rfl
  have marks := cut.test_eq isMark 0 h
  simp only [Nat.add_zero] at marks
  by_cases mark : (s.char? i == some 'e' || s.char? i == some 'E') = true
  · have less := cut.lt_of_test isMark h mark
    rcases Nat.lt_or_eq_of_le (Nat.succ_le_of_lt less) with more | rfl
    · obtain ⟨c, left, right⟩ := cut.exists_char more
      have second := cut.test_eq (name_of_hasOpt name_of_digit) 2 more
      refine .inl ⟨?_, fun _ => more⟩
      simp only [isExponent, marks, second, Source.char?_of_cons left, Source.char?_of_cons right]
    · obtain ⟨more, newline⟩ := cut.newline
      have none : isExponent (t.char? i) (t.char? (i + 1)) (t.char? (i + 2)) = false := by
        simp only [isExponent, Source.char?_of_cons newline]
        simp [CharClass.has]
      by_cases signed : isExponent (s.char? i) (s.char? (i + 1)) (s.char? (i + 2)) = true
      · obtain ⟨e, left, right⟩ := cut.exists_char less
        have noDigit : CharClass.digit.hasOpt (s.char? (i + 1)) = false := by
          refine Bool.eq_false_iff.mpr fun digit => ?_
          have stop := cut.stop
          rw [← Source.char?_eq, name_of_hasOpt name_of_digit _ digit] at stop
          cases stop
        simp only [isExponent, noDigit, Bool.false_or, Bool.and_eq_true, Bool.or_eq_true, beq_iff_eq] at signed
        obtain ⟨isE, sign, -⟩ := signed
        rw [Source.char?_of_cons left, Option.some.injEq, Option.some.injEq] at isE
        obtain ⟨c, cs, front, isSign⟩ : ∃ c cs, s.ahead (i + 1) = c :: cs ∧ (c = '-' ∨ c = '+') := by
          rw [Source.char?_eq] at sign
          rcases sign with sign | sign
          · obtain ⟨cs, front⟩ := List.head?_eq_some_iff.mp sign
            exact ⟨_, cs, front, .inl rfl⟩
          · obtain ⟨cs, front⟩ := List.head?_eq_some_iff.mp sign
            exact ⟨_, cs, front, .inr rfl⟩
        exact .inr ⟨rfl, none, e, c, cs, by rw [left, front], right, isE, isSign⟩
      · rw [Bool.not_eq_true] at signed
        exact .inl ⟨by rw [signed, none], by simp [none]⟩
  · rw [Bool.not_eq_true] at mark
    rw [mark] at marks
    have none : isExponent (t.char? i) (t.char? (i + 1)) (t.char? (i + 2)) = false := by
      simp only [isExponent, ← marks, Bool.false_and]
    exact .inl ⟨by rw [none]; simp only [isExponent, mark, Bool.false_and], by simp [none]⟩

/-- What comes behind the fraction of a number. -/
def exponentEnd (text : String) : Scan String := do
  let mark ← Scan.peek
  let first ← Scan.peekAt 1
  let second ← Scan.peekAt 2
  if isExponent mark first second then
    let head ← Scan.take 2
    let digits ← Scan.takeClass .digit
    return text ++ head ++ digits
  else
    return text

theorem decimal_eq : decimal = (do
    let whole ← Scan.takeClass .digit
    if (← Scan.peek) == some '.' && CharClass.digit.hasOpt (← Scan.peekAt 1) then
      let point ← Scan.take 1
      let fraction ← Scan.takeClass .digit
      exponentEnd (whole ++ point ++ fraction)
    else
      return whole) := rfl

theorem exponentEnd_onward (text : String) (s : Source) (i : Nat) : (exponentEnd text).Gives s i fun _ k => i ≤ k := by
  refine .after (peek_char s i) (.after (peekAt_char 1 s i) (.after (peekAt_char 2 s i) (.ite (fun _ => ?_) fun _ => ?_)))
  · refine (take_onward 2 s i).bind fun _ q later => (takeClass_onward .digit s q).bind fun _ k later' => .pure ?_
    omega
  · exact .pure (Nat.le_refl i)

/-- An exponent whose sign stands at the cut is left out. Its mark is a name then. -/
theorem exponentEnd_within (cut : s.Cut t j) {text v : String} (h : i ≤ j) (run : exponentEnd text s i = .ok v k) :
    (k ≤ j ∧ exponentEnd text t i = .ok v k) ∨ j < k ∧ exponentEnd text t i = .ok text i ∧ cut.Readable i := by
  simp only [exponentEnd, bind_of_ok (peek_char s i), bind_of_ok (peekAt_char 1 s i), bind_of_ok (peekAt_char 2 s i)] at run
  simp only [exponentEnd, bind_of_ok (peek_char t i), bind_of_ok (peekAt_char 1 t i), bind_of_ok (peekAt_char 2 t i)]
  rcases cut.exponent_within h with ⟨same, two⟩ | ⟨last, none, e, c, cs, ahead, ahead', mark, sign⟩
  · rw [same] at run
    split at run
    · rename_i goes
      obtain ⟨head, q, -, bound, left, right⟩ := cut.take_within 2 (two goes)
      obtain ⟨digits, q', -, bound', left', right'⟩ := cut.takeClass_within .digit name_of_digit bound
      rw [bind_of_ok left, bind_of_ok left'] at run
      obtain ⟨rfl, rfl⟩ := Reply.ok.inj run
      exact .inl ⟨bound', by rw [if_pos goes, bind_of_ok right, bind_of_ok right']; rfl⟩
    · rename_i stops
      obtain ⟨rfl, rfl⟩ := Reply.ok.inj run
      exact .inl ⟨h, by rw [if_neg stops]; rfl⟩
  · rw [none, if_neg (by simp)]
    split at run
    · have two : s.ahead i = [e, c] ++ cs := ahead
      have lines : '\n' ∉ [e, c] := by
        rcases mark with rfl | rfl <;> rcases sign with rfl | rfl <;> decide
      have taken : Scan.take 2 s i = .ok (String.ofList [e, c]) (i + 2) := take_of_ahead [e, c] two lines
      rw [bind_of_ok taken] at run
      obtain ⟨digits, q, left, run⟩ := bind_ok.mp run
      have later : i + 2 ≤ q := (takeClass_onward .digit s _).of_ok left
      obtain ⟨-, rfl⟩ := Reply.ok.inj run
      obtain ⟨more, newline⟩ := cut.newline
      have word : t.ahead i = [e] ++ '\n' :: more := ahead'.trans (by rw [newline]; rfl)
      have name : IsName [e] := by
        rcases mark with rfl | rfl <;> exact ⟨rfl, List.all_eq_true.mp rfl, by decide, by decide⟩
      exact .inr ⟨by omega, rfl, _, _, next_of_name word name rfl⟩
    · obtain ⟨rfl, rfl⟩ := Reply.ok.inj run
      exact .inl ⟨h, rfl⟩

theorem decimal_within (cut : s.Cut t j) {v : String} (h : i ≤ j) (run : decimal s i = .ok v k) :
    (k ≤ j ∧ decimal t i = .ok v k) ∨ j < k ∧ ∃ v' k', decimal t i = .ok v' k' ∧ k' ≤ j ∧ cut.Readable k' := by
  obtain ⟨whole, q, -, bound, left, right⟩ := cut.takeClass_within .digit name_of_digit h
  simp only [decimal_eq, bind_of_ok left, bind_of_ok right, bind_of_ok (peek_char s q), bind_of_ok (peek_char t q),
    bind_of_ok (peekAt_char 1 s q), bind_of_ok (peekAt_char 1 t q)] at run ⊢
  rcases Nat.lt_or_eq_of_le bound with less | last
  · obtain ⟨c, front, front'⟩ := cut.exists_char less
    rw [Source.char?_of_cons front, cut.test_eq (name_of_hasOpt name_of_digit) 1 less] at run
    rw [Source.char?_of_cons front']
    split at run
    · rename_i goes
      rw [if_pos goes]
      obtain ⟨point, q', -, bound', left, right⟩ := cut.take_within 1 less
      obtain ⟨fraction, r, -, within, left', right'⟩ := cut.takeClass_within .digit name_of_digit bound'
      rw [bind_of_ok left, bind_of_ok left'] at run
      rw [bind_of_ok right, bind_of_ok right']
      exact (cut.exponentEnd_within within run).imp_right fun found => ⟨found.1, _, r, found.2.1, within, found.2.2⟩
    · rename_i stops
      rw [if_neg stops]
      obtain ⟨rfl, rfl⟩ := Reply.ok.inj run
      exact .inl ⟨bound, rfl⟩
  · -- The dot of a fraction stands at the cut.
    subst last
    obtain ⟨more, newline⟩ := cut.newline
    rw [Source.char?_of_cons newline, if_neg (by simp)]
    split at run
    · rename_i goes
      simp only [Bool.and_eq_true, beq_iff_eq] at goes
      obtain ⟨cs, front⟩ := List.head?_eq_some_iff.mp ((Source.char?_eq s q).symm.trans goes.1)
      have point : s.ahead q = ['.'] ++ cs := front
      have taken : Scan.take 1 s q = .ok (String.ofList ['.']) (q + 1) := take_of_ahead ['.'] point (by decide)
      rw [bind_of_ok taken] at run
      obtain ⟨fraction, r, left, run⟩ := bind_ok.mp run
      have later : q + 1 ≤ r := (takeClass_onward .digit s _).of_ok left
      have later' := (exponentEnd_onward _ s r).of_ok run
      exact .inr ⟨by omega, _, q, rfl, bound, cut.readable_cut⟩
    · obtain ⟨rfl, rfl⟩ := Reply.ok.inj run
      exact .inl ⟨bound, rfl⟩

/-! ### Attempts at a token -/

/-- Kinds of what is read before the cut in place of a token that goes on behind it. -/
def isRemnant : TokenKind → Bool
  | .eol | .bar | .option | .assign | .not | .compare _ _ | .dot | .dotDot | .minus | .sharp | .number | .blob
  | .register => true
  | _ => false

/-- What the second buffer has in place of a token that goes on behind the cut. There is one token before the cut that is
not read alike from the second buffer: the zero of a blob mark that has a dot behind it, where the dot stands at the
cut. No operand ends after the zero. -/
structure Leaves (cut : s.Cut t j) (kind : TokenKind) (k : Nat) (kind' : TokenKind) (k' : Nat) : Prop where
  remnant : isRemnant kind' = true
  readable : cut.Readable k'
  gone : j < k ∨ kind = .number ∧ kind' = .blob ∧ k < j ∧ cut.Shut k

/-- An attempt at a token comes out alike, or it finds one of which something is left. -/
def Tries (cut : s.Cut t j) (i : Nat) (x : Scan (Option (TokenKind × String))) : Prop :=
  ∀ found k, x s i = .ok found k → (k ≤ j ∧ x t i = .ok found k ∧ (found = none → k = i)) ∨
    ∃ a b k', found = some a ∧ x t i = .ok (some b) k' ∧ cut.Leaves a.1 k b.1 k'

theorem tries_headed (cut : s.Cut t j) (kind : TokenKind) {n : Nat} (class_ : CharClass)
    (names : ∀ c, class_.has c = true → CharClass.name.has c = true) (h : i + n ≤ j) :
    cut.Tries i (do
      let head ← Scan.take n
      let rest ← Scan.takeClass class_
      return some (kind, head ++ rest)) := by
  intro found k run
  obtain ⟨head, q, later, bound, left, right⟩ := cut.take_within n h
  obtain ⟨rest, q', later', bound', left', right'⟩ := cut.takeClass_within class_ names bound
  rw [bind_of_ok left, bind_of_ok left'] at run
  obtain ⟨rfl, rfl⟩ := Reply.ok.inj run
  exact .inl ⟨bound', by rw [bind_of_ok right, bind_of_ok right']; rfl, by simp⟩

/-- A test of the second character after a test of the first one. -/
theorem marked_eq (cut : s.Cut t j) {f g : Option Char → Bool} (names : ∀ c, f c = true → CharClass.name.hasOpt c = true)
    (names' : ∀ c, g c = true → CharClass.name.hasOpt c = true) (h : i < j) :
    (f (s.char? (i + 1)) && g (s.char? (i + 2))) = (f (t.char? (i + 1)) && g (t.char? (i + 2))) ∧
      (f (s.char? (i + 1)) = true → i + 2 ≤ j) := by
  have first := cut.test_eq names 1 h
  by_cases mark : f (s.char? (i + 1)) = true
  · have less := cut.lt_of_test names h mark
    exact ⟨by rw [← first, cut.test_eq names' 2 less], fun _ => less⟩
  · rw [Bool.not_eq_true] at mark
    rw [mark] at first
    exact ⟨by rw [mark, ← first]; rfl, fun met => absurd met (by simp [mark])⟩

theorem name_of_either {a b : Char} (names : CharClass.name.has a = true ∧ CharClass.name.has b = true) (c : Option Char)
    (h : (c == some a || c == some b) = true) : CharClass.name.hasOpt c = true := by
  simp only [Bool.or_eq_true, beq_iff_eq] at h
  rcases h with rfl | rfl
  · exact names.1
  · exact names.2

/-- A blob, or a decimal number, if the digit at the cursor starts one. -/
def blobOrDecimal (c : Char) : Scan (Option (TokenKind × String)) := do
  let first ← Scan.peekAt 1
  let second ← Scan.peekAt 2
  if c == '0' && ((first == some 'z' || first == some 'Z') && second != some '.') then
    let head ← Scan.take 2
    let digits ← Scan.takeBlobDigits
    return some (.blob, head ++ digits)
  else if CharClass.digit.has c then
    let digits ← decimal
    return some (.number, digits)
  else
    return none

theorem number_eq (c : Char) (s : Source) (i : Nat) : number c s i =
    if (c == '0' && ((s.char? (i + 1) == some 'x' || s.char? (i + 1) == some 'X') &&
        CharClass.hex.hasOpt (s.char? (i + 2)))) = true then
      (do
        let head ← Scan.take 3
        let digits ← Scan.takeClass .hex
        return some (TokenKind.number, head ++ digits)) s i
    else if (c == '0' && ((s.char? (i + 1) == some 'b' || s.char? (i + 1) == some 'B') &&
        CharClass.binary.hasOpt (s.char? (i + 2)))) = true then
      (do
        let head ← Scan.take 3
        let digits ← Scan.takeClass .binary
        return some (TokenKind.number, head ++ digits)) s i
    else blobOrDecimal c s i := by
  simp only [number, blobOrDecimal, bind_of_ok (peekAt_char 1 s i), bind_of_ok (peekAt_char 2 s i), Bool.and_assoc]
  repeat' split
  all_goals rfl

theorem tries_blob (cut : s.Cut t j) (h : i + 2 ≤ j) :
    cut.Tries i (do
      let head ← Scan.take 2
      let digits ← Scan.takeBlobDigits
      return some (TokenKind.blob, head ++ digits)) := by
  intro found k run
  obtain ⟨head, q, later, bound, left, right⟩ := cut.take_within 2 h
  rw [bind_of_ok left] at run
  obtain ⟨digits, q', left', run⟩ := bind_ok.mp run
  obtain ⟨rfl, rfl⟩ := Reply.ok.inj run
  obtain ⟨digits', k', right', bound', ⟨rfl, rfl⟩ | ⟨past, rfl⟩⟩ := cut.takeBlobDigits_within bound left'
  · exact .inl ⟨bound', by rw [bind_of_ok right, bind_of_ok right']; rfl, by simp⟩
  · exact .inr ⟨_, (.blob, head ++ digits'), _, rfl, by rw [bind_of_ok right, bind_of_ok right']; rfl, rfl, cut.readable_cut,
      .inl past⟩

theorem tries_decimal (cut : s.Cut t j) (h : i ≤ j) :
    cut.Tries i (do
      let digits ← decimal
      return some (TokenKind.number, digits)) := by
  intro found k run
  obtain ⟨digits, q, left, run⟩ := bind_ok.mp run
  obtain ⟨rfl, rfl⟩ := Reply.ok.inj run
  rcases cut.decimal_within h left with ⟨bound, right⟩ | ⟨past, digits', k', right, -, readable⟩
  · exact .inl ⟨bound, by rw [bind_of_ok right]; rfl, by simp⟩
  · exact .inr ⟨_, (.number, digits'), k', rfl, by rw [bind_of_ok right]; rfl, rfl, readable, .inl past⟩

/-- The zero of a blob mark before a dot is a number in the first buffer, and the mark is a blob in the second one. -/
theorem tries_zero (cut : s.Cut t j) {z : Char} {cs : List Char} (mark : z = 'z' ∨ z = 'Z') (h : i + 2 = j)
    (left : s.ahead i = '0' :: z :: '.' :: cs) (right : t.ahead i = '0' :: z :: t.ahead j)
    {found : Option (TokenKind × String)} (run : (do
      let digits ← decimal
      return some (TokenKind.number, digits) : Scan _) s i = .ok found k) :
    ∃ a b k', found = some a ∧ (do
      let head ← Scan.take 2
      let digits ← Scan.takeBlobDigits
      return some (TokenKind.blob, head ++ digits) : Scan _) t i = .ok (some b) k' ∧ cut.Leaves a.1 k b.1 k' := by
  obtain ⟨more, newline⟩ := cut.newline
  have behind : s.ahead (i + 1) = z :: '.' :: cs := Source.ahead_of_cons left
  have noDigit : CharClass.digit.has z = false ∧ z ≠ '.' := by
    rcases mark with rfl | rfl <;> exact ⟨rfl, by decide⟩
  have zero : s.ahead i = ['0'] ++ z :: '.' :: cs := left
  have digits : Scan.takeClass .digit s i = .ok "0" (i + 1) :=
    takeClass_of_ahead .digit zero (List.all_eq_true.mp rfl) noDigit.1
  have whole : decimal s i = .ok "0" (i + 1) := by
    simp only [decimal, bind_of_ok digits, bind_of_ok (peek_char s _), bind_of_ok (peekAt_char 1 s _),
      Source.char?_of_cons behind]
    simp [noDigit, pure_apply]
  rw [bind_of_ok whole] at run
  obtain ⟨rfl, rfl⟩ := Reply.ok.inj run
  have lines : '\n' ∉ ['0', z] := by
    rcases mark with rfl | rfl <;> decide
  have two : t.ahead i = ['0', z] ++ t.ahead j := right
  have taken : Scan.take 2 t i = .ok (String.ofList ['0', z]) (i + 2) := take_of_ahead ['0', z] two lines
  have none : takeBlobDigits t (i + 2) = .ok (t.text (i + 2) (i + 2)) (i + 2) := by
    rw [takeBlobDigits_eq, bind_of_ok (tell_apply t _)]
    refine loop_of_done (blobTurn_stop _ (by rw [h, newline]) (.inr rfl) ?_)
    rintro c rest ⟨⟩
  have word : s.ahead (i + 1) = [z] ++ '.' :: cs := behind
  have name : IsName [z] := by
    rcases mark with rfl | rfl <;> exact ⟨rfl, List.all_eq_true.mp rfl, by decide, by decide⟩
  have shut : cut.Shut (i + 1) := by
    intro token l run
    rw [next_of_name word name rfl] at run
    obtain ⟨rfl, -⟩ := Reply.ok.inj run
    exact .inr (.inl rfl)
  have readable : cut.Readable (i + 2) := h ▸ cut.readable_cut
  refine ⟨_, (.blob, String.ofList ['0', z] ++ t.text (i + 2) (i + 2)), i + 2, rfl, ?_, rfl, readable,
    .inr ⟨rfl, rfl, by omega, shut⟩⟩
  rw [bind_of_ok taken, bind_of_ok none]
  rfl

/-- The character behind the mark of a blob stands before the cut in both buffers, or there is a line end in its place. -/
theorem char_behind_mark (cut : s.Cut t j) (h : i < j)
    (mark : (s.char? (i + 1) == some 'z' || s.char? (i + 1) == some 'Z') = true) :
    i + 2 < j ∧ s.char? (i + 2) = t.char? (i + 2) ∨ i + 2 = j ∧ t.char? (i + 2) = some '\n' := by
  have less := cut.lt_of_test (f := fun d => d == some 'z' || d == some 'Z') (name_of_either (by decide)) h mark
  rcases Nat.lt_or_eq_of_le (Nat.succ_le_of_lt less) with more | last
  · obtain ⟨d, left, right⟩ := cut.exists_char more
    exact .inl ⟨more, by rw [Source.char?_of_cons left, Source.char?_of_cons right]⟩
  · obtain ⟨more, newline⟩ := cut.newline
    rw [← last] at newline
    exact .inr ⟨last, Source.char?_of_cons newline⟩

theorem blobOrDecimal_within (cut : s.Cut t j) (h : i < j) (front : s.ahead i = c :: s.ahead (i + 1))
    (front' : t.ahead i = c :: t.ahead (i + 1)) : cut.Tries i (blobOrDecimal c) := by
  intro found k run
  have isBlob := cut.test_eq (f := fun d => d == some 'z' || d == some 'Z') (name_of_either (by decide)) 1 h
  simp only [blobOrDecimal, bind_of_ok (peekAt_char 1 s i), bind_of_ok (peekAt_char 2 s i)] at run
  simp only [blobOrDecimal, bind_of_ok (peekAt_char 1 t i), bind_of_ok (peekAt_char 2 t i), ← isBlob]
  split at run
  · rename_i blob
    simp only [Bool.and_eq_true] at blob
    obtain ⟨zero, mark, noDot⟩ := blob
    have behind := cut.char_behind_mark h mark
    have noDot' : (t.char? (i + 2) != some '.') = true := by
      rcases behind with ⟨-, same⟩ | ⟨-, line⟩
      · rw [← same, noDot]
      · rw [line]
        rfl
    have bound : i + 2 ≤ j := by
      rcases behind with ⟨less, -⟩ | ⟨last, -⟩ <;> omega
    rw [if_pos (by rw [zero, mark, noDot']; rfl)]
    exact cut.tries_blob bound found k run
  rename_i noBlob
  by_cases blob' : (c == '0' && ((s.char? (i + 1) == some 'z' || s.char? (i + 1) == some 'Z') &&
      t.char? (i + 2) != some '.')) = true
  · -- The dot that makes a number of the zero stands at the cut.
    rw [if_pos blob']
    simp only [Bool.and_eq_true, Bool.or_eq_true, beq_iff_eq, bne_iff_ne] at blob' noBlob
    obtain ⟨rfl, mark, noDot⟩ := blob'
    have dot : s.char? (i + 2) = some '.' := by
      by_contra noDot
      exact noBlob ⟨rfl, mark, noDot⟩
    have last : i + 2 = j := by
      rcases cut.char_behind_mark h (by simpa using mark) with ⟨-, same⟩ | ⟨last, -⟩
      · exact absurd (same ▸ dot) noDot
      · exact last
    obtain ⟨z, left, right⟩ := cut.exists_char (i := i + 1) (by omega)
    rw [Source.char?_of_cons left, Option.some.injEq, Option.some.injEq] at mark
    rw [Source.char?_eq] at dot
    obtain ⟨cs, point⟩ := List.head?_eq_some_iff.mp dot
    rw [if_pos (by decide)] at run
    have ahead : s.ahead i = '0' :: z :: '.' :: cs := by rw [front, left, ← point]
    have ahead' : t.ahead i = '0' :: z :: t.ahead j := by rw [front', right, ← last]
    exact .inr (cut.tries_zero mark last ahead ahead' run)
  · rw [if_neg blob']
    split at run
    · rename_i digit
      rw [if_pos digit]
      exact cut.tries_decimal (Nat.le_of_lt h) found k run
    · rename_i digit
      rw [if_neg digit]
      obtain ⟨rfl, rfl⟩ := Reply.ok.inj run
      exact .inl ⟨Nat.le_of_lt h, rfl, fun _ => rfl⟩

theorem number_within (cut : s.Cut t j) (h : i < j) (front : s.ahead i = c :: s.ahead (i + 1))
    (front' : t.ahead i = c :: t.ahead (i + 1)) : cut.Tries i (number c) := by
  intro found k run
  have hexes := name_of_hasOpt name_of_hex
  have binaries := name_of_hasOpt name_of_binary
  have isHex := cut.marked_eq (f := fun d => d == some 'x' || d == some 'X') (name_of_either (by decide)) hexes h
  have isBinary := cut.marked_eq (f := fun d => d == some 'b' || d == some 'B') (name_of_either (by decide)) binaries h
  rw [number_eq] at run
  rw [number_eq, ← isHex.1, ← isBinary.1]
  split at run
  · rename_i hex
    rw [if_pos hex]
    simp only [Bool.and_eq_true] at hex
    have less := cut.lt_of_test hexes (isHex.2 hex.2.1) hex.2.2
    exact cut.tries_headed .number .hex name_of_hex less found k run
  rename_i hex
  rw [if_neg hex]
  split at run
  · rename_i binary
    rw [if_pos binary]
    simp only [Bool.and_eq_true] at binary
    have less := cut.lt_of_test binaries (isBinary.2 binary.2.1) binary.2.2
    exact cut.tries_headed .number .binary name_of_binary less found k run
  · rename_i binary
    rw [if_neg binary]
    exact cut.blobOrDecimal_within h front front' found k run

end VimScript.Source.Cut
