import Mathlib.Data.List.Induction
import VimScript.Proofs.Token.Text

/-!
Blob literals. Behind their mark digits are taken in pairs, with a dot between two pairs where there is one. A digit
without a partner is refused if another character follows it on its line. Where the line ends after the digit the blob
ends before it, and the digit is left over.
-/

set_option autoImplicit false

namespace VimScript.Token

open Scan

/-- Pairs of digits, with single dots between them. -/
inductive WholeBytes : List Char → Prop where
  | byte {a b : Char} (first : CharClass.hex.has a = true) (second : CharClass.hex.has b = true) : WholeBytes [a, b]
  | next {a b : Char} {ds : List Char} (first : CharClass.hex.has a = true) (second : CharClass.hex.has b = true)
      (more : WholeBytes ds) : WholeBytes (a :: b :: ds)
  | dotted {a b : Char} {ds : List Char} (first : CharClass.hex.has a = true) (second : CharClass.hex.has b = true)
      (more : WholeBytes ds) : WholeBytes (a :: b :: '.' :: ds)

/-- Why a blob ends. -/
inductive BlobEnd where
  | whole
  /-- The line ends after a digit without a partner. -/
  | cut
  /-- A digit is followed by a character that is none. -/
  | odd (a b : Char)

/-- The digits taken from a text, and why they end there. -/
inductive BlobDigits : List Char → List Char → BlobEnd → Prop where
  | last {a b : Char} {rest : List Char} (first : CharClass.hex.has a = true) (second : CharClass.hex.has b = true)
      (stop : CharClass.hex.hasOpt rest.head? = false)
      (noDot : ∀ c cs, rest = '.' :: c :: cs → CharClass.hex.has c = false) : BlobDigits (a :: b :: rest) [a, b] .whole
  | next {a b : Char} {cs ds : List Char} {stop : BlobEnd} (first : CharClass.hex.has a = true)
      (second : CharClass.hex.has b = true) (more : BlobDigits cs ds stop) : BlobDigits (a :: b :: cs) (a :: b :: ds) stop
  | dotted {a b : Char} {cs ds : List Char} {stop : BlobEnd} (first : CharClass.hex.has a = true)
      (second : CharClass.hex.has b = true) (more : BlobDigits cs ds stop) :
      BlobDigits (a :: b :: '.' :: cs) (a :: b :: '.' :: ds) stop
  | cut {a : Char} {rest : List Char} (digit : CharClass.hex.has a = true) (ends : ∀ c ∈ rest.head?, c = '\n') :
      BlobDigits (a :: rest) [] .cut
  | odd {a b : Char} {rest : List Char} (digit : CharClass.hex.has a = true) (other : CharClass.hex.has b = false)
      (line : b ≠ '\n') : BlobDigits (a :: b :: rest) [] (.odd a b)

/-- A run of digits of odd length, at the start of the text or after whole bytes and a dot. -/
structure OddRun (text before run rest : List Char) : Prop where
  split : text = before ++ run ++ rest
  before : before = [] ∨ ∃ bytes, WholeBytes bytes ∧ before = bytes ++ ['.']
  digits : ∀ d ∈ run, CharClass.hex.has d = true
  odd : run.length % 2 = 1
  stop : CharClass.hex.hasOpt rest.head? = false

variable {s : Source} {i k : Nat} {a b c d : Char} {text cs ds rest before run : List Char} {stop : BlobEnd}

/-! ### The digits of a text -/

theorem BlobDigits.head (h : BlobDigits text ds stop) : ∃ d cs, text = d :: cs ∧ CharClass.hex.has d = true := by
  cases h with
  | last first | next first | dotted first => exact ⟨_, _, rfl, first⟩
  | cut digit | odd digit => exact ⟨_, _, rfl, digit⟩

/-- From every digit on, some digits are taken. -/
theorem exists_blobDigits (digit : CharClass.hex.has d = true) (cs : List Char) :
    ∃ ds stop, BlobDigits (d :: cs) ds stop := by
  induction left : cs.length using Nat.strong_induction_on generalizing d cs with
  | _ n ih =>
    subst left
    rcases cs with _ | ⟨b, rest⟩
    · exact ⟨_, _, .cut digit (by simp)⟩
    by_cases second : CharClass.hex.has b = true
    · rcases rest with _ | ⟨c, more⟩
      · exact ⟨_, _, .last digit second rfl (by simp)⟩
      by_cases goes : CharClass.hex.has c = true
      · obtain ⟨ds, stop, taken⟩ := ih more.length (by simp only [List.length_cons]; omega) goes more rfl
        exact ⟨_, _, .next digit second taken⟩
      by_cases dot : ∃ e cs, c :: more = '.' :: e :: cs ∧ CharClass.hex.has e = true
      · obtain ⟨e, cs, same, after⟩ := dot
        obtain ⟨rfl, rfl⟩ := List.cons.inj same
        obtain ⟨ds, stop, taken⟩ := ih cs.length (by simp only [List.length_cons]; omega) after cs rfl
        exact ⟨_, _, .dotted digit second taken⟩
      · refine ⟨_, _, .last digit second (by simpa using goes) fun e cs same => ?_⟩
        exact Bool.eq_false_iff.mpr fun after => dot ⟨e, cs, same, after⟩
    · have other : CharClass.hex.has b = false := by simpa using second
      by_cases line : b = '\n'
      · exact ⟨_, _, .cut digit (by simp [line])⟩
      · exact ⟨_, _, .odd digit other line⟩

theorem BlobDigits.wholeBytes (h : BlobDigits text ds stop) (whole : stop = .whole) :
    WholeBytes ds ∧ ∃ rest, text = ds ++ rest ∧ CharClass.hex.hasOpt rest.head? = false := by
  induction h with
  | last first second stop => exact ⟨.byte first second, _, rfl, stop⟩
  | next first second _ ih =>
    obtain ⟨bytes, rest, rfl, stop⟩ := ih whole
    exact ⟨.next first second bytes, rest, rfl, stop⟩
  | dotted first second _ ih =>
    obtain ⟨bytes, rest, rfl, stop⟩ := ih whole
    exact ⟨.dotted first second bytes, rest, rfl, stop⟩
  | cut | odd => cases whole

theorem BlobDigits.prefix_text (h : BlobDigits text ds stop) : ∃ rest, text = ds ++ rest := by
  induction h with
  | last | cut | odd => exact ⟨_, rfl⟩
  | next _ _ _ ih | dotted _ _ _ ih =>
    obtain ⟨rest, rfl⟩ := ih
    exact ⟨rest, rfl⟩

/-- Digits before an odd run make a longer run, or stand before it. -/
theorem OddRun.extend (h : OddRun text before run rest) (first : CharClass.hex.has a = true)
    (second : CharClass.hex.has b = true) : ∃ before' run', OddRun (a :: b :: text) before' run' rest := by
  rcases h.before with rfl | ⟨bytes, whole, rfl⟩
  · have odd := h.odd
    refine ⟨[], a :: b :: run, by simp [h.split], .inl rfl, ?_, by simp only [List.length_cons]; omega, h.stop⟩
    simpa [first, second] using h.digits
  · exact ⟨a :: b :: (bytes ++ ['.']), run, by simp [h.split], .inr ⟨a :: b :: bytes, .next first second whole, rfl⟩,
      h.digits, h.odd, h.stop⟩

theorem OddRun.extend_dotted (h : OddRun text before run rest) (first : CharClass.hex.has a = true)
    (second : CharClass.hex.has b = true) : ∃ before' run', OddRun (a :: b :: '.' :: text) before' run' rest := by
  refine ⟨a :: b :: '.' :: before, run, by simp [h.split], .inr ?_, h.digits, h.odd, h.stop⟩
  rcases h.before with rfl | ⟨bytes, whole, rfl⟩
  · exact ⟨[a, b], .byte first second, rfl⟩
  · exact ⟨a :: b :: '.' :: bytes, .dotted first second whole, rfl⟩

/-- A blob is cut only where the line ends after an odd run. -/
theorem BlobDigits.oddRun (h : BlobDigits text ds stop) (cut : stop = .cut) :
    ∃ before run rest, OddRun text before run rest ∧ ∀ c ∈ rest.head?, c = '\n' := by
  induction h with
  | last | odd => cases cut
  | next first second _ ih =>
    obtain ⟨before, run, rest, odd, ends⟩ := ih cut
    obtain ⟨before', run', odd'⟩ := odd.extend first second
    exact ⟨before', run', rest, odd', ends⟩
  | dotted first second _ ih =>
    obtain ⟨before, run, rest, odd, ends⟩ := ih cut
    obtain ⟨before', run', odd'⟩ := odd.extend_dotted first second
    exact ⟨before', run', rest, odd', ends⟩
  | @cut a rest digit ends =>
    refine ⟨[], [a], rest, ⟨rfl, .inl rfl, by simp [digit], rfl, ?_⟩, ends⟩
    cases front : rest.head? with
    | none => rfl
    | some c =>
      obtain rfl := ends c front
      rfl

theorem blobDigits_of_run (more : BlobDigits cs ds stop) : ∀ run : List Char,
    (∀ x ∈ run, CharClass.hex.has x = true) → run.length % 2 = 0 → BlobDigits (run ++ cs) (run ++ ds) stop
  | [], _, _ => more
  | [_], _, even => by simp at even
  | a :: b :: run, digits, even => by
    have even' : run.length % 2 = 0 := by
      simp only [List.length_cons] at even
      omega
    exact .next (digits a (by simp)) (digits b (by simp))
      (blobDigits_of_run more run (fun x place => digits x (by simp [place])) even')

theorem blobDigits_of_wholeBytes (bytes : WholeBytes text) (more : BlobDigits cs ds stop) :
    BlobDigits (text ++ '.' :: cs) (text ++ '.' :: ds) stop := by
  induction bytes with
  | byte first second => exact .dotted first second more
  | next first second _ ih => exact .next first second ih
  | dotted first second _ ih => exact .dotted first second ih

/-- The last digit of an odd run is not taken. -/
theorem OddRun.blobDigits (h : OddRun text before run rest) :
    ∃ a, a ∈ run ∧
      ((∀ c ∈ rest.head?, c = '\n') → BlobDigits text (before ++ run.dropLast) .cut) ∧
      ∀ b ∈ rest.head?, b ≠ '\n' → BlobDigits text (before ++ run.dropLast) (.odd a b) := by
  obtain ⟨split, start, digits, odd, outside⟩ := h
  obtain ⟨pairs, a, rfl⟩ : ∃ pairs a, run = pairs ++ [a] := by
    cases run using List.reverseRecOn with
    | nil => simp at odd
    | append_singleton pairs a => exact ⟨pairs, a, rfl⟩
  have digit : CharClass.hex.has a = true := digits a (by simp)
  have even : pairs.length % 2 = 0 := by
    rw [List.length_append, List.length_singleton] at odd
    omega
  have onward {stop : BlobEnd} (last : BlobDigits (a :: rest) [] stop) : BlobDigits text (before ++ pairs) stop := by
    have paired := blobDigits_of_run last pairs (fun x place => digits x (by simp [place])) even
    rw [List.append_nil] at paired
    rcases start with rfl | ⟨bytes, whole, rfl⟩
    · simpa [split] using paired
    · simpa [split] using blobDigits_of_wholeBytes whole paired
  rw [List.dropLast_concat]
  refine ⟨a, by simp, fun ends => onward (.cut digit ends), fun b front line => onward ?_⟩
  obtain ⟨tail, rfl⟩ := List.head?_eq_some_iff.mp front
  exact .odd digit (by simpa using outside) line

/-! ### One turn -/

/-- What the next two characters make of the digits taken since a cursor. -/
def blobTurn (start : Nat) (_ : Unit) : Scan (Turn Unit String) := do
  let ahead ← peekRun 2
  match ahead.toList with
  | [a, b] =>
    if CharClass.hex.has a && CharClass.hex.has b then
      let _ ← take 2
      return .again ()
    else if a == '.' && CharClass.hex.has b then
      let _ ← take 1
      return .again ()
    else if CharClass.hex.has a then
      failHere (.oddBlob a b)
    else
      return .done (← textSince start)
  | _ => return .done (← textSince start)

theorem takeBlobDigits_eq :
    takeBlobDigits = (do
      let start ← tell
      loop () (blobTurn start)) := rfl

theorem blobTurn_pair (start : Nat) (h : s.ahead k = a :: b :: cs) (first : CharClass.hex.has a = true)
    (second : CharClass.hex.has b = true) : blobTurn start () s k = .ok (.again ()) (k + 2) := by
  have lines : a ≠ '\n' ∧ b ≠ '\n' := ⟨ne_newline_of_has first, ne_newline_of_has second⟩
  have two : s.ahead k = [a, b] ++ cs := h
  have taken := take_of_ahead [a, b] two (by simp [lines.1.symm, lines.2.symm])
  have ahead : (String.ofList (((a :: b :: cs).take 2).takeWhile (· != '\n'))).toList = [a, b] := by simp [lines]
  simp only [blobTurn, bind_of_ok (peekRun_of_ahead 2 h), ahead, first, second, Bool.and_self, if_true]
  exact bind_of_ok taken

theorem blobTurn_dot (start : Nat) (h : s.ahead k = '.' :: b :: cs) (second : CharClass.hex.has b = true) :
    blobTurn start () s k = .ok (.again ()) (k + 1) := by
  have line : b ≠ '\n' := ne_newline_of_has second
  have one : s.ahead k = ['.'] ++ b :: cs := h
  have taken := take_of_ahead ['.'] one (by decide)
  have ahead : (String.ofList ((('.' :: b :: cs).take 2).takeWhile (· != '\n'))).toList = ['.', b] := by simp [line]
  have noDigit : CharClass.hex.has '.' = false := by decide
  simp only [blobTurn, bind_of_ok (peekRun_of_ahead 2 h), ahead, second, noDigit, Bool.false_and, Bool.false_eq_true,
    if_false, beq_self_eq_true, Bool.and_self, if_true]
  exact bind_of_ok taken

theorem blobTurn_odd (start : Nat) (h : s.ahead k = a :: b :: cs) (digit : CharClass.hex.has a = true)
    (other : CharClass.hex.has b = false) (line : b ≠ '\n') :
    blobTurn start () s k = .fail ⟨.oddBlob a b, s.position k⟩ k := by
  have ahead : (String.ofList (((a :: b :: cs).take 2).takeWhile (· != '\n'))).toList = [a, b] := by
    simp [line, ne_newline_of_has digit]
  simp only [blobTurn, bind_of_ok (peekRun_of_ahead 2 h), ahead, digit, other, Bool.and_false, Bool.false_eq_true,
    if_false, if_true]
  rfl

/-- The digits end where the line does, or before a character that is neither a digit nor a dot before one. -/
theorem blobTurn_stop (start : Nat) (h : s.ahead k = cs)
    (stop : (∀ c ∈ cs.tail.head?, c = '\n') ∨ CharClass.hex.hasOpt cs.head? = false)
    (noDot : ∀ c rest, cs = '.' :: c :: rest → CharClass.hex.has c = false) :
    blobTurn start () s k = .ok (.done (s.text start k)) k := by
  simp only [blobTurn, bind_of_ok (peekRun_of_ahead 2 h), String.toList_ofList]
  rcases cs with _ | ⟨a, _ | ⟨b, rest⟩⟩
  · rfl
  · by_cases line : a = '\n' <;> simp [line] <;> rfl
  by_cases lines : a = '\n' ∨ b = '\n'
  · by_cases line : a = '\n'
    · simp [line]
      rfl
    · simp [line, lines.resolve_left line]
      rfl
  obtain ⟨line, line'⟩ := not_or.mp lines
  have two : ((a :: b :: rest).take 2).takeWhile (· != '\n') = [a, b] := by simp [line, line']
  have noDigit : CharClass.hex.has a = false := by
    rcases stop with ends | other
    · exact absurd (ends b rfl) line'
    · simpa using other
  have noPair : (a == '.' && CharClass.hex.has b) = false := by
    by_cases dot : a = '.'
    · simp [noDot b rest (by rw [dot])]
    · simp [dot]
  simp only [two, noDigit, noPair, Bool.false_and, Bool.false_eq_true, if_false]
  rfl

/-! ### All turns -/

/-- What the digits taken from a cursor on come to, given where the blob started. -/
def blobReply (s : Source) (start k : Nat) : BlobEnd → Reply String
  | .odd a b => .fail ⟨.oddBlob a b, s.position k⟩ k
  | _ => .ok (s.text start k) k

theorem repeatUpTo_of_blobDigits {start n : Nat} (digits : BlobDigits cs ds stop) (h : s.ahead k = cs)
    (enough : cs.length + 1 < n) :
    repeatUpTo (blobTurn start) n () s k = blobReply s start (k + ds.length) stop := by
  induction digits generalizing k n with
  | @last a b rest first second stop noDot =>
    obtain ⟨n, rfl⟩ : ∃ m, n = m + 2 := ⟨n - 2, by omega⟩
    have after : s.ahead (k + 2) = rest := Source.ahead_of_cons (Source.ahead_of_cons h)
    simp only [repeatUpTo, blobTurn_pair start h first second, blobTurn_stop start after (.inr stop) noDot]
    rfl
  | @next a b cs ds stop first second more ih =>
    simp only [List.length_cons] at enough
    obtain ⟨n, rfl⟩ : ∃ m, n = m + 1 := ⟨n - 1, by omega⟩
    have after : s.ahead (k + 2) = cs := Source.ahead_of_cons (Source.ahead_of_cons h)
    have length : k + (a :: b :: ds).length = k + 2 + ds.length := by simp; omega
    rw [length, ← ih after (n := n) (by omega)]
    simp only [repeatUpTo, blobTurn_pair start h first second]
  | @dotted a b cs ds stop first second more ih =>
    simp only [List.length_cons] at enough
    obtain ⟨n, rfl⟩ : ∃ m, n = m + 2 := ⟨n - 2, by omega⟩
    obtain ⟨d, cs, rfl, digit⟩ := more.head
    have dot : s.ahead (k + 2) = '.' :: d :: cs := Source.ahead_of_cons (Source.ahead_of_cons h)
    have after : s.ahead (k + 2 + 1) = d :: cs := Source.ahead_of_cons dot
    have length : k + (a :: b :: '.' :: ds).length = k + 2 + 1 + ds.length := by simp; omega
    rw [length, ← ih after (n := n) (by omega)]
    simp only [repeatUpTo, blobTurn_pair start h first second, blobTurn_dot start dot digit]
  | @cut a rest digit ends =>
    obtain ⟨n, rfl⟩ : ∃ m, n = m + 1 := ⟨n - 1, by omega⟩
    have noDot : ∀ c tail, a :: rest = '.' :: c :: tail → CharClass.hex.has c = false := by
      rintro c tail ⟨⟩
      exact absurd digit (by decide)
    simp only [repeatUpTo, blobTurn_stop start h (.inl ends) noDot]
    rfl
  | @odd a b rest digit other line =>
    obtain ⟨n, rfl⟩ : ∃ m, n = m + 1 := ⟨n - 1, by omega⟩
    simp only [repeatUpTo, blobTurn_odd start h digit other line]
    rfl

theorem takeBlobDigits_of_blobDigits (digits : BlobDigits cs ds stop) (h : s.ahead i = cs) :
    takeBlobDigits s i = blobReply s i (i + ds.length) stop := by
  have length := Source.length_ahead s i
  obtain ⟨d, tail, rfl, -⟩ := digits.head
  rw [h, List.length_cons] at length
  rw [takeBlobDigits_eq, bind_of_ok (tell_apply s i)]
  exact repeatUpTo_of_blobDigits digits h (by simp only [List.length_cons]; omega)

/-! ### The token -/

/-- What the token comes to, from its digits on. -/
def blobToken (s : Source) (i : Nat) (mark : Char) (ds : List Char) : BlobEnd → Reply Token
  | .odd a b => .fail ⟨.oddBlob a b, s.position (i + 2 + ds.length)⟩ (i + 2 + ds.length)
  | _ => .ok ⟨.blob, String.ofList ('0' :: mark :: ds), s.position i⟩ (i + 2 + ds.length)

theorem number_of_blobDigits {mark : Char} (isMark : mark = 'z' ∨ mark = 'Z') (h : s.ahead i = '0' :: mark :: cs)
    (digits : BlobDigits cs ds stop) :
    number '0' s i = (do
      let digits ← takeBlobDigits
      return some (TokenKind.blob, String.ofList ['0', mark] ++ digits)) s (i + 2) := by
  obtain ⟨d, tail, rfl, digit⟩ := digits.head
  have noDot : d ≠ '.' := by
    rintro rfl
    exact absurd digit (by decide)
  have two : s.ahead i = ['0', mark] ++ d :: tail := h
  have line : '\n' ∉ ['0', mark] := by rcases isMark with rfl | rfl <;> decide
  have head := take_of_ahead ['0', mark] two line
  have other : (some mark == some 'x' || some mark == some 'X') = false ∧
      (some mark == some 'b' || some mark == some 'B') = false ∧
      (some mark == some 'z' || some mark == some 'Z') = true := by
    rcases isMark with rfl | rfl <;> decide
  simp only [number, bind_of_ok (peekAt_of_ahead 1 h), bind_of_ok (peekAt_of_ahead 2 h), List.getElem?_cons_succ,
    List.getElem?_cons_zero, other, Bool.and_false, Bool.false_and, Bool.false_eq_true, if_false]
  simp only [beq_self_eq_true, Bool.and_self, Bool.true_and, bne_iff_ne, ne_eq, Option.some.injEq, noDot,
    not_false_eq_true, if_true]
  exact bind_of_ok head

theorem next_of_blobDigits {mark : Char} (isMark : mark = 'z' ∨ mark = 'Z') (h : s.ahead i = '0' :: mark :: cs)
    (digits : BlobDigits cs ds stop) : next s i = blobToken s i mark ds stop := by
  have behind : s.ahead (i + 2) = cs := Source.ahead_of_cons (Source.ahead_of_cons h)
  have taken := takeBlobDigits_of_blobDigits digits behind
  have read := number_of_blobDigits isMark h digits
  rw [bind_apply, taken] at read
  have text : s.text (i + 2) (i + 2 + ds.length) = String.ofList ds := by
    obtain ⟨rest, rfl⟩ := digits.prefix_text
    exact Source.text_of_append behind
  have whole : String.ofList ['0', mark] ++ String.ofList ds = String.ofList ('0' :: mark :: ds) := by
    rw [← String.ofList_append]
    rfl
  cases stop with
  | odd a b =>
    have failed : lexeme '0' s i = .fail ⟨.oddBlob a b, s.position (i + 2 + ds.length)⟩ (i + 2 + ds.length) := by
      rw [lexeme, bind_apply, read]
      rfl
    rw [next, bind_of_ok (skipWhite_of_solid h rfl), bind_of_ok (here_apply s i), bind_of_ok (peek_of_ahead h)]
    exact bind_fail.mpr (.inl failed)
  | whole | cut =>
    apply next_of_lexeme h rfl (by decide)
    simp only [blobReply, text, pure_apply, whole] at read
    rw [lexeme, bind_apply, read]
    rfl

/-! ### Whole bytes -/

/-- Behind the mark of a blob and a digit there are whole bytes, up to something that is no digit; or the blob is refused,
as it always is for an odd run of digits. Only where the line ends after an odd run, the blob is read without the last
digit of it. -/
theorem next_of_blob {mark : Char} (isMark : mark = 'z' ∨ mark = 'Z') (h : s.ahead i = '0' :: mark :: d :: cs)
    (digit : CharClass.hex.has d = true) :
    ((∀ before run rest, OddRun (d :: cs) before run rest → ∃ c ∈ rest.head?, c ≠ '\n') →
      (∃ ds rest, d :: cs = ds ++ rest ∧ WholeBytes ds ∧ CharClass.hex.hasOpt rest.head? = false ∧
        next s i = .ok ⟨.blob, String.ofList ('0' :: mark :: ds), s.position i⟩ (i + 2 + ds.length)) ∨
      ∃ a b k, next s i = .fail ⟨.oddBlob a b, s.position k⟩ k) ∧
    ∀ before run rest, OddRun (d :: cs) before run rest →
      let k := i + 2 + (before ++ run.dropLast).length
      (∀ b ∈ rest.head?, b ≠ '\n' → ∃ a ∈ run, next s i = .fail ⟨.oddBlob a b, s.position k⟩ k) ∧
      ((∀ b ∈ rest.head?, b = '\n') →
        next s i = .ok ⟨.blob, String.ofList ('0' :: mark :: (before ++ run.dropLast)), s.position i⟩ k) := by
  constructor
  · intro goesOn
    obtain ⟨ds, stop, digits⟩ := exists_blobDigits digit cs
    have read := next_of_blobDigits isMark h digits
    cases stop with
    | whole =>
      obtain ⟨bytes, rest, split, outside⟩ := digits.wholeBytes rfl
      exact .inl ⟨ds, rest, split, bytes, outside, read⟩
    | odd a b => exact .inr ⟨a, b, _, read⟩
    | cut =>
      obtain ⟨before, run, rest, odd, ends⟩ := digits.oddRun rfl
      obtain ⟨c, front, line⟩ := goesOn before run rest odd
      exact absurd (ends c front) line
  · intro before run rest odd
    obtain ⟨a, place, cut, refused⟩ := odd.blobDigits
    exact ⟨fun b front line => ⟨a, place, next_of_blobDigits isMark h (refused b front line)⟩,
      fun ends => next_of_blobDigits isMark h (cut ends)⟩

/-- An odd run behind whole bytes and a dot. -/
theorem next_of_blob_dotted :
    let s := Source.ofLines ["0z12.345 x"]
    s.ahead 0 = '0' :: 'z' :: '1' :: "2.345 x\n".toList ∧ CharClass.hex.has '1' = true ∧
      OddRun ('1' :: "2.345 x\n".toList) "12.".toList "345".toList " x\n".toList ∧
      ∃ a ∈ "345".toList, next s 0 = .fail ⟨.oddBlob a ' ', s.position 7⟩ 7 := by
  intro s
  have h : s.ahead 0 = '0' :: 'z' :: '1' :: "2.345 x\n".toList := by decide +kernel
  have odd : OddRun ('1' :: "2.345 x\n".toList) "12.".toList "345".toList " x\n".toList :=
    { split := by decide
      before := .inr ⟨['1', '2'], .byte rfl rfl, by decide⟩
      digits := List.all_eq_true.mp (by decide)
      odd := by decide
      stop := by decide }
  obtain ⟨a, place, refused⟩ := ((next_of_blob (.inl rfl) h rfl).2 _ _ _ odd).1 ' ' rfl (by decide)
  exact ⟨h, rfl, odd, a, place, refused⟩

/-- In the line `0z1` the digit has no partner, and the blob is read without it. -/
theorem not_forall_odd_refused :
    ¬∀ (s : Source) (i : Nat) (mark d : Char) (cs before run rest : List Char), mark = 'z' ∨ mark = 'Z' →
      s.ahead i = '0' :: mark :: d :: cs → OddRun (d :: cs) before run rest → ∃ a b k,
        next s i = .fail ⟨.oddBlob a b, s.position k⟩ k := by
  intro refused
  have odd : OddRun ['1', '\n'] [] ['1'] ['\n'] := ⟨rfl, .inl rfl, by simp [CharClass.has], rfl, rfl⟩
  obtain ⟨a, b, k, read⟩ := refused (.ofLines ["0z1"]) 0 'z' '1' ['\n'] [] ['1'] ['\n'] (.inl rfl) (by decide +kernel) odd
  have taken : next (.ofLines ["0z1"]) 0 = .ok ⟨.blob, "0z", ⟨0, 1, 1, 0⟩⟩ 2 := by decide +kernel
  rw [read] at taken
  cases taken

end VimScript.Token
