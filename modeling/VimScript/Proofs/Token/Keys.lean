import VimScript.Proofs.Token.Extent
import VimScript.Proofs.Token.Faults

/-!
What the keys of literal dictionaries look like to the tokens of expressions. A key is a token, or starts with one, but
for keys that look like a blob with half a byte.
-/

set_option autoImplicit false

namespace VimScript

variable {s : Source} {i j k n start : Nat} {xs cs rest : List Char} {a b c d : Char} {kind : TokenKind} {token : Token}

namespace Scan

/-! ### Blobs -/

def blobTurn (start : Nat) (_ : Unit) : Scan (Turn Unit String) := do
  let ahead ← peekRun 2
  match ahead.toList with
  | [a, b] =>
    if CharClass.hex.has a && CharClass.hex.has b then
      let _ ← take 2
      return .again ()
    else if a == '.' && CharClass.hex.has b then
      let _ ← take 1
      return .again ()
    else if CharClass.hex.has a then
      failHere (.oddBlob a b)
    else
      return .done (← textSince start)
  | _ => return .done (← textSince start)

theorem takeBlobDigits_eq : takeBlobDigits = (do loop () (blobTurn (← tell))) := rfl

theorem blobTurn_of_pair (h : s.ahead i = a :: b :: cs) (first : CharClass.hex.has a = true)
    (second : CharClass.hex.has b = true) : blobTurn start () s i = .ok (.again ()) (i + 2) := by
  have lines : '\n' ∉ [a, b] := by
    simp [(ne_newline_of_has first).symm, (ne_newline_of_has second).symm]
  have two : take 2 s i = .ok (String.ofList [a, b]) (i + 2) := take_of_ahead [a, b] h lines
  have ahead : peekRun 2 s i = .ok (String.ofList [a, b]) i := peeking_of_ok two
  simp only [blobTurn, bind_of_ok ahead, String.toList_ofList, first, second, Bool.and_self, if_true, bind_of_ok two]
  rfl

theorem blobTurn_of_half (h : s.ahead i = a :: b :: cs) (first : CharClass.hex.has a = true)
    (second : CharClass.hex.has b = false) (line : b ≠ '\n') :
    blobTurn start () s i = .fail ⟨.oddBlob a b, s.position i⟩ i := by
  have lines : '\n' ∉ [a, b] := by
    simp [(ne_newline_of_has first).symm, line.symm]
  have two : take 2 s i = .ok (String.ofList [a, b]) (i + 2) := take_of_ahead [a, b] h lines
  have ahead : peekRun 2 s i = .ok (String.ofList [a, b]) i := peeking_of_ok two
  simp [blobTurn, bind_of_ok ahead, first, second, failHere]

theorem blobTurn_of_other (h : s.ahead i = c :: cs) (other : CharClass.hex.has c = false) (point : c ≠ '.') :
    blobTurn start () s i = .ok (.done (s.text start i)) i := by
  simp only [blobTurn, bind_of_ok (peekRun_of_ahead 2 h), String.toList_ofList]
  generalize shape : (List.take 2 (c :: cs)).takeWhile (· != '\n') = two
  rcases two with _ | ⟨a, _ | ⟨b, _ | ⟨_, _⟩⟩⟩
  case cons.cons.nil =>
    obtain rfl : c = a := by
      have starts : [a, b] <+: c :: cs := shape ▸ (List.takeWhile_prefix _).trans (List.take_prefix 2 _)
      exact (List.cons_prefix_cons.mp starts).1.symm
    simp only [other, Bool.false_and, beq_eq_false_iff_ne.mpr point, Bool.false_eq_true, if_false]
    rfl
  all_goals rfl

/-- The digits of a blob are taken by pairs, up to a character that goes with no digit. -/
theorem repeatUpTo_blobTurn (start : Nat) (other : CharClass.hex.has c = false) (point : c ≠ '.') (line : c ≠ '\n')
    (h : s.ahead i = xs ++ c :: cs) (hex : ∀ x ∈ xs, CharClass.hex.has x = true) (enough : xs.length < n) :
    (xs.length % 2 = 0 → repeatUpTo (blobTurn start) n () s i = .ok (s.text start (i + xs.length)) (i + xs.length)) ∧
      (xs.length % 2 = 1 → ∃ a p, repeatUpTo (blobTurn start) n () s i = .fail ⟨.oddBlob a c, s.position p⟩ p) := by
  induction n generalizing i xs with
  | zero => omega
  | succ n ih =>
  rcases xs with _ | ⟨a, _ | ⟨b, xs⟩⟩
  · refine ⟨fun _ => ?_, by simp⟩
    simp [repeatUpTo, blobTurn_of_other h other point]
  · refine ⟨by simp, fun _ => ⟨a, i, ?_⟩⟩
    simp [repeatUpTo, blobTurn_of_half h (hex a (by simp)) other line]
  · have turn : blobTurn start () s i = .ok (.again ()) (i + 2) :=
      blobTurn_of_pair h (hex a (by simp)) (hex b (by simp))
    have after : s.ahead (i + 2) = xs ++ c :: cs := Source.ahead_of_cons (Source.ahead_of_cons h)
    obtain ⟨even, odd⟩ := ih after (fun x place => hex x (by simp [place])) (by simp at enough; omega)
    have length : i + 2 + xs.length = i + (a :: b :: xs).length := by
      simp
      omega
    rw [length] at even
    refine ⟨fun two => ?_, fun two => ?_⟩
    · simpa [repeatUpTo, turn] using even (by simp at two; omega)
    · simpa [repeatUpTo, turn] using odd (by simp at two; omega)

end Scan

namespace Token

/-! ### Keys and blobs -/

def hexRun (cs : List Char) : List Char :=
  cs.takeWhile CharClass.hex.has

/-- Whether a text starts like a blob whose last byte lacks a digit. -/
def startsOddBlob : List Char → Bool
  | '0' :: mark :: rest => (mark == 'z' || mark == 'Z') && (hexRun rest).length % 2 == 1
  | _ => false

/-- A key as literal dictionaries have it, with the colon after it. -/
structure IsKey (key : List Char) : Prop where
  some : key ≠ []
  chars : ∀ c ∈ key, isKeyChar c = true

theorem isKeyChar_facts (h : isKeyChar c = true) :
    CharClass.white.has c = false ∧ c ≠ '\n' ∧ c ≠ ':' ∧ c ≠ '.' ∧ c ≠ '>' := by
  refine ⟨?_, ?_, ?_, ?_, ?_⟩
  · by_contra blank
    simp only [CharClass.has, Bool.not_eq_false, Bool.or_eq_true, beq_iff_eq] at blank
    rcases blank with rfl | rfl <;> exact absurd h (by decide)
  all_goals
    rintro rfl
    exact absurd h (by decide)

/-- What comes after a part of a key: more of it, or the colon. -/
theorem exists_after {key : List Char} (chars : ∀ c ∈ key, isKeyChar c = true) (cs : List Char) :
    ∃ c rest, key ++ ':' :: cs = c :: rest ∧ (isKeyChar c = true ∨ c = ':') := by
  cases key with
  | nil => exact ⟨':', cs, rfl, .inr rfl⟩
  | cons c key => exact ⟨c, key ++ ':' :: cs, rfl, .inl (chars c (by simp))⟩

theorem number_of_blobMark {mark : Char} (h : s.ahead i = '0' :: mark :: cs) (isMark : mark = 'z' ∨ mark = 'Z')
    (point : cs.head? ≠ some '.') :
    number '0' s i = (do
      let head ← Scan.take 2
      let digits ← Scan.takeBlobDigits
      return some (TokenKind.blob, head ++ digits)) s i := by
  have second : ('0' :: mark :: cs)[2]? = cs.head? := by
    rw [List.getElem?_cons_succ, List.getElem?_cons_succ, List.head?_eq_getElem?]
  rcases isMark with rfl | rfl <;>
    simp [number, Scan.bind_of_ok (Scan.peekAt_of_ahead 1 h), Scan.bind_of_ok (Scan.peekAt_of_ahead 2 h), second, point]

/-- A key that starts like a blob is one up to its first other character, if its digits make whole bytes. -/
theorem number_of_blobKey {mark : Char} {key : List Char} (h : s.ahead i = '0' :: mark :: (key ++ ':' :: cs))
    (isMark : mark = 'z' ∨ mark = 'Z') (chars : ∀ c ∈ key, isKeyChar c = true) :
    ((hexRun key).length % 2 = 0 →
      ∃ text, number '0' s i = .ok (some (.blob, text)) (i + 2 + (hexRun key).length)) ∧
    ((hexRun key).length % 2 = 1 → ∃ a b p, number '0' s i = .fail ⟨.oddBlob a b, s.position p⟩ p) := by
  have splits : key = hexRun key ++ key.dropWhile CharClass.hex.has := List.takeWhile_append_dropWhile.symm
  have late : ∀ c ∈ key.dropWhile CharClass.hex.has, isKeyChar c = true := fun c place =>
    chars c (List.dropWhile_subset _ place)
  obtain ⟨c, rest, after, next⟩ := exists_after late cs
  have facts : c ≠ '.' ∧ c ≠ '\n' := by
    rcases next with char | rfl
    · exact ⟨(isKeyChar_facts char).2.2.2.1, (isKeyChar_facts char).2.1⟩
    · decide
  have other : CharClass.hex.has c = false := by
    cases tail : key.dropWhile CharClass.hex.has with
    | nil =>
      rw [tail, List.nil_append, List.cons.injEq] at after
      rw [← after.1]
      rfl
    | cons d ds =>
      rw [tail, List.cons_append, List.cons.injEq] at after
      rw [← after.1]
      simpa [tail] using List.head?_dropWhile_not CharClass.hex.has key
  have digits : s.ahead (i + 2) = hexRun key ++ c :: rest := by
    rw [Source.ahead_of_cons (Source.ahead_of_cons h), ← after, ← List.append_assoc, ← splits]
  have point : (key ++ ':' :: cs).head? ≠ some '.' := by
    obtain ⟨d, ds, whole, first⟩ := exists_after chars cs
    rw [whole, List.head?_cons, ne_eq, Option.some.injEq]
    rcases first with char | rfl
    · exact (isKeyChar_facts char).2.2.2.1
    · decide
  have size := Source.length_ahead s (i + 2)
  rw [digits, List.length_append] at size
  obtain ⟨even, odd⟩ := Scan.repeatUpTo_blobTurn (n := s.size + 2) (i + 2) other facts.1 facts.2 digits
    (fun x place => List.mem_takeWhile_imp place) (by omega)
  have lines : '\n' ∉ ['0', mark] := by
    rcases isMark with rfl | rfl <;> decide
  have head : Scan.take 2 s i = .ok (String.ofList ['0', mark]) (i + 2) := Scan.take_of_ahead ['0', mark] h lines
  rw [number_of_blobMark h isMark point, Scan.bind_of_ok head]
  refine ⟨fun two => ⟨_, Scan.bind_of_ok (even two)⟩, fun two => ?_⟩
  obtain ⟨a, p, fault⟩ := odd two
  exact ⟨a, c, p, Scan.bind_fail.mpr (.inl fault)⟩

theorem next_of_fault {e : Fault} (h : s.ahead i = c :: cs) (solid : CharClass.white.has c = false) (line : c ≠ '\n')
    (fault : number c s i = .fail e j) : next s i = .fail e j := by
  have stops : lexeme c s i = .fail e j := Scan.bind_fail.mpr (.inl fault)
  simp only [next, Scan.bind_of_ok (Scan.skipWhite_of_solid h (by simpa using solid)),
    Scan.bind_of_ok (Scan.here_apply s i), Scan.bind_of_ok (Scan.peek_of_ahead h), List.head?_cons]
  exact Scan.bind_fail.mpr (.inl stops)

/-- Numbers have no faults but in blobs. -/
theorem blobMark_of_fault {e : Fault} (h : s.ahead i = c :: cs) (fault : number c s i = .fail e j) :
    c = '0' ∧ ∃ mark rest, cs = mark :: rest ∧ (mark = 'z' ∨ mark = 'Z') := by
  have never {x : Scan (Option (TokenKind × String))} (sure : x.Delivers (fun _ => True) (fun _ => False))
      (run : x s i = .fail e j) : False := sure.of_fail run
  simp only [number, Scan.bind_of_ok (Scan.peekAt_of_ahead 1 h), Scan.bind_of_ok (Scan.peekAt_of_ahead 2 h)] at fault
  split at fault
  · exact (never (.skip fun _ => .skip fun _ => .pure trivial) fault).elim
  split at fault
  · exact (never (.skip fun _ => .skip fun _ => .pure trivial) fault).elim
  split at fault
  · rename_i blob
    simp only [Bool.and_eq_true, Bool.or_eq_true, beq_iff_eq, List.getElem?_cons_succ] at blob
    rw [← List.head?_eq_getElem?] at blob
    refine ⟨blob.1.1, ?_⟩
    rcases blob.1.2 with mark | mark
    · obtain ⟨rest, rfl⟩ := List.head?_eq_some_iff.mp mark
      exact ⟨'z', rest, rfl, .inl rfl⟩
    · obtain ⟨rest, rfl⟩ := List.head?_eq_some_iff.mp mark
      exact ⟨'Z', rest, rfl, .inr rfl⟩
  split at fault
  · exact (never (.skip fun _ => .pure trivial) fault).elim
  · exact (never (.pure trivial) fault).elim

theorem starts_of_keyChar (h : isKeyChar c = true) :
    c = '-' ∨ CharClass.digit.has c = true ∨ CharClass.nameStart.has c = true := by
  simp only [isKeyChar, CharClass.has, Char.isAlphanum, Bool.or_eq_true, beq_iff_eq] at h ⊢
  rcases h with ((alpha | digit) | under) | dash
  · exact .inr (.inr (.inl alpha))
  · exact .inr (.inl digit)
  · exact .inr (.inr (.inr under))
  · exact .inl dash

theorem number_of_digit (digit : CharClass.digit.has c = true) :
    (number c).Delivers (fun found => found ≠ none) (fun _ => True) := by
  refine .past fun first => .past fun second => .ite (fun _ => .past fun _ => .past fun _ => .pure (by simp)) fun _ => ?_
  refine .ite (fun _ => .past fun _ => .past fun _ => .pure (by simp)) fun _ => ?_
  refine .ite (fun _ => .past fun _ => .past fun _ => .pure (by simp)) fun _ => ?_
  exact .ite (fun _ => .past fun _ => .pure (by simp)) fun other => absurd digit other

/-- Only a number can be a fault where a key starts. -/
theorem number_fault_of_next {e : Fault} (h : s.ahead i = c :: cs) (char : isKeyChar c = true)
    (fault : next s i = .fail e j) : number c s i = .fail e j := by
  have solid := (isKeyChar_facts char).1
  have line := (isKeyChar_facts char).2.1
  simp only [next, Scan.bind_of_ok (Scan.skipWhite_of_solid h (by simpa using solid)),
    Scan.bind_of_ok (Scan.here_apply s i), Scan.bind_of_ok (Scan.peek_of_ahead h), List.head?_cons] at fault
  have stops : lexeme c s i = .fail e j :=
    (Scan.bind_fail.mp fault).resolve_right (by rintro ⟨_, _, _, never⟩; cases never)
  refine (Scan.bind_fail.mp stops).resolve_right ?_
  rintro ⟨found, k, read, later⟩
  cases found with
  | some _ => cases later
  | none =>
    revert later
    suffices sure : Scan.Delivers _ (fun _ => True) (fun _ => False) from fun later => sure.of_fail later
    refine .skip ?_
    rintro (_ | _)
    case some => exact .pure trivial
    refine .skip ?_
    rintro (_ | _)
    case some => exact .pure trivial
    refine .ite (fun _ => .skip fun _ => .pure trivial) fun noName => ?_
    refine .skip ?_
    rintro (_ | _)
    case some => exact .pure trivial
    refine .skip ?_
    rintro (_ | _)
    case some => exact .pure trivial
    dsimp only
    split
    · exact .skip fun _ => .pure trivial
    · rename_i unknown
      rcases starts_of_keyChar char with rfl | digit | start
      · exact absurd unknown (by decide)
      · exact absurd rfl ((number_of_digit digit).of_ok read)
      · exact absurd start noName

/-! ### The first token of a key -/

variable {key : List Char}

/-- A key that an identifier starts with: it has no dash and is no identity test. -/
def isWordKey (key : List Char) : Bool :=
  CharClass.nameStart.hasOpt key.head? && key.all CharClass.word.has && key != "is".toList && key != "isnot".toList

/-- Kinds of token that decide what a brace opens. -/
def isTelling (kind : TokenKind) : Bool :=
  kind == .arrow || kind == .comma || kind == .braceClose || kind == .singleQuote || kind == .doubleQuote

theorem next_of_oddKey (h : s.ahead i = key ++ ':' :: cs) (chars : ∀ c ∈ key, isKeyChar c = true)
    (odd : startsOddBlob key = true) : ∃ a b p, next s i = .fail ⟨.oddBlob a b, s.position p⟩ p := by
  unfold startsOddBlob at odd
  split at odd
  · rename_i mark key
    simp only [Bool.and_eq_true, Bool.or_eq_true, beq_iff_eq] at odd
    obtain ⟨a, b, p, fault⟩ := (number_of_blobKey h odd.1 fun c place => chars c (by simp [place])).2 odd.2
    exact ⟨a, b, p, next_of_fault h rfl (by decide) fault⟩
  · simp at odd

theorem exists_next_of_key (h : s.ahead i = key ++ ':' :: cs) (isKey : IsKey key) (even : startsOddBlob key = false) :
    ∃ token k, next s i = .ok token k := by
  cases run : next s i with
  | ok token k => exact ⟨token, k, rfl⟩
  | spent => exact absurd run (next_answers s i)
  | fail e k =>
    obtain ⟨c, key, rfl⟩ := List.exists_cons_of_ne_nil isKey.some
    have fault := number_fault_of_next h (isKey.chars c (by simp)) run
    obtain ⟨rfl, mark, rest, tail, isMark⟩ := blobMark_of_fault h fault
    cases key with
    | nil =>
      obtain ⟨rfl, -⟩ : ':' = mark ∧ cs = rest := by simpa using tail
      rcases isMark with never | never <;> exact absurd never (by decide)
    | cons mark' key =>
      obtain ⟨rfl, -⟩ : mark' = mark ∧ key ++ ':' :: cs = rest := by simpa using tail
      have whole : (hexRun key).length % 2 = 0 := by
        rcases isMark with rfl | rfl <;> simp [startsOddBlob] at even <;> omega
      obtain ⟨text, found⟩ := (number_of_blobKey h isMark fun c place => isKey.chars c (by simp [place])).1 whole
      rw [found] at fault
      cases fault

/-- How the first token of a key is spelled. -/
theorem spelled_of_key (h : s.ahead i = key ++ ':' :: cs) (isKey : IsKey key) (run : next s i = .ok token k) :
    ∃ xs, token.value = String.ofList xs ∧ token.position = s.position i ∧ s.Spans i xs k ∧
      Spelling token.kind xs (s.ahead k) := by
  obtain ⟨ws, l, before, blanks, -, taken⟩ := gives_next s i token k run
  obtain ⟨c, key, rfl⟩ := List.exists_cons_of_ne_nil isKey.some
  have facts := isKeyChar_facts (isKey.chars c (by simp))
  obtain rfl : ws = [] := by
    cases ws with
    | nil => rfl
    | cons w ws =>
      have first := before.ahead
      rw [h, List.cons_append, List.cons_append, List.cons.injEq] at first
      have blank := blanks w (by simp)
      rw [← first.1, facts.1] at blank
      simp at blank
  obtain rfl : l = i := before.cursor
  cases taken with
  | eof empty => simp [h] at empty
  | eol line =>
    have first := line.ahead
    rw [h, List.cons_append, List.cons_append, List.cons.injEq] at first
    exact absurd first.1 facts.2.1
  | lexeme spans spelled => exact ⟨_, rfl, rfl, spans, spelled⟩

/-- A text without a colon stays inside the key. -/
theorem within_key (whole : key ++ ':' :: cs = xs ++ rest) (colon : ':' ∉ xs) :
    ∃ later, key = xs ++ later ∧ rest = later ++ ':' :: cs := by
  rcases List.append_eq_append_iff.mp whole with ⟨extra, rfl, tail⟩ | ⟨later, rfl, tail⟩
  · cases extra with
    | nil => exact ⟨[], by simp, tail.symm⟩
    | cons x extra =>
      obtain ⟨rfl, -⟩ : ':' = x ∧ cs = extra ++ rest := by simpa using tail
      exact absurd (by simp) colon
  · exact ⟨later, rfl, tail⟩

/-- What the first token of a key leaves of it. -/
inductive KeyToken (s : Source) (i : Nat) (key cs : List Char) (token : Token) (k : Nat) : Prop where
  | part {first later : List Char} (split : key = first ++ later) (ahead : s.ahead k = later ++ ':' :: cs)
      (plain : isTelling token.kind = false) (blob : startsOddBlob later = true → first = ['-'])
      (other : isWordKey key = false)
  | whole {xs : List Char} (word : isWordKey key = true) (kind : token.kind = .identifier)
      (value : token.value = String.ofList xs) (spans : s.Spans i xs k) (chars : ∀ x ∈ xs, CharClass.name.has x = true)
      (stop : CharClass.name.hasOpt (s.ahead k).head? = false)

theorem startsOddBlob_of_head (other : xs.head? ≠ some '0') : startsOddBlob xs = false := by
  unfold startsOddBlob
  split
  · simp at other
  · rfl

theorem startsOddBlob_of_dash (xs : List Char) : startsOddBlob ('-' :: xs) = false :=
  startsOddBlob_of_head (by simp)

theorem isWordKey_of_head (other : CharClass.nameStart.hasOpt key.head? = false) : isWordKey key = false := by
  simp [isWordKey, other]

theorem isWordKey_of_dash (dash : '-' ∈ key) : isWordKey key = false := by
  have notAll : key.all CharClass.word.has = false := by
    rw [List.all_eq_false]
    exact ⟨'-', dash, by decide⟩
  simp [isWordKey, notAll]

theorem keyToken_of_number {d : Char} {ds : List Char} (whole : key ++ ':' :: cs = d :: ds ++ s.ahead k)
    (digit : CharClass.digit.has d = true) (chars : ∀ x ∈ ds, isNumberChar x = true) (stop : (s.ahead k).head? ≠ some '0')
    (kind : token.kind = .number) : KeyToken s i key cs token k := by
  have colon : ':' ∉ d :: ds := by
    intro place
    rcases List.mem_cons.mp place with rfl | place
    · exact absurd digit (by decide)
    · exact absurd (chars _ place) (by decide)
  obtain ⟨later, rfl, after⟩ := within_key whole colon
  refine .part rfl after (by rw [kind]; rfl) (fun odd => ?_) (isWordKey_of_head ?_)
  · have even : startsOddBlob later = false := startsOddBlob_of_head fun zero => by
      rw [after, List.head?_append, zero] at stop
      exact stop rfl
    simp [even] at odd
  · exact CharClass.forall_of_table (p := fun d => CharClass.nameStart.has d = false) (by decide) digit

theorem eq_dash_of_not_ident (char : isKeyChar c = true) (ident : CharClass.ident.has c = false) : c = '-' := by
  have split : isKeyChar c = (CharClass.ident.has c || c == '-') := rfl
  rw [split, ident, Bool.false_or, beq_iff_eq] at char
  exact char

theorem keyToken_of_identity {test : Comparison} {mode : CaseMode} (chars : ∀ c ∈ key, isKeyChar c = true)
    (whole : key ++ ':' :: cs = identityText test mode ++ s.ahead k) (identity : test = .is ∨ test = .isNot)
    (stop : mode = .byOption → ∀ c ∈ (s.ahead k).head?, CharClass.ident.has c = false ∧ c ≠ '?' ∧ c ≠ '#')
    (kind : token.kind = .compare test mode) : KeyToken s i key cs token k := by
  have colon : ':' ∉ identityText test mode := by
    rcases identity with rfl | rfl <;> cases mode <;> decide
  obtain ⟨later, rfl, after⟩ := within_key whole colon
  obtain rfl : mode = .byOption := by
    have inside : (identityText test mode).all isKeyChar = true :=
      List.all_eq_true.mpr fun c place => chars c (by simp [place])
    rcases identity with rfl | rfl <;> cases mode <;> first | rfl | exact absurd inside (by decide)
  cases later with
  | nil =>
    refine .part rfl after (by rw [kind]; rfl) (fun odd => absurd odd (by decide)) ?_
    rcases identity with rfl | rfl <;> decide
  | cons c later =>
    have ident := (stop rfl c (by simp [after])).1
    obtain rfl : c = '-' := eq_dash_of_not_ident (chars c (by simp)) ident
    refine .part rfl after (by rw [kind]; rfl) (fun odd => ?_) (isWordKey_of_dash (by simp))
    simp [startsOddBlob_of_dash] at odd

theorem word_of_name (char : isKeyChar c = true) (name : CharClass.name.has c = true) : CharClass.word.has c = true := by
  by_contra other
  obtain rfl := eq_dash_of_not_ident char (eq_false_of_ne_true other)
  exact absurd name (by decide)

/-- An identifier goes up to a dash, or past the end of the key. -/
theorem keyToken_of_identifier {d : Char} {ds : List Char} (isKey : IsKey key)
    (spans : s.Spans i (d :: ds) k) (h : s.ahead i = key ++ ':' :: cs) (start : CharClass.nameStart.has d = true)
    (name : ∀ x ∈ ds, CharClass.name.has x = true) (stop : CharClass.name.hasOpt (s.ahead k).head? = false)
    (other : ∀ test, test = .is ∨ test = .isNot → NoIdentity test (s.ahead i)) (kind : token.kind = .identifier)
    (value : token.value = String.ofList (d :: ds)) : KeyToken s i key cs token k := by
  have names : ∀ x ∈ d :: ds, CharClass.name.has x = true := by
    simpa using ⟨name_of_nameStart start, name⟩
  rcases List.append_eq_append_iff.mp (h.symm.trans spans.ahead) with ⟨extra, xs, tail⟩ | ⟨later, split, after⟩
  · have words : ∀ c ∈ key, CharClass.word.has c = true := fun c place =>
      word_of_name (isKey.chars c place) (names c (by simp [xs, place]))
    have noWord (test : Comparison) (identity : test = .is ∨ test = .isNot) : key ≠ test.lexeme.toList := by
      rintro rfl
      have goesOn : CharClass.ident.has ':' = true := other test identity (':' :: cs) h
      exact absurd goesOn (by decide)
    refine .whole ?_ kind value spans names stop
    have head : CharClass.nameStart.hasOpt key.head? = true := by
      obtain ⟨c, key, rfl⟩ := List.exists_cons_of_ne_nil isKey.some
      obtain ⟨rfl, -⟩ : d = c ∧ ds = key ++ extra := by simpa using xs
      exact start
    have all : key.all CharClass.word.has = true := List.all_eq_true.mpr words
    have noIs := noWord .is (.inl rfl)
    have noIsNot := noWord .isNot (.inr rfl)
    simp only [isWordKey, head, all, Bool.and_self, Bool.true_and, Bool.and_eq_true, bne_iff_ne]
    exact ⟨noIs, noIsNot⟩
  · cases later with
    | nil => simp [after, CharClass.has] at stop
    | cons c later =>
      have named : CharClass.name.has c = false := by simpa [after] using stop
      obtain rfl : c = '-' := by
        by_contra other
        have word : CharClass.ident.has c = true := by
          by_contra ident
          exact other (eq_dash_of_not_ident (isKey.chars c (by simp [split])) (eq_false_of_ne_true ident))
        rw [name_of_word word] at named
        simp at named
      refine .part split after (by rw [kind]; rfl) (fun odd => ?_) (isWordKey_of_dash (by simp [split]))
      simp [startsOddBlob_of_dash] at odd

theorem keyToken_of_blob {mark : Char} {ds : List Char} (h : s.ahead i = key ++ ':' :: cs) (isKey : IsKey key)
    (run : next s i = .ok token k) (whole : key ++ ':' :: cs = '0' :: mark :: ds ++ s.ahead k)
    (isMark : mark = 'z' ∨ mark = 'Z') (kind : token.kind = .blob) : KeyToken s i key cs token k := by
  have colon : ':' ∉ ['0', mark] := by
    rcases isMark with rfl | rfl <;> decide
  have split : key ++ ':' :: cs = ['0', mark] ++ (ds ++ s.ahead k) := whole
  obtain ⟨later, rfl, -⟩ := within_key split colon
  have chars : ∀ c ∈ later, isKeyChar c = true := fun c place => isKey.chars c (by simp [place])
  obtain ⟨even, odd⟩ := number_of_blobKey h isMark chars
  rcases Nat.mod_two_eq_zero_or_one (hexRun later).length with two | two
  · obtain ⟨text, found⟩ := even two
    have lexed : lexeme '0' s i = .ok (.blob, text) (i + 2 + (hexRun later).length) := by
      simp only [lexeme, Scan.bind_of_ok found]
      rfl
    rw [next_of_lexeme h rfl (by decide) lexed] at run
    obtain ⟨-, rfl⟩ : _ ∧ i + 2 + (hexRun later).length = k := by simpa using run
    have digits : later = hexRun later ++ later.dropWhile CharClass.hex.has := List.takeWhile_append_dropWhile.symm
    have after : s.ahead (i + 2 + (hexRun later).length) = later.dropWhile CharClass.hex.has ++ ':' :: cs := by
      apply Source.ahead_of_append
      rw [← List.append_assoc, ← digits]
      exact Source.ahead_of_cons (Source.ahead_of_cons h)
    have written : ['0', mark] ++ later = ['0', mark] ++ hexRun later ++ later.dropWhile CharClass.hex.has := by
      rw [List.append_assoc, ← digits]
    refine .part written after (by rw [kind]; rfl) (fun odd => ?_) (isWordKey_of_head rfl)
    have even : startsOddBlob (later.dropWhile CharClass.hex.has) = false := startsOddBlob_of_head fun zero => by
      have out := List.head?_dropWhile_not CharClass.hex.has later
      simp [zero] at out
      exact absurd out (by decide)
    simp [even] at odd
  · obtain ⟨a, b, p, fault⟩ := odd two
    rw [next_of_fault h rfl (by decide) fault] at run
    cases run

/-- No operator of more than one character starts a key. -/
theorem form_of_key (h : key ++ ':' :: cs = xs ++ rest) (isKey : IsKey key) {text : String}
    (found : form? (xs ++ rest) = some (text, kind)) : False := by
  have table : ∀ form ∈ operatorForms, form.1.toList.head?.any isKeyChar = true → form.1.toList = ['-', '>'] := by decide
  obtain ⟨c, tail, rfl⟩ := List.exists_cons_of_ne_nil isKey.some
  have starts : text.toList <+: xs ++ rest := by simpa using List.find?_some found
  rw [← h] at starts
  obtain ⟨d, head, -⟩ := operatorForms_start (List.mem_of_find?_eq_some found)
  obtain rfl : d = c := by simpa using (head_of_starts starts head).symm
  rw [table _ (List.mem_of_find?_eq_some found) (by simp [head, isKey.chars d])] at starts
  obtain ⟨rfl, later⟩ := List.cons_prefix_cons.mp starts
  cases tail with
  | nil => simp at later
  | cons c tail =>
    obtain ⟨rfl, -⟩ := List.cons_prefix_cons.mp later
    exact absurd (isKey.chars '>' (by simp)) (by decide)

theorem keyToken_of_next (h : s.ahead i = key ++ ':' :: cs) (isKey : IsKey key) (run : next s i = .ok token k) :
    KeyToken s i key cs token k := by
  obtain ⟨xs, value, position, spans, spelled⟩ := spelled_of_key h isKey run
  have whole := h.symm.trans spans.ahead
  obtain ⟨c, tail, cons⟩ := List.exists_cons_of_ne_nil isKey.some
  have char := isKey.chars c (by simp [cons])
  -- The sigils of other tokens start no key.
  have first {d : Char} {ds : List Char} (same : xs = d :: ds) (sigil : isKeyChar d = false) : False := by
    rw [cons, same, List.cons_append, List.cons_append, List.cons.injEq] at whole
    rw [whole.1, sigil] at char
    simp at char
  generalize after : s.ahead k = rest at spelled whole
  generalize kinds : token.kind = kind at spelled
  cases spelled with
  | number digit chars stop => exact keyToken_of_number (after ▸ whole) digit chars (after ▸ stop) kinds
  | blob isMark => exact keyToken_of_blob h isKey run (after ▸ whole) isMark kinds
  | identity identity stop => exact keyToken_of_identity isKey.chars (after ▸ whole) identity (after ▸ stop) kinds
  | identifier start chars stop other =>
    refine keyToken_of_identifier isKey spans h start chars (after ▸ stop) (fun test identity => ?_) kinds value
    rw [spans.ahead, after]
    exact other test identity
  | form found => exact (form_of_key whole isKey found).elim
  | env | register | unnamedRegister | option => exact (first rfl (by decide)).elim
  | @punctuation d _ _ noForm entry =>
    have table : ∀ entry ∈ punctuation, isKeyChar entry.1 = true → entry = ('-', .minus) := by decide
    obtain ⟨rfl, after'⟩ : c = d ∧ tail ++ ':' :: cs = rest := by simpa [cons] using whole
    obtain ⟨rfl, rfl⟩ : c = '-' ∧ kind = .minus := by simpa using table _ (mem_of_lookup entry) char
    exact .part cons (after.trans after'.symm) (by rw [kinds]; rfl) (fun _ => rfl) (isWordKey_of_dash (by simp [cons]))

theorem KeyToken.plain (first : KeyToken s i key cs token k) : isTelling token.kind = false := by
  cases first with
  | part _ _ plain => exact plain
  | whole _ kind => rw [kind]; rfl

end Token

end VimScript
