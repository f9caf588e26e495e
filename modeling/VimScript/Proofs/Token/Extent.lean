import VimScript.Proofs.Token.Spelling
import VimScript.Proofs.Overlap.Token
import VimScript.Token.Memo

/-!
How far tokens reach. Tokens that are got one after another leave no character of the text out but the blanks
between them, and of the operators at a cursor the longest is taken.
-/

set_option autoImplicit false

namespace VimScript

variable {s : Source} {i j k : Nat} {xs rest : List Char} {kind : TokenKind} {token : Token}

namespace Token

/-! ### The longest operator -/

def identityForms : List (String × TokenKind) :=
  [Comparison.isNot, .is].flatMap comparisonForms

/-- Every text of the operator tables with its kind. -/
def operators : List (String × TokenKind) :=
  operatorForms ++ identityForms ++ punctuation.map fun entry => (String.singleton entry.1, entry.2)

/-- No operator at the start of the text is longer than the given one. -/
def IsLongest (text : List Char) (cs : List Char) : Prop :=
  ∀ form ∈ operators, form.1.toList <+: cs → form.1.length ≤ text.length

/-- An earlier form does not hide a longer one. -/
theorem operatorForms_longestFirst :
    operatorForms.Pairwise fun early late => early.1.toList <+: late.1.toList → late.1.length ≤ early.1.length := by
  decide +kernel

theorem identityForms_start : ∀ form ∈ identityForms, form.1.toList.head? = some 'i' := by
  decide

theorem operatorForms_start {form : String × TokenKind} (place : form ∈ operatorForms) :
    ∃ c, form.1.toList.head? = some c ∧ c ≠ 'i' := by
  have table : ∀ form ∈ operatorForms, form.1.toList.head?.any (· != 'i') = true := by decide
  have start := table form place
  cases head : form.1.toList.head? with
  | none => simp [head] at start
  | some c => exact ⟨c, rfl, by simpa [head] using start⟩

theorem punctuation_start : ∀ entry ∈ punctuation, entry.1 ≠ 'i' := by
  decide

/-- The kinds of all other tokens are in none of the tables. -/
theorem operators_kind : ∀ form ∈ operators,
    form.2 ∉ ([.number, .blob, .identifier, .env, .register, .option] : List TokenKind) := by
  decide

/-- Before what comes after it no identity test is longer. -/
theorem identityForms_longer : ∀ test ∈ [Comparison.is, .isNot], ∀ mode ∈ CaseMode.all, ∀ form ∈ identityForms,
    identityText test mode <+: form.1.toList → form.1.length ≤ (identityText test mode).length ∨
      mode = .byOption ∧ ['n', '?', '#'].any fun c => (identityText test mode ++ [c]).isPrefixOf form.1.toList := by
  decide

theorem head_of_starts {ys : List Char} {c : Char} (starts : xs <+: ys) (head : xs.head? = some c) :
    ys.head? = some c := by
  obtain ⟨tail, rfl⟩ := starts
  rw [List.head?_append, head, Option.some_or]

theorem mem_operators {form : String × TokenKind} (place : form ∈ operators) :
    form ∈ operatorForms ∨ form ∈ identityForms ∨ ∃ entry ∈ punctuation, (String.singleton entry.1, entry.2) = form := by
  simpa [operators, or_assoc] using place

/-- An operator whose first character starts no identity test is the longest if no form of more than one character is
longer. -/
theorem isLongest_of_forms {cs : List Char} (start : cs.head? ≠ some 'i') (some : 1 ≤ xs.length)
    (longest : ∀ form ∈ operatorForms, form.1.toList <+: cs → form.1.length ≤ xs.length) : IsLongest xs cs := by
  intro form place starts
  rcases mem_operators place with form | form | ⟨entry, -, rfl⟩
  · exact longest _ form starts
  · exact absurd (head_of_starts starts (identityForms_start _ form)) start
  · simpa using some

theorem isLongest_of_form {text : String} (found : form? (text.toList ++ rest) = some (text, kind)) :
    IsLongest text.toList (text.toList ++ rest) := by
  obtain ⟨-, before, after, split, noneBefore⟩ := List.find?_eq_some_iff_append.mp found
  have place : (text, kind) ∈ operatorForms := by simp [split]
  obtain ⟨c, head, other⟩ := operatorForms_start place
  have whole : (text.toList ++ rest).head? = some c := head_of_starts (List.prefix_append ..) head
  refine isLongest_of_forms ?_ (List.length_pos_of_mem (List.mem_of_mem_head? head)) fun form place starts => ?_
  · rw [whole]
    simpa using other
  have ordered := operatorForms_longestFirst
  rw [split, List.pairwise_append, List.pairwise_cons] at ordered
  rw [split, List.mem_append, List.mem_cons] at place
  rcases place with early | rfl | late
  · have none : form.1.toList.isPrefixOf (text.toList ++ rest) = false := by simpa using noneBefore form early
    exact absurd (List.isPrefixOf_iff_prefix.mpr starts) (ne_true_of_eq_false none)
  · rw [String.length_toList]
  · rcases List.prefix_or_prefix_of_prefix starts (List.prefix_append text.toList rest) with shorter | longer
    · rw [← String.length_toList]
      exact shorter.length_le
    · rw [String.length_toList]
      exact ordered.2.1.1 form late longer

theorem isLongest_of_identity {test : Comparison} {mode : CaseMode} (identity : test = .is ∨ test = .isNot)
    (stop : mode = .byOption → ∀ c ∈ rest.head?, CharClass.ident.has c = false ∧ c ≠ '?' ∧ c ≠ '#') :
    IsLongest (identityText test mode) (identityText test mode ++ rest) := by
  have start : (identityText test mode ++ rest).head? = some 'i' := by
    rcases identity with rfl | rfl <;> rfl
  intro form place starts
  rcases mem_operators place with form | identity' | ⟨entry, listed, rfl⟩
  · obtain ⟨c, head, other⟩ := operatorForms_start form
    rw [head_of_starts starts head] at start
    exact absurd start (by simpa using other)
  · rcases List.prefix_or_prefix_of_prefix starts (List.prefix_append (identityText test mode) rest) with shorter | longer
    · rw [← String.length_toList]
      exact shorter.length_le
    rcases identityForms_longer test (by simpa using identity) mode mode.mem_all form identity' longer with
      bound | ⟨plain, marked⟩
    · exact bound
    obtain ⟨c, mark, more⟩ := List.any_eq_true.mp marked
    obtain ⟨cs, rfl⟩ : [c] <+: rest :=
      (List.prefix_append_right_inj _).mp ((List.isPrefixOf_iff_prefix.mp more).trans starts)
    obtain ⟨word, question, sharp⟩ := stop plain c rfl
    simp only [List.mem_cons, List.not_mem_nil, or_false] at mark
    rcases mark with rfl | rfl | rfl
    · exact absurd word (by decide)
    · exact absurd rfl question
    · exact absurd rfl sharp
  · have head := head_of_starts starts (c := entry.1) (by simp)
    rw [head, Option.some.injEq] at start
    exact absurd start (punctuation_start entry listed)

theorem isLongest_of_punctuation {c : Char} (noForm : form? (c :: rest) = none)
    (entry : punctuation.lookup c = some kind) : IsLongest [c] (c :: rest) := by
  have place : (c, kind) ∈ punctuation := mem_of_lookup entry
  refine isLongest_of_forms ?_ (Nat.le_refl 1) fun form place starts => ?_
  · simpa using punctuation_start _ place
  · have none := List.find?_eq_none.mp noForm form place
    exact absurd (List.isPrefixOf_iff_prefix.mpr starts) none

/-- A token of the operator tables is the longest operator that stands where it was read. -/
theorem Spelling.isLongest (spelled : Spelling kind xs rest) (table : (String.ofList xs, kind) ∈ operators) :
    IsLongest xs (xs ++ rest) := by
  have other := operators_kind _ table
  cases spelled with
  | identity identity stop => exact isLongest_of_identity identity stop
  | form found => exact isLongest_of_form found
  | punctuation noForm entry => exact isLongest_of_punctuation noForm entry
  | number | blob | identifier | env | register | unnamedRegister | option => exact absurd other (by simp)

/-! ### One token -/

theorem Spelling.kind_ne (spelled : Spelling kind xs rest) : kind ≠ .eol ∧ kind ≠ .eof := by
  cases spelled with
  | form found =>
    have table : ∀ form ∈ operatorForms, form.2 ≠ .eol ∧ form.2 ≠ .eof := by decide
    exact table _ (List.mem_of_find?_eq_some found)
  | punctuation noForm entry =>
    have table : ∀ entry ∈ Token.punctuation, entry.2 ≠ .eol ∧ entry.2 ≠ .eof := by decide
    exact table _ (mem_of_lookup entry)
  | _ => simp

theorem Spelling.ne_nil (spelled : Spelling kind xs rest) : xs ≠ [] := by
  cases spelled with
  | identity identity => rcases identity with rfl | rfl <;> simp [identityText, Comparison.lexeme]
  | form found =>
    obtain ⟨c, head, -⟩ := operatorForms_start (List.mem_of_find?_eq_some found)
    rintro empty
    simp [empty] at head
  | _ => simp

/-- The text a token was read from. -/
def written (token : Token) : List Char :=
  match token.kind with
  | .eol => ['\n']
  | .eof => []
  | _ => token.value.toList

/-- What a token that was asked for at one cursor and the cursor after it say of the text. -/
structure Covers (s : Source) (i : Nat) (token : Token) (j : Nat) : Prop where
  blanks : ∃ ws, s.Spans i ws token.position.cursor ∧ ∀ c ∈ ws, CharClass.white.has c = true
  position : token.position = s.position token.position.cursor
  spans : s.Spans token.position.cursor token.written j
  value : token.kind ≠ .eol → token.kind ≠ .eof → token.value = s.text token.position.cursor j
  line : token.kind = .eol → token.value = "<EOL>"
  finish : token.kind = .eof → token.value = "<EOF>" ∧ s.size ≤ token.position.cursor
  advances : token.kind ≠ .eof → token.position.cursor < j
  longest : (token.value, token.kind) ∈ operators → IsLongest token.value.toList (s.ahead token.position.cursor)

theorem written_of_spelling {position : Position} (spelled : Spelling kind xs rest) :
    written ⟨kind, String.ofList xs, position⟩ = xs := by
  obtain ⟨line, finish⟩ := spelled.kind_ne
  unfold written
  split
  · exact absurd ‹_› line
  · exact absurd ‹_› finish
  · exact String.toList_ofList

theorem Spelling.mem_operators (spelled : Spelling kind xs rest)
    (symbol : kind ∉ ([.number, .blob, .identifier, .env, .register, .option] : List TokenKind)) :
    (String.ofList xs, kind) ∈ operators := by
  cases spelled with
  | identity identity =>
    have table : ∀ test ∈ [Comparison.is, .isNot], ∀ mode ∈ CaseMode.all,
        (String.ofList (identityText test mode), TokenKind.compare test mode) ∈ operators := by decide
    exact table _ (by simpa using identity) _ (CaseMode.mem_all _)
  | form found =>
    rw [String.ofList_toList]
    exact List.mem_append_left _ (List.mem_append_left _ (List.mem_of_find?_eq_some found))
  | @punctuation c _ _ _ entry =>
    exact List.mem_append_right _ (List.mem_map.mpr ⟨(c, _), mem_of_lookup entry, rfl⟩)
  | number | blob | identifier | env | register | unnamedRegister | option => simp at symbol

theorem not_operator_of_kind {value : String} (mark : kind = .eol ∨ kind = .eof) : (value, kind) ∉ operators := by
  have table : ∀ form ∈ operators, form.2 ≠ .eol ∧ form.2 ≠ .eof := by decide
  intro place
  obtain ⟨line, finish⟩ := table _ place
  exact mark.elim line finish

theorem covers_of_next (run : next s i = .ok token j) : Covers s i token j := by
  obtain ⟨ws, k, before, blanks, -, taken⟩ := gives_next s i token j run
  cases taken with
  | eof empty =>
    have past : s.size ≤ j := by
      have none := s.length_ahead j
      rw [empty, List.length_nil] at none
      omega
    exact {
      blanks := ⟨ws, before, blanks⟩
      position := rfl
      spans := .nil s j
      value := fun _ more => absurd rfl more
      line := by simp
      finish := fun _ => ⟨rfl, past⟩
      advances := fun more => absurd rfl more
      longest := fun table => absurd table (not_operator_of_kind (.inr rfl)) }
  | eol line =>
    exact {
      blanks := ⟨ws, before, blanks⟩
      position := rfl
      spans := line
      value := fun more => absurd rfl more
      line := fun _ => rfl
      finish := by simp
      advances := fun _ => Nat.lt_succ_self k
      longest := fun table => absurd table (not_operator_of_kind (.inl rfl)) }
  | @lexeme kind xs _ spans spelled =>
    obtain ⟨line, finish⟩ := spelled.kind_ne
    exact {
      blanks := ⟨ws, before, blanks⟩
      position := rfl
      spans := by rwa [written_of_spelling spelled]
      value := fun _ _ => spans.text.symm
      line := fun same => absurd same line
      finish := fun same => absurd same finish
      advances := by
        intro _
        have some := List.length_pos_iff.mpr spelled.ne_nil
        have stop : j = k + xs.length := spans.cursor
        show k < j
        omega
      longest := by
        intro table
        show IsLongest (String.ofList xs).toList (s.ahead k)
        rw [String.toList_ofList, spans.ahead]
        exact spelled.isLongest table }

theorem Covers.start_le (covers : Covers s i token j) : i ≤ token.position.cursor := by
  obtain ⟨ws, before, -⟩ := covers.blanks
  exact before.cursor ▸ Nat.le_add_right ..

/-- A token other than the end of input stands inside the buffer. -/
theorem Covers.lt_of_more (covers : Covers s i token j) (more : token.kind ≠ .eof) : i < j ∧ j ≤ s.size := by
  have start := covers.start_le
  have goes := covers.advances more
  have stop := covers.spans.cursor
  have rest := congrArg List.length covers.spans.ahead
  rw [List.length_append, s.length_ahead, s.length_ahead] at rest
  omega

theorem next_of_empty (h : s.ahead i = []) : next s i = .ok ⟨.eof, "<EOF>", s.position i⟩ i := by
  simp only [next, Scan.bind_of_ok (Scan.skipWhite_of_solid h rfl), Scan.bind_of_ok (Scan.here_apply s i),
    Scan.bind_of_ok (Scan.peek_of_ahead h)]
  rfl

/-- A token or a fault is read from every cursor, in the buffer and past its end. -/
theorem next_answers (s : Source) (i : Nat) : next s i ≠ .spent := by
  by_cases bound : i ≤ s.size
  · exact next_ne_spent bound
  · have empty : s.ahead i = [] := by
      rw [← List.length_eq_zero_iff, s.length_ahead]
      omega
    simp [next_of_empty empty]

end Token

/-! ### One token after another -/

namespace Tokenizer

/-- A token that was got, with the cursors before and after. -/
structure Call where
  start : Nat
  token : Token
  stop : Nat

/-- The text a call moved over, as its token tells it. -/
def Call.written (s : Source) (call : Call) : List Char :=
  s.between call.start call.token.position.cursor ++ call.token.written

/-- Getting tokens up to the end of input or up to a fault: the calls that gave a token, the fault if there was one, and
the cursor after the last token. -/
inductive Reads (s : Source) : Tokenizer → Nat → List Call → Option Fault → Nat → Prop where
  | finish {t : Tokenizer} {i j : Nat} {token : Token} (got : (t.get s i).1 = .ok token j) (eof : token.kind = .eof) :
      Reads s t i [⟨i, token, j⟩] none j
  | fault {t : Tokenizer} {i j : Nat} {e : Fault} (got : (t.get s i).1 = .fail e j) : Reads s t i [] (some e) i
  | more {t : Tokenizer} {i j k : Nat} {token : Token} {calls : List Call} {fault : Option Fault}
      (got : (t.get s i).1 = .ok token j) (more : token.kind ≠ .eof) (rest : Reads s (t.get s i).2 j calls fault k) :
      Reads s t i (⟨i, token, j⟩ :: calls) fault k

variable {t : Tokenizer} {calls : List Call} {fault : Option Fault}

theorem covers_of_get (faithful : t.Faithful s) (got : (t.get s i).1 = .ok token j) : Token.Covers s i token j :=
  Token.covers_of_next (by rw [← get_fst faithful, got])

/-- Tokens come to an end from every cursor. -/
theorem exists_reads (faithful : t.Faithful s) (i : Nat) : ∃ calls fault k, Reads s t i calls fault k := by
  -- Every token but the end of input leaves less of the buffer ahead.
  induction left : s.size - i using Nat.strong_induction_on generalizing t i with
  | _ n ih =>
    cases got : (t.get s i).1 with
    | ok token j =>
      by_cases eof : token.kind = .eof
      · exact ⟨_, _, _, .finish got eof⟩
      · obtain ⟨goes, bound⟩ := (covers_of_get faithful got).lt_of_more eof
        obtain ⟨calls, fault, k, rest⟩ := ih (s.size - j) (by omega) (faithful_get faithful i) j rfl
        exact ⟨_, _, _, .more got eof rest⟩
    | fail e j => exact ⟨_, _, _, .fault got⟩
    | spent =>
      rw [get_fst faithful] at got
      exact absurd got (Token.next_answers s i)

/-- What holds of every call of a run holds of its list of calls. -/
theorem Reads.covers (reads : Reads s t i calls fault k) (faithful : t.Faithful s) :
    ∀ call ∈ calls, Token.Covers s call.start call.token call.stop := by
  induction reads with
  | finish got eof => simpa using covers_of_get faithful got
  | fault got => simp
  | @more t i j k token calls fault got more rest ih =>
    simpa using ⟨covers_of_get faithful got, ih (faithful_get faithful i)⟩

theorem written_of_covers (covers : Token.Covers s i token j) :
    s.ahead i = Call.written s ⟨i, token, j⟩ ++ s.ahead j := by
  obtain ⟨ws, before, -⟩ := covers.blanks
  rw [Call.written, before.between, List.append_assoc, ← covers.spans.ahead, before.ahead]

/-- No character is lost: the calls tell the text up to where the run ended. -/
theorem Reads.lossless (reads : Reads s t i calls fault k) (faithful : t.Faithful s) :
    s.ahead i = calls.flatMap (Call.written s) ++ s.ahead k := by
  induction reads with
  | finish got eof => simpa using written_of_covers (covers_of_get faithful got)
  | fault got => simp
  | @more t i j k token calls fault got more rest ih =>
    rw [List.flatMap_cons, List.append_assoc, ← ih (faithful_get faithful i)]
    exact written_of_covers (covers_of_get faithful got)

/-- The end of input is got once, at the end of a run without a fault. -/
theorem Reads.ends (reads : Reads s t i calls fault k) :
    (∃ e, fault = some e ∧ ∀ call ∈ calls, call.token.kind ≠ .eof) ∨
      ∃ (before : List Call) (last : Call), fault = none ∧ calls = before ++ [last] ∧ last.token.kind = .eof ∧
        ∀ call ∈ before, call.token.kind ≠ .eof := by
  induction reads with
  | finish got eof => exact .inr ⟨[], _, rfl, rfl, eof, by simp⟩
  | fault got => exact .inl ⟨_, rfl, by simp⟩
  | more got more rest ih =>
    rcases ih with ⟨e, faulty, others⟩ | ⟨before, last, whole, rfl, eof, others⟩
    · exact .inl ⟨e, faulty, by simpa using ⟨more, others⟩⟩
    · exact .inr ⟨_ :: before, last, whole, rfl, eof, by simpa using ⟨more, others⟩⟩

/-- Each call takes something, so there are no more of them than characters ahead, and the end of input. -/
theorem Reads.length_le (reads : Reads s t i calls fault k) (faithful : t.Faithful s) :
    calls.length ≤ s.size - i + 1 := by
  induction reads with
  | finish got eof => simp
  | fault got => simp
  | @more t i j k token calls fault got more rest ih =>
    obtain ⟨goes, bound⟩ := (covers_of_get faithful got).lt_of_more more
    have fewer := ih (faithful_get faithful i)
    rw [List.length_cons]
    omega

/-- A tokenizer that was asked for tokens at some cursors of a buffer. -/
def after (s : Source) (cursors : List Nat) : Tokenizer :=
  cursors.foldl (fun t i => (t.get s i).2) {}

theorem faithful_after (s : Source) (cursors : List Nat) : (after s cursors).Faithful s := by
  have kept (t : Tokenizer) (faithful : t.Faithful s) :
      (cursors.foldl (fun t i => (t.get s i).2) t).Faithful s := by
    induction cursors generalizing t with
    | nil => exact faithful
    | cons i cursors ih => exact ih _ (faithful_get faithful i)
  exact kept {} (faithful_empty s)

/-- From every cursor tokens come to an end, and whatever the tokenizer has read before, they leave out nothing but
blanks, move on, and are the longest operators where they are operators. -/
theorem reads_lossless_and_longest (s : Source) (earlier : List Nat) (i : Nat) :
    (∃ calls fault k, Reads s (after s earlier) i calls fault k) ∧
      ∀ calls fault k, Reads s (after s earlier) i calls fault k →
        (∀ call ∈ calls, Token.Covers s call.start call.token call.stop) ∧
        s.ahead i = calls.flatMap (Call.written s) ++ s.ahead k ∧
        ((∃ e, fault = some e ∧ ∀ call ∈ calls, call.token.kind ≠ .eof) ∨
          ∃ before last, fault = none ∧ calls = before ++ [last] ∧ last.token.kind = .eof ∧
            ∀ call ∈ before, call.token.kind ≠ .eof) ∧
        calls.length ≤ s.size - i + 1 := by
  have faithful := faithful_after s earlier
  refine ⟨exists_reads faithful i, fun calls fault k reads => ?_⟩
  exact ⟨reads.covers faithful, reads.lossless faithful, reads.ends, reads.length_le faithful⟩

end Tokenizer

end VimScript
