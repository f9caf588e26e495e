import VimScript.Proofs.Overlap.Scan
import VimScript.Token.Lexer

/-!
Tokens of a shared text. Up to its end a line is read into the same tokens in both buffers, and every token but the
end of input moves the cursor on.
-/

set_option autoImplicit false

namespace VimScript.Token

open Overlap Scan
open SharedText (inside_succ lt_of_getElem?)

variable {γ δ : Type} {s t : Source} {w : Overlap s t} {p q : Nat} {c : Char} {post : γ → δ → Nat → Prop}

/-! ### Numbers -/

/-- Whether an exponent follows the fraction of a float. -/
def isExponent (mark first second : Option Char) : Bool :=
  (mark == some 'e' || mark == some 'E') &&
    (CharClass.digit.hasOpt first || ((first == some '-' || first == some '+') && CharClass.digit.hasOpt second))

/-- Where a character ends the line, those after it do not count. -/
theorem isExponent_congr {mark first second first' second' : Option Char} (char : w.text[p]? = mark)
    (same : w.Inside (p + 1) → first = first' ∧ first = w.text[p + 1]?)
    (same' : w.Inside (p + 2) → second = second' ∧ second = w.text[p + 2]?) :
    isExponent mark first second = isExponent mark first' second' := by
  by_cases exponent : mark = some 'e' ∨ mark = some 'E'
  · have inside : w.Inside (p + 1) := by
      rcases exponent with rfl | rfl
      · exact inside_succ char (by decide)
      · exact inside_succ char (by decide)
    obtain ⟨rfl, next⟩ := same inside
    by_cases signed : first = some '-' ∨ first = some '+'
    · have inside' : w.Inside (p + 2) := by
        rcases signed with rfl | rfl
        · exact inside_succ next.symm (by decide)
        · exact inside_succ next.symm (by decide)
      rw [(same' inside').1]
    · have unsigned : (first == some '-' || first == some '+') = false := by simpa using signed
      simp only [isExponent, unsigned, Bool.false_and]
  · have none : (mark == some 'e' || mark == some 'E') = false := by simpa using exponent
    simp only [isExponent, none, Bool.false_and]

theorem decimal_follows (char : w.text[p]? = some c) (digit : CharClass.digit.has c = true) :
    w.Follows p decimal decimal fun v u q => v = u ∧ w.Inside q ∧ p < q := by
  apply Follows.takeClassSome .digit char digit
  intro whole q inside₁ more
  apply Follows.peek inside₁
  intro c char
  apply Follows.peekAt 1
  intro d d' same
  have test : (c == some '.' && CharClass.digit.hasOpt d) = (c == some '.' && CharClass.digit.hasOpt d') := by
    by_cases point : c = some '.'
    · rw [(same (inside_succ (char.trans point) (by decide))).1]
    · have none : (c == some '.') = false := by simpa using point
      simp only [none, Bool.false_and]
  rw [test]
  apply Follows.ite
  · intro _
    apply Follows.skip inside₁
    intro point q₂ inside₂ later₂ _
    apply Follows.skip inside₂
    intro fraction q₃ inside₃ later₃ _
    apply Follows.peek inside₃
    intro mark char
    apply Follows.peekAt 1
    intro first first' same
    apply Follows.peekAt 2
    intro second second' same'
    have exponent := isExponent_congr char same same'
    unfold isExponent at exponent
    dsimp only
    rw [exponent]
    apply Follows.ite
    · intro _
      apply Follows.skip inside₃
      intro head q₄ inside₄ later₄ _
      apply Follows.skip inside₄
      intro digits q₅ inside₅ later₅ _
      exact .pure ⟨rfl, inside₅, by omega⟩
    · intro _
      exact .pure ⟨rfl, inside₃, by omega⟩
  · intro _
    exact .pure ⟨rfl, inside₁, more⟩

/-- Where the first of two characters has to be one of a pair, the second one counts only on the same line. -/
theorem marked_congr {mark second second' : Option Char} {a b : Char} (k : Option Char → Bool) (char : w.text[p]? = mark)
    (notLine : a ≠ '\n' ∧ b ≠ '\n') (same : w.Inside (p + 1) → second = second') :
    ((mark == some a || mark == some b) && k second) = ((mark == some a || mark == some b) && k second') := by
  by_cases found : mark = some a ∨ mark = some b
  · have inside : w.Inside (p + 1) := by
      rcases found with rfl | rfl
      · exact inside_succ char notLine.1
      · exact inside_succ char notLine.2
    rw [same inside]
  · have none : (mark == some a || mark == some b) = false := by simpa using found
    simp only [none, Bool.false_and]

instance : Steady takeBlobDigits where
  follows w p inside := by
    apply Follows.tell
    apply Follows.loop (fun _ _ q => w.Inside q ∧ p ≤ q) ⟨inside, Nat.le_refl p⟩ inside.le
    rintro - - q later ⟨inside', -⟩
    have finish : w.Follows q (do return Turn.done (← Scan.textSince (w.left + p)))
        (do return Turn.done (← Scan.textSince (w.right + p)))
        (w.Turned (fun (_ _ : Unit) q => w.Inside q ∧ p ≤ q) (w.Kept p Eq) q) := by
      apply Follows.textSince p inside'.le
      intro text
      exact .pure ⟨rfl, inside', later⟩
    apply Follows.peekRun 2 inside'
    intro ahead run
    split
    · rename_i a b pair
      obtain ⟨char, line⟩ := SharedText.first_of_run (run.symm.trans pair)
      apply Follows.ite
      · intro _
        apply Follows.takeSome char line (by decide)
        intro v r inside'' more
        exact .pure ⟨more, inside''.le, inside'', by omega⟩
      · intro _
        apply Follows.ite
        · intro _
          apply Follows.takeSome char line (by decide)
          intro v r inside'' more
          exact .pure ⟨more, inside''.le, inside'', by omega⟩
        · intro _
          exact .ite (fun _ => .failHere inside') fun _ => finish
    · exact finish

/-! ### Attempts at a token -/

/-- Kinds of token that names can be read from. -/
def opensName : TokenKind → Bool
  | .identifier | .braceOpen | .literalBraceOpen | .compare .is _ | .compare .isNot _ => true
  | _ => false

/-- What a token that is no end tells of its first character. -/
structure Suits (c : Char) (p q : Nat) (kind : TokenKind) : Prop where
  notEof : kind ≠ .eof
  notEol : kind ≠ .eol
  name : opensName kind = true → CharClass.name.has c = true ∨ c = '\x7b'
  angle : kind = .compare .smaller .byOption → c = '<' ∧ q = p + 1

/-- Kinds that tell nothing. -/
def isPlain (kind : TokenKind) : Bool :=
  !opensName kind && kind != .eof && kind != .eol && kind != .compare .smaller .byOption

theorem suits_of_plain {kind : TokenKind} (plain : isPlain kind = true) : Suits c p q kind := by
  simp only [isPlain, Bool.and_eq_true, Bool.not_eq_true', bne_iff_ne] at plain
  obtain ⟨⟨⟨name, notEof⟩, notEol⟩, angle⟩ := plain
  exact ⟨notEof, notEol, by simp [name], fun same => absurd same angle⟩

/-- An attempt that finds a token has moved on; one that finds none stands where it stood. -/
def Tried (w : Overlap s t) (p : Nat) (c : Char) :
    Option (TokenKind × String) → Option (TokenKind × String) → Nat → Prop
  | some (kind, text), found, q => found = some (kind, text) ∧ w.Inside q ∧ p < q ∧ Suits c p q kind
  | none, found, q => found = none ∧ q = p

theorem tried_some {kind : TokenKind} {text : String} (inside : w.Inside q) (more : p < q) (suits : Suits c p q kind) :
    Tried w p c (some (kind, text)) (some (kind, text)) q :=
  ⟨rfl, inside, more, suits⟩

theorem headed_follows {n : Nat} {kind : TokenKind} (x : Scan String) [Steady x] (char : w.text[p]? = some c)
    (line : c ≠ '\n') (positive : 0 < n) (plain : isPlain kind = true) :
    let x : Scan (Option (TokenKind × String)) := do return some (kind, (← Scan.take n) ++ (← x))
    w.Follows p x x (Tried w p c) := by
  apply Follows.takeSome char line positive
  intro head q inside more
  apply Follows.skip inside
  intro rest r inside' later _
  exact .pure (tried_some inside' (by omega) (suits_of_plain plain))

theorem number_follows (char : w.text[p]? = some c) (line : c ≠ '\n') :
    w.Follows p (number c) (number c) (Tried w p c) := by
  have inside : w.Inside p := .inl (lt_of_getElem? char)
  apply Follows.peekAt 1
  intro first first' same
  obtain ⟨rfl, next⟩ := same (inside_succ char line)
  apply Follows.peekAt 2
  intro second second' same'
  have values : w.Inside (p + 1 + 1) → second = second' := fun inside' => (same' inside').1
  simp only [Bool.and_assoc]
  rw [marked_congr CharClass.hex.hasOpt next.symm (by decide) values,
    marked_congr CharClass.binary.hasOpt next.symm (by decide) values,
    marked_congr (· != some '.') next.symm (by decide) values]
  apply Follows.ite
  · intro _
    exact headed_follows (Scan.takeClass .hex) char line (by decide) rfl
  · intro _
    apply Follows.ite
    · intro _
      exact headed_follows (Scan.takeClass .binary) char line (by decide) rfl
    · intro _
      apply Follows.ite
      · intro _
        exact headed_follows Scan.takeBlobDigits char line (by decide) rfl
      · intro _
        apply Follows.ite
        · intro digit
          apply (decimal_follows char digit).bind
          rintro digits _ q ⟨rfl, inside', more⟩ -
          exact .pure (tried_some inside' more (suits_of_plain rfl))
        · intro _
          exact .pure ⟨rfl, rfl⟩

theorem head_of_front {word : List Char} (solid : word ≠ []) (starts : word <+: w.text.drop p)
    (char : w.text[p]? = some c) : word.head? = some c := by
  obtain ⟨rest, whole⟩ := starts
  obtain ⟨d, ds, rfl⟩ := List.exists_cons_of_ne_nil solid
  rw [← char, ← List.head?_drop, ← whole]
  rfl

theorem identityTest_follows {test : Comparison} (identity : test = .is ∨ test = .isNot) (char : w.text[p]? = some c)
    (line : c ≠ '\n') : w.Follows p (identityTest test) (identityTest test) (Tried w p c) := by
  have plain : '\n' ∉ test.lexeme.toList ∧ test.lexeme.toList.head? = some 'i' ∧ test.lexeme.toList ≠ [] ∧ 0 < test.lexeme.length := by
    rcases identity with rfl | rfl <;> decide
  obtain ⟨line', first, solid, positive⟩ := plain
  apply Follows.lookingAt line' (.inl (lt_of_getElem? char))
  intro found word
  apply Follows.peekAt test.lexeme.length
  intro after after' same
  cases found with
  | false => exact .pure ⟨rfl, rfl⟩
  | true =>
    obtain ⟨starts, inside⟩ := word rfl
    obtain ⟨rfl, -⟩ := same inside
    have same : some 'i' = some c := first.symm.trans (head_of_front solid starts char)
    obtain rfl : 'i' = c := Option.some.inj same
    apply Follows.ite
    · intro _
      apply Follows.takeSome char line (by omega)
      intro text q inside' more
      refine .pure (tried_some inside' more ⟨by simp, by simp, fun _ => .inl (by decide), ?_⟩)
      rcases identity with rfl | rfl <;> simp
    · intro _
      exact .pure ⟨rfl, rfl⟩

/-- Two operators can be taken for the start of a name. -/
def PlainForm (form : String × TokenKind) : Prop :=
  '\n' ∉ form.1.toList ∧ form.1.toList ≠ [] ∧
    (isPlain form.2 = true ∨ form = ("<", .compare .smaller .byOption) ∨ form = ("#\x7b", .literalBraceOpen))

instance : DecidablePred PlainForm :=
  fun _ => inferInstanceAs (Decidable (_ ∧ _ ∧ _))

theorem operatorForms_plain : ∀ form ∈ operatorForms, PlainForm form := by
  decide +kernel

theorem firstForm_follows {forms : List (String × TokenKind)} (plain : ∀ form ∈ forms, PlainForm form)
    (char : w.text[p]? = some c) : w.Follows p (firstForm forms) (firstForm forms) (Tried w p c) := by
  induction forms with
  | nil => exact .pure ⟨rfl, rfl⟩
  | cons form forms ih =>
    obtain ⟨line, some, kind⟩ := plain form (by simp)
    apply Follows.lookingAt line (.inl (lt_of_getElem? char))
    intro found word
    apply Follows.ite
    · intro yes
      obtain ⟨starts, inside⟩ := word yes
      have positive : 0 < form.1.length := by
        rw [← String.length_toList]
        exact List.length_pos_iff.mpr some
      apply Follows.move
      refine .pure (tried_some inside (by omega) ?_)
      rcases kind with kind | rfl | rfl
      · exact suits_of_plain kind
      · have same : Option.some '<' = Option.some c := head_of_front (by decide) starts char
        exact ⟨by simp, by simp, by simp [opensName], fun _ => ⟨(Option.some.inj same).symm, rfl⟩⟩
      · have same : Option.some '#' = Option.some c := head_of_front (by decide) starts char
        refine ⟨by simp, by simp, fun _ => .inl ?_, by simp⟩
        rw [← Option.some.inj same]
        decide
    · intro _
      exact ih fun other place => plain other (by simp [place])

theorem sigil_follows (char : w.text[p]? = some c) (line : c ≠ '\n') :
    w.Follows p (sigil c) (sigil c) (Tried w p c) := by
  unfold sigil
  split
  · exact headed_follows (Scan.takeClass .word) char line (by decide) rfl
  · apply Follows.takeSome char line (by decide)
    intro text q inside more
    exact .pure (tried_some inside more (suits_of_plain rfl))
  · apply Follows.peekAt 1
    intro scope scope' same
    obtain ⟨rfl, next⟩ := same (inside_succ char line)
    apply Follows.peekAt 2
    intro colon colon' same'
    dsimp only
    rw [marked_congr (· == some ':') next.symm (by decide) fun inside' => (same' inside').1]
    exact headed_follows (Scan.takeClass .word) char line (by split <;> decide) rfl
  · exact .pure ⟨rfl, rfl⟩

theorem mem_of_lookup {kind : TokenKind} {forms : List (Char × TokenKind)} (found : forms.lookup c = some kind) :
    (c, kind) ∈ forms := by
  induction forms with
  | nil => simp at found
  | cons form forms ih =>
    rw [List.lookup_cons] at found
    split at found
    · rename_i same
      rw [← Option.some.inj found, eq_of_beq same]
      exact List.mem_cons_self
    · exact List.mem_cons_of_mem _ (ih found)

theorem punctuation_plain : ∀ form ∈ punctuation, isPlain form.2 = true ∨ form = ('\x7b', .braceOpen) := by
  decide

/-- What is found at a character that ends no line. -/
def Found (w : Overlap s t) (p : Nat) (c : Char) (v u : TokenKind × String) (q : Nat) : Prop :=
  u = v ∧ w.Inside q ∧ p < q ∧ Suits c p q v.1

/-- An attempt that finds a token is the last one. -/
theorem attempt {x : Scan (Option (TokenKind × String))} {f g : Scan (TokenKind × String)}
    (first : w.Follows p x x (Tried w p c)) (second : w.Follows p f g (Found w p c)) :
    w.Follows p (do if let some found ← x then return found else f) (do if let some found ← x then return found else g)
      (Found w p c) := by
  apply first.bind
  intro v u q met _
  cases v with
  | none =>
    obtain ⟨rfl, rfl⟩ := met
    exact second
  | some found =>
    obtain ⟨rfl, inside, more, suits⟩ := met
    exact .pure ⟨rfl, inside, more, suits⟩

theorem lexeme_follows (char : w.text[p]? = some c) (line : c ≠ '\n') :
    w.Follows p (lexeme c) (lexeme c) (Found w p c) := by
  apply attempt (number_follows char line)
  apply attempt (identityTest_follows (.inr rfl) char line)
  apply attempt (identityTest_follows (.inl rfl) char line)
  apply Follows.ite
  · intro start
    have letter : CharClass.name.has c = true :=
      CharClass.forall_of_table (p := fun c => CharClass.name.has c = true) (by decide) start
    apply Follows.takeClassSome .name char letter
    intro text q inside more
    exact .pure ⟨rfl, inside, more, by simp, by simp, fun _ => .inl letter, by simp⟩
  · intro _
    apply attempt (firstForm_follows operatorForms_plain char)
    apply attempt (sigil_follows char line)
    split
    · rename_i kind form
      apply Follows.move 1
      refine .pure ⟨rfl, inside_succ char line, by omega, ?_⟩
      rcases punctuation_plain _ (mem_of_lookup form) with plain | same
      · exact suits_of_plain plain
      · obtain ⟨rfl, rfl⟩ := Prod.mk.inj same
        exact ⟨by simp, by simp, fun _ => .inr rfl, by simp⟩
    · exact .failHere (.inl (lt_of_getElem? char))

/-! ### Tokens -/

/-- One token at a place of both buffers, up to its position. The end of a line is the only token after which the
buffers may differ. -/
structure Lexed (w : Overlap s t) (p : Nat) (kind : TokenKind) (value : String) (a b : Position) (q : Nat) : Prop where
  left : next s (w.left + p) = .ok ⟨kind, value, a⟩ (w.left + q)
  right : next t (w.right + p) = .ok ⟨kind, value, b⟩ (w.right + q)
  same : w.SamePosition a b
  inside : kind ≠ .eol → w.Inside q
  bound : q ≤ w.text.length
  later : p ≤ q
  more : kind ≠ .eof → p < q
  start : kind ≠ .eof → ∃ r c, Scan.skipWhite s (w.left + p) = .ok () (w.left + r) ∧ w.text[r]? = some c ∧
    (kind = .eol → c = '\n') ∧ (kind ≠ .eol → Suits c r q kind)

theorem next_follows (inside : w.Inside p) :
    w.Follows p next next fun v u q => u.kind = v.kind ∧ u.value = v.value ∧ w.SamePosition v.position u.position ∧
      (v.kind ≠ .eol → w.Inside q) ∧ q ≤ w.text.length ∧ p ≤ q ∧ (v.kind ≠ .eof → p < q) ∧
      (v.kind ≠ .eof → ∃ r c, Scan.skipWhite s (w.left + p) = .ok () (w.left + r) ∧ w.text[r]? = some c ∧
        (v.kind = .eol → c = '\n') ∧ (v.kind ≠ .eol → Suits c r q v.kind)) := by
  apply Follows.skip inside
  intro _ r inside' later blanks
  have same := w.places r inside'
  apply Follows.here
  apply Follows.peek inside'
  intro c char
  split
  · exact .pure ⟨rfl, rfl, same, fun _ => inside', inside'.le, later, fun plain => absurd rfl plain,
      fun plain => absurd rfl plain⟩
  · apply Follows.move 1
    have less := lt_of_getElem? char
    refine .pure ⟨rfl, rfl, same, fun plain => absurd rfl plain, less, ?_, fun _ => ?_, fun _ => ?_⟩
    · omega
    · omega
    · exact ⟨r, _, blanks, char, fun _ => rfl, fun plain => absurd rfl plain⟩
  · rename_i c line
    apply (lexeme_follows char fun same => line (by rw [same])).bind
    rintro ⟨kind, value⟩ _ q ⟨rfl, inside'', more, suits⟩ -
    refine .pure ⟨rfl, rfl, same, fun _ => inside'', inside''.le, ?_, fun _ => ?_, fun _ => ?_⟩
    · omega
    · omega
    · exact ⟨r, c, blanks, char, fun line => absurd line suits.notEol, fun _ => suits⟩

/-- Reading a token never runs out of its bound. -/
theorem next_ne_spent {i : Nat} (bound : i ≤ s.size) : next s i ≠ .spent := by
  have token := (next_follows (Overlap.inside_whole bound)).ne_spent
  rwa [show (Overlap.whole s).left + i = i from Nat.zero_add i] at token

theorem lexed_or_stop (inside : w.Inside p) :
    (∃ kind value a b q, Lexed w p kind value a b q) ∨ w.Follows p next next fun _ _ _ => False := by
  have token := next_follows inside
  cases run : next s (w.left + p) with
  | ok v j =>
    rw [Overlap.Follows, run] at token
    obtain ⟨⟨kind, value, b⟩, q, rfl, right, rfl, rfl, same, inside', bound, later, more, start⟩ := token
    exact .inl ⟨v.kind, v.value, v.position, b, q, run, right, same, inside', bound, later, more, start⟩
  | fail e j =>
    refine .inr ?_
    rw [Overlap.Follows, run] at token ⊢
    exact token
  | spent =>
    rw [Overlap.Follows, run] at token
    exact token.elim

variable {f : Token → Scan γ} {g : Token → Scan δ} {kind : TokenKind} {value : String} {a b : Position}

theorem taken_again (token : Lexed w p kind value a b q)
    (second : w.Follows q (f ⟨kind, value, a⟩) (g ⟨kind, value, b⟩) post) :
    w.Follows p (next >>= f) (next >>= g) post :=
  .after token.left token.right second

theorem peeked_again (token : Lexed w p kind value a b q)
    (second : w.Follows p (f ⟨kind, value, a⟩) (g ⟨kind, value, b⟩) post) :
    w.Follows p (peek >>= f) (peek >>= g) post :=
  .after (peeking_of_ok token.left) (peeking_of_ok token.right) second

theorem taken (inside : w.Inside p)
    (second : ∀ kind value a b q, Lexed w p kind value a b q → w.Follows q (f ⟨kind, value, a⟩) (g ⟨kind, value, b⟩) post) :
    w.Follows p (next >>= f) (next >>= g) post := by
  rcases lexed_or_stop inside with ⟨kind, value, a, b, q, token⟩ | stops
  · exact taken_again token (second kind value a b q token)
  · exact .stop stops

theorem peeked (inside : w.Inside p)
    (second : ∀ kind value a b q, Lexed w p kind value a b q → w.Follows p (f ⟨kind, value, a⟩) (g ⟨kind, value, b⟩) post) :
    w.Follows p (peek >>= f) (peek >>= g) post := by
  rcases lexed_or_stop inside with ⟨kind, value, a, b, q, token⟩ | stops
  · exact peeked_again token (second kind value a b q token)
  · apply Follows.stop
    exact stops.peeking.mono fun _ _ _ ⟨_, _, never⟩ => never

/-! ### Strings and literal keys -/

/-- A value read from the line, equal on both sides, and at least one character for it. -/
def Passed {α : Type} (w : Overlap s t) (p : Nat) (v u : α) (q : Nat) : Prop :=
  v = u ∧ w.Inside q ∧ p < q

/-- A quoted string starts with its quote, on the line. -/
theorem opened {α : Type} {quote : Char} (line : quote ≠ '\n') {body : Nat → Scan α} (inside : w.Inside p)
    (second : ∀ q, w.Inside q → p < q → w.Follows q (body (w.left + q)) (body (w.right + q)) (Passed w p)) :
    let x : Scan α := do
      Scan.skipWhite
      let c ← Scan.peek
      if c != some quote then
        Scan.failHere (.unexpectedCharacter c)
      Scan.skip 1
      body (← Scan.tell)
    w.Follows p x x (Passed w p) := by
  apply Follows.skip inside
  intro _ r inside' later _
  apply Follows.peek inside'
  intro c char
  apply Follows.ite
  · intro _
    exact .stop (.failHere inside')
  · intro opens
    have opens : c = some quote := by simpa using opens
    apply Follows.move 1
    apply Follows.tell
    exact second (r + 1) (inside_succ (char.trans opens) line) (by omega)

theorem singleQuoted_follows (inside : w.Inside p) : w.Follows p singleQuoted singleQuoted (Passed w p) := by
  apply opened (by decide) inside
  intro start inside' more
  apply Follows.loop (fun _ _ q => w.Inside q) inside' inside'.le
  rintro - - q later inside''
  apply Follows.peekInLine inside''
  intro d inLine
  split
  · exact .failHere inside''
  · obtain ⟨char, line⟩ := (inLine _).mp rfl
    have close := inside_succ char line
    apply Follows.tell
    apply Follows.move 1
    apply Follows.peek close
    intro e char'
    apply Follows.ite
    · intro again
      have doubled : w.Inside (q + 1 + 1) := inside_succ (char'.trans (by simpa using again)) line
      apply Follows.move 1
      exact .pure ⟨by omega, doubled.le, doubled⟩
    · intro _
      apply Follows.textBetween start inside''.le
      intro text
      exact .pure ⟨rfl, close, by omega⟩
  · obtain ⟨char, line⟩ := (inLine _).mp rfl
    have next := inside_succ char line
    apply Follows.move 1
    exact .pure ⟨by omega, next.le, next⟩

theorem doubleQuoted_follows (inside : w.Inside p) : w.Follows p doubleQuoted doubleQuoted (Passed w p) := by
  apply opened (by decide) inside
  intro start inside' more
  apply Follows.loop (fun _ _ q => w.Inside q) inside' inside'.le
  rintro - - q later inside''
  apply Follows.peekInLine inside''
  intro d inLine
  split
  · exact .failHere inside''
  · obtain ⟨char, line⟩ := (inLine _).mp rfl
    apply Follows.tell
    apply Follows.move 1
    apply Follows.textBetween start inside''.le
    intro text
    exact .pure ⟨rfl, inside_succ char line, by omega⟩
  · obtain ⟨char, line⟩ := (inLine _).mp rfl
    have escape := inside_succ char line
    apply Follows.move 1
    apply Follows.peekInLine escape
    intro e inLine'
    split
    · exact .failHere escape
    · obtain ⟨char', line'⟩ := (inLine' _).mp rfl
      have next := inside_succ char' line'
      apply Follows.move 1
      exact .pure ⟨by omega, next.le, next⟩
  · obtain ⟨char, line⟩ := (inLine _).mp rfl
    have next := inside_succ char line
    apply Follows.move 1
    exact .pure ⟨by omega, next.le, next⟩

theorem literalKey_follows (inside : w.Inside p) :
    w.Follows p literalKey literalKey fun v u q => v.1 = u.1 ∧ w.SamePosition v.2 u.2 ∧ w.Inside q ∧ p < q := by
  apply Follows.skip inside
  intro _ r inside' later _
  apply Follows.peek inside'
  intro c char
  apply Follows.ite
  · intro _
    exact .stop (.failHere inside')
  · intro first
    obtain ⟨d, rfl, key⟩ : ∃ d, c = some d ∧ isKeyChar d = true := by
      simpa [Option.any_eq_true] using first
    have line : d ≠ '\n' := fun same => by simp [same] at key; exact absurd key (by decide)
    have second := inside_succ char line
    apply Follows.tell
    apply Follows.move 1
    have same := w.places _ second
    apply Follows.here
    apply Follows.skip second
    intro _ q inside'' later' _
    apply Follows.skip inside''
    intro e q' inside₃ later₃ _
    apply Follows.ite
    · intro _
      exact .stop (.failHere inside₃)
    · intro _
      apply Follows.textSince r inside₃.le
      intro text
      exact .pure ⟨rfl, same, inside₃, by omega⟩

end VimScript.Token
