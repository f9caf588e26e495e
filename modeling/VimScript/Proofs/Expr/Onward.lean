import VimScript.Proofs.Expr.Lambdas
import VimScript.Proofs.Expr.Names
import VimScript.Proofs.Expr.Parts
import VimScript.Proofs.Expr.Shape
import VimScript.Proofs.Token.Extent

/-!
Reading an expression does not go back: it ends at or behind the cursor it starts from, though single tokens and the
braces of a name are put back on the way.
-/

set_option autoImplicit false

namespace VimScript

namespace Scan

variable {α β σ : Type} {low : Nat} {x y : Scan α} {f : α → Scan β}

/-- From a given cursor on, a scan does not go back before it. -/
def Since (low : Nat) (x : Scan α) : Prop :=
  ∀ s i, low ≤ i → x.Gives s i fun _ k => low ≤ k

theorem Since.pure {v : α} : Since low (Pure.pure v) :=
  fun _ _ later => .pure later

theorem Since.fail {cause : Cause} {position : Position} : Since low (Scan.fail cause position : Scan α) :=
  fun _ _ _ => .fail

theorem Since.failHere {cause : Cause} : Since low (Scan.failHere cause : Scan α) :=
  fun _ _ _ => .failHere

theorem Since.bind (first : Since low x) (second : ∀ a, Since low (f a)) : Since low (x >>= f) :=
  fun s i later => (first s i later).bind fun a k later' => second a s k later'

theorem Since.map {g : α → β} (h : Since low x) : Since low (g <$> x) :=
  fun s i later => Gives.map (h s i later)

theorem Since.ite {p : Prop} [Decidable p] (yes : Since low x) (no : Since low y) : Since low (if p then x else y) := by
  split
  · exact yes
  · exact no

theorem Since.peeking (x : Scan α) : Since low (Scan.peeking x) := by
  intro s i later v k run
  unfold Scan.peeking at run
  split at run
  · obtain ⟨-, rfl⟩ := Reply.ok.inj run
    exact later
  · cases run
  · cases run

/-- A cursor that is remembered may be gone back to. -/
theorem Since.tell {f : Nat → Scan β} (second : ∀ start, low ≤ start → Since low (f start)) : Since low (Scan.tell >>= f) :=
  fun s i later => second i later s i later

theorem Since.seek {start : Nat} (later : low ≤ start) : Since low (Scan.seek start) := by
  rintro s i - _ _ ⟨⟩
  exact later

theorem Since.loop {body : σ → Scan (Turn σ α)} {state : σ} (turn : ∀ state, Since low (body state)) :
    Since low (Scan.loop state body) := by
  intro s i later
  refine Gives.loop (fun _ k => low ≤ k) later fun state k later' => ?_
  exact (turn state s k later').mono fun turn l later'' => by cases turn <;> exact later''

/-- A scan that spans some text. -/
theorem Since.of_spans (h : ∀ s i, x.Gives s i fun _ k => i ≤ k) : Since low x :=
  fun s i later => (h s i).mono fun _ _ later' => Nat.le_trans later later'

theorem peekAt_since (n : Nat) : Since low (Scan.peekAt n) :=
  .of_spans fun _ i => by rintro _ _ ⟨⟩; exact Nat.le_refl i

theorem here_since : Since low Scan.here :=
  .of_spans fun _ i => by rintro _ _ ⟨⟩; exact Nat.le_refl i

theorem skip_since (n : Nat) : Since low (Scan.skip n) :=
  .of_spans fun _ i => by rintro _ _ ⟨⟩; exact Nat.le_add_right i n

theorem textSince_since (start : Nat) : Since low (Scan.textSince start) :=
  .of_spans fun _ i => by rintro _ _ ⟨⟩; exact Nat.le_refl i

theorem peekInLine_since : Since low Scan.peekInLine :=
  .of_spans fun _ i => by rintro _ _ ⟨⟩; exact Nat.le_refl i

theorem skipWhile_since (p : Char → Bool) : Since low (Scan.skipWhile p) := by
  refine .of_spans fun s i => (gives_skipWhile p s i).mono ?_
  rintro _ k ⟨xs, spans, -⟩
  exact spans.cursor ▸ Nat.le_add_right i xs.length

theorem takeClass_since (class_ : CharClass) : Since low (Scan.takeClass class_) := by
  refine .of_spans fun s i => (gives_takeClass class_ s i).mono ?_
  rintro _ k ⟨xs, -, spans, -⟩
  exact spans.cursor ▸ Nat.le_add_right i xs.length

theorem take_since (n : Nat) : Since low (Scan.take n) := by
  refine .of_spans fun s i => (gives_take n s i).mono ?_
  rintro _ k ⟨xs, -, spans, -⟩
  exact spans.cursor ▸ Nat.le_add_right i xs.length

theorem next_since : Since low Token.next := by
  refine .of_spans fun s i token k run => ?_
  have covers := Token.covers_of_next run
  exact Nat.le_trans covers.start_le (covers.spans.cursor ▸ Nat.le_add_right ..)

theorem peekToken_since : Since low Token.peek :=
  .peeking Token.next

end Scan

namespace Expr

open Scan

variable {low start : Nat} {expr primary operand key : Scan Node} {left : Node} {position : Position}

/-- A token of one kind, and then the rest. -/
theorem expect_since {α : Type} {kind : TokenKind} {token : Token} {x : Scan α} (h : Since low x) : Since low (do
    if token.kind != kind then unexpected token
    x) :=
  .ite .fail h

/-! ### Names -/

theorem nameTurn_since (inner : Since low expr) (parts : List Node) : Since low (nameTurn expr parts) := by
  refine .bind (peekAt_since 0) fun c => ?_
  split
  · refine .bind (skip_since 1) fun _ => here_since.bind fun _ => inner.bind fun _ => .bind (skipWhile_since _) fun _ => ?_
    exact .bind (peekAt_since 0) fun _ => .ite .failHere (.bind (skip_since 1) fun _ => .pure)
  · exact .ite (here_since.bind fun _ => (takeClass_since .name).bind fun _ => .pure) .pure

theorem nameParts_since (inner : Since low expr) : Since low (nameParts expr) := by
  refine here_since.bind fun _ => .bind (.peeking _) fun _ => .bind ?_ fun _ => .loop (nameTurn_since inner)
  exact .ite (.bind (take_since 5) fun _ => .pure) .pure

theorem name_since (inner : Since low expr) : Since low (name expr) :=
  .bind (skipWhile_since _) fun _ => here_since.bind fun _ => (nameParts_since inner).bind fun _ => .pure

/-! ### What follows an operand -/

theorem optional_since {stop : TokenKind} (inner : Since low expr) : Since low (Expr.optional stop expr) :=
  peekToken_since.bind fun _ => .ite .pure inner.map

theorem index_since (inner : Since low expr) : Since low (index expr left position) := by
  rw [index_eq]
  refine (optional_since inner).bind fun lower => peekToken_since.bind fun _ => ?_
  dsimp only
  split
  · exact next_since.bind fun _ => expect_since .pure
  · exact next_since.bind fun _ => (optional_since inner).bind fun _ => next_since.bind fun _ => expect_since .pure

theorem arguments_since (inner : Since low expr) : Since low (arguments expr) := by
  refine .bind ?_ fun _ => .ite .fail .pure
  refine peekToken_since.bind fun _ => .ite (next_since.bind fun _ => .pure) (.loop fun args => ?_)
  refine inner.bind fun _ => next_since.bind fun token => ?_
  split
  · exact peekToken_since.bind fun _ => .ite (next_since.bind fun _ => .pure) .pure
  · exact .pure
  · exact .fail

theorem member_since : Since low (member left position) := by
  refine .bind (peekAt_since 0) fun _ => .ite ?_ .pure
  exact here_since.bind fun _ => (takeClass_since .word).bind fun _ => .bind (peekAt_since 0) fun _ => .ite .pure .pure

theorem method_since (inner : Since low expr) (operand : Since low primary) : Since low (method expr primary left) :=
  operand.bind fun _ => next_since.bind fun _ => .ite .fail ((arguments_since inner).bind fun _ => .pure)

theorem postfixed_since (inner : Since low expr) (operand : Since low primary) : Since low (postfixed expr primary) := by
  refine operand.bind fun _ => .loop fun left => .tell fun start later => .bind (peekAt_since 0) fun _ =>
    next_since.bind fun token => ?_
  split
  · exact (index_since inner).bind fun _ => .pure
  · exact (method_since inner operand).bind fun _ => .pure
  · exact (arguments_since inner).bind fun _ => .pure
  · refine member_since.bind fun found => ?_
    split
    · exact .pure
    · exact (Since.seek later).bind fun _ => .pure
  · exact (Since.seek later).bind fun _ => .pure

/-! ### Operands -/

theorem list_since (inner : Since low expr) : Since low (list expr position) := by
  refine peekToken_since.bind fun _ => .ite (next_since.bind fun _ => .pure) (.loop fun _ => ?_)
  refine inner.bind fun _ => peekToken_since.bind fun token => ?_
  split
  · exact next_since.bind fun _ => peekToken_since.bind fun _ => .ite (next_since.bind fun _ => .pure) .pure
  · exact next_since.bind fun _ => .pure
  · exact .fail

/-- A string ends behind its opening quote. -/
theorem quoted_since {x : Scan String} {mark : Char} {q : List Char → Prop} {rest : List Char → List Char}
    (quotes : ∀ s i, x.Gives s i fun text j => ∃ k body, Scan.skipWhite s i = .ok () k ∧ text = String.ofList body ∧
      q body ∧ s.Spans k (mark :: rest body) j) : Since low x := by
  refine .of_spans fun s i => (quotes s i).mono ?_
  rintro _ j ⟨k, body, skip, -, -, spans⟩
  have blanks := (skipWhile_since _ s i (Nat.le_refl i)).of_ok skip
  have stop := spans.cursor
  omega

theorem singleQuoted_since : Since low Token.singleQuoted :=
  quoted_since Token.gives_singleQuoted

theorem doubleQuoted_since : Since low Token.doubleQuoted :=
  quoted_since Token.gives_doubleQuoted

theorem literalKey_since : Since low literalKey := by
  refine .bind ?_ fun _ => .pure
  refine .bind (skipWhile_since _) fun _ => .bind (peekAt_since 0) fun _ => .ite .failHere (.tell fun _ _ => ?_)
  refine .bind (skip_since 1) fun _ => here_since.bind fun _ => .bind (skipWhile_since _) fun _ => ?_
  exact peekInLine_since.bind fun _ => .ite .failHere (.bind (textSince_since _) fun _ => .pure)

theorem parameter_since (params : List Node) (token : Token) : Since low (parameter params token) := by
  refine .ite .fail (.ite .fail (.bind (peekAt_since 0) fun _ => .ite ?_ .pure))
  exact peekToken_since.bind fun _ => .ite .failHere .pure

theorem parameterTurn_since (params : List Node) (token : Token) : Since low (parameterTurn (params, token)) := by
  unfold parameterTurn
  dsimp only
  split
  · exact .pure
  · refine (parameter_since params token).bind fun _ => next_since.bind fun after => ?_
    split
    · exact peekToken_since.bind fun _ => .ite (next_since.bind fun _ => .pure) (next_since.bind fun _ => .pure)
    · exact .pure
    · exact .fail
  · exact peekToken_since.bind fun _ => .ite (next_since.bind fun _ => .pure) .fail
  · exact .pure

theorem lambda_since (inner : Since low expr) (first : Token) : Since low (lambda expr first position) := by
  refine .bind (.loop fun (params, token) => parameterTurn_since params token) fun found => ?_
  split
  · exact .pure
  · exact inner.bind fun _ => next_since.bind fun _ => expect_since .pure

theorem dict_since (inner : Since low expr) (keys : Since low key) (later : low ≤ start) :
    Since low (dict expr key start position) := by
  refine peekToken_since.bind fun _ => .ite (next_since.bind fun _ => .pure) (.loop fun _ => ?_)
  refine keys.bind fun _ => next_since.bind fun _ => ?_
  split
  · exact .ite ((Since.seek later).bind fun _ => (name_since inner).bind fun _ => .pure) .fail
  · refine inner.bind fun _ => next_since.bind fun _ => ?_
    split
    · exact peekToken_since.bind fun _ => .ite (next_since.bind fun _ => .pure) .pure
    · exact .pure
    · exact .fail
  · exact .fail

theorem promisesLambda_since (first : Token) : Since low (promisesLambda first) := by
  unfold promisesLambda
  split
  · exact .pure
  · exact .pure
  · exact .pure
  · exact peekToken_since.bind fun _ => .pure

theorem braces_since (inner : Since low expr) (later : low ≤ start) (brace : Token) :
    Since low (braces expr start brace) := by
  refine .tell fun inside within => next_since.bind fun first => .bind ?_ fun found => ?_
  · exact (promisesLambda_since first).bind fun _ => .ite (lambda_since inner first) .pure
  · split
    · exact .pure
    · refine (Since.seek within).bind fun _ => dict_since inner ?_ later
      exact .ite literalKey_since inner

theorem primary_since (inner : Since low expr) : Since low (Expr.primary expr) := by
  refine .tell fun start later => next_since.bind fun token => ?_
  have named : Since low (do Scan.seek start; name expr) := (Since.seek later).bind fun _ => name_since inner
  split
  case h_1 | h_2 | h_3 | h_4 | h_5 => exact .pure
  · exact (Since.seek later).bind fun _ => doubleQuoted_since.bind fun _ => .pure
  · exact (Since.seek later).bind fun _ => singleQuoted_since.bind fun _ => .pure
  · exact list_since inner
  case h_9 | h_10 => exact braces_since inner later token
  · exact inner.bind fun _ => next_since.bind fun _ => expect_since .pure
  · exact .bind (.bind (.peeking _) fun _ => .pure) fun _ => .ite named .fail
  case h_13 | h_14 | h_15 | h_16 | h_17 => exact named
  · exact .fail

/-! ### Levels -/

theorem chain_since (operator : TokenKind → Option BinaryOp) (inner : Since low operand) :
    Since low (chain operator operand) := by
  refine inner.bind fun _ => .loop fun left => .tell fun start later => next_since.bind fun _ => ?_
  split
  · exact inner.bind fun _ => .pure
  · exact (Since.seek later).bind fun _ => .pure

theorem comparison_since (inner : Since low operand) : Since low (comparison operand) := by
  refine inner.bind fun _ => .tell fun start later => next_since.bind fun _ => ?_
  split
  · exact inner.bind fun _ => .pure
  · exact (Since.seek later).bind fun _ => .pure

theorem prefixed_since (inner : Since low operand) : Since low (prefixed operand) := by
  refine .bind (.loop fun ops => .tell fun start later => next_since.bind fun _ => ?_) fun _ => inner.bind fun _ => .pure
  split
  · exact .pure
  · exact (Since.seek later).bind fun _ => .pure

theorem nested_since (depth : Nat) : Since low (nested depth) := by
  induction depth with
  | zero => rintro s i - v k ⟨⟩
  | succ depth ih =>
    have operands := prefixed_since (postfixed_since ih (primary_since ih))
    have sums := chain_since TokenKind.additive? (chain_since TokenKind.multiplicative? operands)
    have levels := chain_since TokenKind.disjunction? (chain_since TokenKind.conjunction? (comparison_since sums))
    refine levels.bind fun _ => .tell fun start later => next_since.bind fun _ => .ite ?_ ?_
    · exact ih.bind fun _ => next_since.bind fun _ => expect_since (ih.bind fun _ => .pure)
    · exact (Since.seek later).bind fun _ => .pure

end Expr

end VimScript
