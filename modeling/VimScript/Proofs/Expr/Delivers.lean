import VimScript.Target
import VimScript.Proofs.Token.Faults
import VimScript.Proofs.Tree.Expression

/-!
What expressions are read as. Every node of the tree of an expression is an expression again, and what is wrong
with an expression is lexical or grammatical.
-/

set_option autoImplicit false

namespace VimScript

/-- A cause that lies in the text alone, whatever blocks are open. -/
def Cause.Textual (cause : Cause) : Prop :=
  cause.kind = .lexical ∨ cause.kind = .grammar

namespace Expr

open Scan

abbrev ReadsExpression (x : Scan Node) : Prop :=
  x.Delivers Node.IsExpression Cause.Textual

def AllExpressions (ns : List Node) : Prop :=
  ∀ n ∈ ns, n.IsExpression

@[simp] theorem AllExpressions.nil : AllExpressions [] := by
  simp [AllExpressions]

@[simp] theorem AllExpressions.singleton {n : Node} : AllExpressions [n] ↔ n.IsExpression := by
  simp [AllExpressions]

theorem AllExpressions.concat {ns : List Node} {n : Node} (before : AllExpressions ns) (last : n.IsExpression) :
    AllExpressions (ns ++ [n]) := by
  intro m inside
  rcases List.mem_append.mp inside with old | new
  · exact before m old
  · rw [List.mem_singleton.mp new]
    exact last

variable {expr primary operand key : Scan Node}

theorem token_next : Token.next.Delivers (fun _ => True) Cause.Textual :=
  Token.next_delivers.mono (fun _ _ => trivial) fun _ => .inl

theorem token_peek : Token.peek.Delivers (fun _ => True) Cause.Textual :=
  Token.peek_delivers.mono (fun _ _ => trivial) fun _ => .inl

theorem unexpected_delivers {α : Type} {good : α → Prop} (token : Token) :
    (unexpected token : Scan α).Delivers good Cause.Textual :=
  .fail (.inr rfl) token.position

instance : Faultless afterAngleIsScriptId where
  delivers := .skip fun _ => .pure trivial

/-! ### Names -/

theorem nameParts_delivers (inner : ReadsExpression expr) :
    (nameParts expr).Delivers AllExpressions Cause.Textual := by
  refine .skip fun position => .skip fun ahead => ?_
  refine .through AllExpressions (.ite (fun _ => .skip fun _ => .pure ?_) fun _ => .pure ?_)
    fun scope known => .loop AllExpressions known fun parts known => .skip fun c => ?_
  · simp
  · simp
  · split
    · refine .skip fun _ => .skip fun position => inner.bind fun value known' => .skip fun _ => .skip fun c => ?_
      refine .ite (fun _ => .stop (.failHere (.inr rfl))) fun _ => .skip fun _ => .pure ?_
      exact known.concat (.curlyExpr known')
    · refine .ite (fun _ => .skip fun _ => .skip fun _ => .pure ?_) fun _ => .pure known
      exact known.concat (.leaf _ _)

theorem nameOfParts_isExpression {parts : List Node} (position : Position) (h : AllExpressions parts) :
    (nameOfParts position parts).IsExpression := by
  unfold nameOfParts
  split
  · simp
  · exact .curlyName h

theorem name_delivers (inner : ReadsExpression expr) : ReadsExpression (name expr) := by
  refine .skip fun _ => .skip fun position => (nameParts_delivers inner).bind fun parts known => .pure ?_
  exact nameOfParts_isExpression position known

/-! ### What follows an operand -/

theorem optional_delivers {stop : Prop} [Decidable stop] (inner : ReadsExpression expr) :
    (if stop then pure none else some <$> expr).Delivers (fun found => ∀ n ∈ found, n.IsExpression)
      Cause.Textual := by
  refine .ite (fun _ => .pure (by simp)) fun _ => .map (inner.weaken fun value known => ?_)
  simpa using known

theorem index_delivers (inner : ReadsExpression expr) {left : Node} (known : left.IsExpression)
    (position : Position) : ReadsExpression (index expr left position) := by
  refine .bind (token_peek.andThen fun _ => optional_delivers inner) fun lower below => ?_
  refine token_peek.andThen fun colon => ?_
  dsimp only
  split
  · refine token_next.andThen fun close => .ite (fun _ => .stop (unexpected_delivers close)) fun _ => .pure ?_
    exact .subscript known (by simpa using below)
  · refine token_next.andThen fun _ => .bind (token_peek.andThen fun _ => optional_delivers inner) fun upper above => ?_
    refine token_next.andThen fun close => .ite (fun _ => .stop (unexpected_delivers close)) fun _ => .pure ?_
    exact .slice known below above

theorem argumentList_delivers (inner : ReadsExpression expr) :
    (argumentList expr).Delivers (fun found => AllExpressions found.1) Cause.Textual := by
  refine token_peek.andThen fun first => .ite (fun _ => token_next.andThen fun _ => .pure (by simp)) fun _ => ?_
  refine .loop AllExpressions (by simp) fun args known => inner.bind fun arg known' => ?_
  refine token_next.andThen fun token => ?_
  have all := known.concat known'
  split
  · refine token_peek.andThen fun _ => .ite (fun _ => token_next.andThen fun _ => .pure all) fun _ => .pure all
  · exact .pure all
  · exact unexpected_delivers token

theorem arguments_delivers (inner : ReadsExpression expr) :
    (arguments expr).Delivers AllExpressions Cause.Textual := by
  refine (argumentList_delivers inner).bind fun found known => ?_
  exact .ite (fun _ => .stop (.fail (.inr rfl) _)) fun _ => .pure known

theorem member_delivers {left : Node} (known : left.IsExpression) (position : Position) :
    (member left position).Delivers (fun found => ∀ n ∈ found, n.IsExpression) Cause.Textual := by
  refine .skip fun c => .ite (fun _ => .skip fun _ => .skip fun _ => .skip fun _ => ?_) fun _ => .pure (by simp)
  refine .ite (fun _ => .pure (by simp)) fun _ => .pure ?_
  simpa using .dot known (.identifier _)

theorem method_delivers (inner : ReadsExpression expr) (operand : ReadsExpression primary) {left : Node}
    (known : left.IsExpression) : ReadsExpression (method expr primary left) := by
  refine operand.bind fun callee known' => token_next.andThen fun paren => ?_
  refine .ite (fun _ => .stop (.fail (.inr rfl) _)) fun _ => (arguments_delivers inner).bind fun args all => ?_
  exact .pure (.method known (.call known' all))

theorem postfixed_delivers (inner : ReadsExpression expr) (operand : ReadsExpression primary) :
    ReadsExpression (postfixed expr primary) := by
  refine operand.bind fun first known => .loop Node.IsExpression known fun left known => ?_
  refine .skip fun start => .skip fun c => token_next.andThen fun token => ?_
  split
  · exact (index_delivers inner known token.position).bind fun node known => .pure known
  · exact (method_delivers inner operand known).bind fun node known => .pure known
  · exact (arguments_delivers inner).bind fun args all => .pure (.call known all)
  · refine (member_delivers known token.position).bind fun found known' => ?_
    cases found with
    | none => exact .skip fun _ => .pure known
    | some node => exact .pure (known' node rfl)
  · exact .skip fun _ => .pure known

/-! ### Operands -/

theorem list_delivers (inner : ReadsExpression expr) (position : Position) :
    ReadsExpression (list expr position) := by
  refine token_peek.andThen fun close => .ite (fun _ => token_next.andThen fun _ => .pure ?_) fun _ => ?_
  · exact .list AllExpressions.nil
  refine .loop AllExpressions .nil fun items known => inner.bind fun item known' => ?_
  refine token_peek.andThen fun token => ?_
  have all := known.concat known'
  split
  · refine token_next.andThen fun _ => token_peek.andThen fun close => ?_
    exact .ite (fun _ => token_next.andThen fun _ => .pure (.list all)) fun _ => .pure all
  · exact token_next.andThen fun _ => .pure (.list all)
  · exact unexpected_delivers token

theorem parameter_delivers (params : List Node) (token : Token) :
    ReadsExpression (parameter params token) := by
  have accepted : ReadsExpression (Pure.pure (Node.identifier token.value token.position)) :=
    .pure (.identifier _)
  refine .ite (fun _ => .stop (.fail (.inr rfl) _)) fun _ => ?_
  refine .ite (fun _ => .stop (.fail (.inr rfl) _)) fun _ => .skip fun c => .ite (fun _ => ?_) fun _ => accepted
  refine token_peek.andThen fun after => ?_
  exact .ite (fun _ => .stop (.failHere (.inr rfl))) fun _ => accepted

theorem parameters_delivers (first : Token) :
    (parameters first).Delivers (fun found => ∀ params ∈ found, AllExpressions params) Cause.Textual := by
  have done {params : List Node} (known : AllExpressions params) :
      ∀ found ∈ some params, AllExpressions found := by
    simpa using known
  refine .loop (fun state => AllExpressions state.1) .nil fun (params, token) known => ?_
  dsimp only
  split
  · exact .pure (done known)
  · refine (parameter_delivers params token).bind fun param known' => token_next.andThen fun after => ?_
    have all := known.concat known'
    split
    · refine token_peek.andThen fun _ => .ite (fun _ => token_next.andThen fun _ => .pure (done all)) fun _ => ?_
      exact token_next.andThen fun _ => .pure all
    · exact .pure (done all)
    · exact .fail (.inr rfl) _
  · have all := known.concat (.identifier (p := token.position) token.value)
    refine token_peek.andThen fun after => .ite (fun _ => token_next.andThen fun _ => .pure (done all)) fun _ => ?_
    exact unexpected_delivers after
  · exact .pure (by simp)

theorem lambda_delivers (inner : ReadsExpression expr) (first : Token) (position : Position) :
    (lambda expr first position).Delivers (fun found => ∀ n ∈ found, n.IsExpression) Cause.Textual := by
  refine (parameters_delivers first).bind fun found known => ?_
  cases found with
  | none => exact .pure (by simp)
  | some params =>
    refine inner.bind fun body known' => token_next.andThen fun close => ?_
    refine .ite (fun _ => .stop (unexpected_delivers close)) fun _ => .pure ?_
    simpa using .lambda (known params rfl) known'

theorem literalKey_delivers : ReadsExpression literalKey :=
  (Token.literalKey_delivers.mono (fun _ _ => trivial) fun _ => .inl).andThen fun _ => .pure (.leaf _ _)

theorem dict_delivers (inner : ReadsExpression expr) (reader : ReadsExpression key) (start : Nat)
    (position : Position) : ReadsExpression (dict expr key start position) := by
  refine token_peek.andThen fun close => .ite (fun _ => token_next.andThen fun _ => .pure ?_) fun _ => ?_
  · exact .dict (by simp)
  refine .loop (fun entries => ∀ entry ∈ entries, entry.1.IsExpression ∧ entry.2.IsExpression) (by simp)
    fun entries known => reader.bind fun key known' => token_next.andThen fun colon => ?_
  split
  · refine .ite (fun _ => .skip fun _ => ?_) fun _ => unexpected_delivers colon
    exact (name_delivers inner).bind fun node known => .pure known
  · refine inner.bind fun value known'' => token_next.andThen fun token => ?_
    have all : ∀ entry ∈ entries ++ [(key, value)], entry.1.IsExpression ∧ entry.2.IsExpression := by
      intro entry inside
      rcases List.mem_append.mp inside with old | new
      · exact known entry old
      · rw [List.mem_singleton.mp new]
        exact ⟨known', known''⟩
    split
    · refine token_peek.andThen fun close => ?_
      exact .ite (fun _ => token_next.andThen fun _ => .pure (.dict all)) fun _ => .pure all
    · exact .pure (.dict all)
    · exact unexpected_delivers token
  · exact unexpected_delivers colon

theorem promisesLambda_delivers (first : Token) :
    (promisesLambda first).Delivers (fun _ => True) Cause.Textual := by
  unfold promisesLambda
  split
  · exact .pure trivial
  · exact .pure trivial
  · exact .pure trivial
  · exact token_peek.andThen fun _ => .pure trivial

theorem braces_delivers (inner : ReadsExpression expr) (start : Nat) (brace : Token) :
    ReadsExpression (braces expr start brace) := by
  refine .skip fun inside => token_next.andThen fun first => ?_
  refine .through (fun found => ∀ n ∈ found, n.IsExpression)
    ((promisesLambda_delivers first).andThen fun _ => ?_) fun found known => ?_
  · exact .ite (fun _ => lambda_delivers inner first brace.position) fun _ => .pure (by simp)
  · cases found with
    | some node => exact .pure (known node rfl)
    | none =>
      refine .skip fun _ => dict_delivers inner ?_ start brace.position
      split
      · exact literalKey_delivers
      · exact inner

theorem primary_delivers (inner : ReadsExpression expr) : ReadsExpression (Expr.primary expr) := by
  refine .skip fun start => token_next.andThen fun token => ?_
  have lexical {x : Scan String} (h : x.Delivers (fun _ => True) (·.kind = .lexical)) :
      x.Delivers (fun _ => True) Cause.Textual := h.mono (fun _ _ => trivial) fun _ => .inl
  split
  case h_1 | h_2 | h_3 | h_4 | h_5 => exact .pure (.leaf _ _)
  · exact .skip fun _ => (lexical Token.doubleQuoted_delivers).andThen fun _ => .pure (.leaf _ _)
  · exact .skip fun _ => (lexical Token.singleQuoted_delivers).andThen fun _ => .pure (.leaf _ _)
  · exact list_delivers inner token.position
  · exact braces_delivers inner start token
  · exact braces_delivers inner start token
  · refine inner.bind fun value known => token_next.andThen fun close => ?_
    exact .ite (fun _ => .stop (unexpected_delivers close)) fun _ => .pure known
  · refine .skip fun isName => .ite (fun _ => .skip fun _ => name_delivers inner) fun _ => ?_
    exact unexpected_delivers token
  case h_13 | h_14 | h_15 | h_16 | h_17 => exact .skip fun _ => name_delivers inner
  · exact unexpected_delivers token

/-! ### Levels -/

theorem chain_delivers (operator : TokenKind → Option BinaryOp) (inner : ReadsExpression operand) :
    ReadsExpression (chain operator operand) := by
  refine inner.bind fun first known => .loop Node.IsExpression known fun left known => ?_
  refine .skip fun start => token_next.andThen fun token => ?_
  split
  · exact inner.bind fun right known' => .pure (.binary _ known known')
  · exact .skip fun _ => .pure known

theorem comparison_delivers (inner : ReadsExpression operand) : ReadsExpression (comparison operand) := by
  refine inner.bind fun left known => .skip fun start => token_next.andThen fun token => ?_
  split
  · exact inner.bind fun right known' => .pure (.binary _ known known')
  · exact .skip fun _ => .pure known

theorem prefixed_delivers (inner : ReadsExpression operand) : ReadsExpression (prefixed operand) := by
  refine .andThen (.loop (fun _ => True) trivial fun ops _ => ?_) fun ops => inner.bind fun value known => .pure ?_
  · refine .skip fun start => token_next.andThen fun token => ?_
    split
    · exact .pure trivial
    · exact .skip fun _ => .pure trivial
  · induction ops generalizing value with
    | nil => exact known
    | cons op ops ih => exact ih _ (.unary _ known)

theorem ternary_delivers (inner : ReadsExpression expr) (cond : ReadsExpression operand) :
    ReadsExpression (ternary expr operand) := by
  refine cond.bind fun value known => .skip fun start => token_next.andThen fun token => ?_
  refine .ite (fun _ => ?_) fun _ => .skip fun _ => .pure known
  refine inner.bind fun yes known' => token_next.andThen fun colon => ?_
  refine .ite (fun _ => .stop (unexpected_delivers colon)) fun _ => inner.bind fun no known'' => ?_
  exact .pure (.ternary known known' known'')

theorem level_delivers (inner : ReadsExpression expr) : ReadsExpression (level expr) := by
  have operand := prefixed_delivers (postfixed_delivers inner (primary_delivers inner))
  have sum := chain_delivers TokenKind.additive? (chain_delivers TokenKind.multiplicative? operand)
  have conjunction := chain_delivers TokenKind.conjunction? (comparison_delivers sum)
  exact ternary_delivers inner (chain_delivers TokenKind.disjunction? conjunction)

theorem nested_delivers (depth : Nat) : ReadsExpression (nested depth) := by
  induction depth with
  | zero => exact .spent
  | succ depth ih => exact level_delivers ih

theorem read_delivers : ReadsExpression read :=
  .withSource (fun s => nested (s.size + 1)) fun s => nested_delivers (s.size + 1)

end Expr

namespace Target

open Scan VimScript.Expr

theorem base_delivers : ReadsExpression base := by
  refine .skip fun start => token_next.andThen fun token => ?_
  split
  case h_1 | h_2 | h_3 => exact .pure (.leaf _ _)
  case h_4 | h_5 => exact .skip fun _ => name_delivers Expr.read_delivers
  · refine .skip fun isName => .ite (fun _ => .skip fun _ => name_delivers Expr.read_delivers) fun _ => ?_
    exact unexpected_delivers token
  · exact unexpected_delivers token

theorem read_delivers : ReadsExpression read := by
  refine base_delivers.bind fun first known => .loop Node.IsExpression known fun left known => ?_
  refine .skip fun start => .skip fun c => token_next.andThen fun token => ?_
  split
  · exact (index_delivers Expr.read_delivers known token.position).bind fun node known => .pure known
  · refine (member_delivers known token.position).bind fun found known' => ?_
    cases found with
    | none => exact .skip fun _ => .pure known
    | some node => exact .pure (known' node rfl)
  · exact .skip fun _ => .pure known

end Target

end VimScript
