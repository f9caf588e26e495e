import VimScript.Proofs.Expr.Delivers
import VimScript.Proofs.Tree.Occurs

/-!
The number of arguments. Calls are read with a limit on it, wherever they stand; a reader without the limit shows what
the limit is to blame for, and that it changes nothing else.
-/

set_option autoImplicit false

namespace VimScript

/-! ### A reader that refuses what another one takes -/

namespace Scan

variable {α β σ : Type} {cause : Cause} {good mid : α → Prop} {final : β → Prop} {x y x' y' : Scan α}
  {f g : α → Scan β}

/-- Unless `x` refuses the text for the given cause, it does what `y` does, and any value of it is good. -/
def Restricts (x : Scan α) (cause : Cause) (good : α → Prop) (y : Scan α) : Prop :=
  ∀ s i, (∃ position j, x s i = .fail ⟨cause, position⟩ j) ∨ x s i = y s i ∧ ∀ a j, x s i = .ok a j → good a

theorem Restricts.of_ok {s : Source} {i j : Nat} {a : α} (h : x.Restricts cause good y) (run : x s i = .ok a j) :
    good a := by
  obtain ⟨_, _, refused⟩ | ⟨-, known⟩ := h s i
  · cases run.symm.trans refused
  · exact known a j run

theorem Restricts.of_delivers {bad : Cause → Prop} (h : x.Delivers good bad) : x.Restricts cause good x :=
  fun _ _ => .inr ⟨rfl, fun _ _ run => h.of_ok run⟩

theorem Restricts.self (h : x.Restricts cause good y) : x.Restricts cause good x :=
  fun _ _ => .inr ⟨rfl, fun _ _ => h.of_ok⟩

theorem Restricts.weaken (h : x.Restricts cause mid y) (value : ∀ a, mid a → good a) : x.Restricts cause good y :=
  fun s i => (h s i).imp id fun same => ⟨same.1, fun a j run => value a (same.2 a j run)⟩

theorem Restricts.bind (first : x.Restricts cause mid y) (second : ∀ a, mid a → (f a).Restricts cause final (g a)) :
    (x >>= f).Restricts cause final (y >>= g) := by
  intro s i
  rw [bind_apply, bind_apply]
  obtain ⟨position, j, refused⟩ | ⟨same, known⟩ := first s i
  · exact .inl ⟨position, j, by rw [refused]⟩
  · rw [← same]
    cases run : x s i with
    | ok a j => exact second a (known a j run) s j
    | fail e j => exact .inr ⟨rfl, by simp⟩
    | spent => exact .inr ⟨rfl, by simp⟩

theorem Restricts.through (mid : α → Prop) (first : x.Restricts cause mid y)
    (second : ∀ a, mid a → (f a).Restricts cause final (g a)) : (x >>= f).Restricts cause final (y >>= g) :=
  first.bind second

/-- Both do the same first. -/
theorem Restricts.after (second : ∀ a, (f a).Restricts cause final (g a)) :
    (x >>= f).Restricts cause final (x >>= g) :=
  (of_delivers (Delivers.any x)).bind fun a _ => second a

theorem Restricts.pure {a : α} (h : good a) : (Pure.pure a : Scan α).Restricts cause good (Pure.pure a) :=
  fun _ _ => .inr ⟨rfl, fun _ _ run => (Reply.ok.inj run).1 ▸ h⟩

theorem Restricts.fail (other : Cause) (position : Position) :
    (Scan.fail other position : Scan α).Restricts cause good (Scan.fail other position) :=
  fun _ _ => .inr ⟨rfl, nofun⟩

theorem Restricts.failHere (other : Cause) :
    (Scan.failHere other : Scan α).Restricts cause good (Scan.failHere other) :=
  fun _ _ => .inr ⟨rfl, nofun⟩

/-- After a scan that always fails nothing is run. -/
theorem Restricts.stop (first : x.Restricts cause (fun _ => False) x) :
    (x >>= f).Restricts cause final (x >>= g) :=
  first.bind fun _ never => never.elim

theorem Restricts.refuse {z : Scan β} (position : Position) :
    (Scan.fail cause position >>= f).Restricts cause final z :=
  fun _ i => .inl ⟨position, i, rfl⟩

theorem Restricts.map {h : α → β} (inner : x.Restricts cause (fun a => final (h a)) y) :
    (h <$> x).Restricts cause final (h <$> y) :=
  inner.bind fun _ kept => .pure kept

theorem Restricts.ite {p : Prop} [Decidable p] (yes : p → x.Restricts cause good y)
    (no : ¬p → x'.Restricts cause good y') :
    (if p then x else x').Restricts cause good (if p then y else y') := by
  split
  · exact yes ‹_›
  · exact no ‹_›

theorem Restricts.loop {body body' : σ → Scan (Turn σ α)} {state : σ} (keeps : σ → Prop) (start : keeps state)
    (step : ∀ state, keeps state → (body state).Restricts cause (Turn.Meets keeps good) (body' state)) :
    (Scan.loop state body).Restricts cause good (Scan.loop state body') := by
  intro s i
  simp only [Scan.loop]
  generalize s.size + 2 = n
  -- Up to a refusal both go round with the same states, which are all kept good.
  induction n generalizing state i with
  | zero => exact .inr ⟨rfl, fun _ _ run => by cases run⟩
  | succ n ih =>
    simp only [repeatUpTo]
    obtain ⟨position, j, refused⟩ | ⟨same, known⟩ := step state start s i
    · exact .inl ⟨position, j, by rw [refused]⟩
    · rw [← same]
      cases run : body state s i with
      | ok turn j =>
        have met := known turn j run
        cases turn with
        | again next => exact ih met j
        | done a => exact .inr ⟨rfl, fun _ _ same => (Reply.ok.inj same).1 ▸ met⟩
      | fail e j => exact .inr ⟨rfl, by simp⟩
      | spent => exact .inr ⟨rfl, by simp⟩

end Scan

/-! ### Trees -/

namespace Node

variable {limit : Nat} {position : Position} {kind : Kind Node} {root n : Node} {above : List Node}

/-- No call in a tree has more arguments than the limit. -/
inductive CallsWithin (limit : Nat) : Node → Prop where
  | intro {n : Node} (few : ∀ callee args, n.kind = .call callee args → args.length ≤ limit)
      (children : ∀ c ∈ n.children, CallsWithin limit c) : CallsWithin limit n

theorem CallsWithin.few {callee : Node} {args : List Node} (h : n.CallsWithin limit)
    (call : n.kind = .call callee args) : args.length ≤ limit := by
  cases h with
  | intro few children => exact few callee args call

theorem CallsWithin.children (h : n.CallsWithin limit) : ∀ c ∈ n.children, c.CallsWithin limit := by
  cases h with
  | intro few children => exact children

@[simp] theorem callsWithin_mk : (mk position kind).CallsWithin limit ↔
    (∀ callee args, kind = .call callee args → args.length ≤ limit) ∧ ∀ c ∈ kind.children, c.CallsWithin limit :=
  ⟨fun h => ⟨fun _ _ => h.few, h.children⟩, fun ⟨few, children⟩ => .intro few children⟩

theorem callsWithin_leaf (sort : Leaf) (text : String) : (leaf sort text position).CallsWithin limit := by
  simp [leaf, Kind.children]

theorem Occurs.callsWithin (place : root.Occurs above n) (whole : root.CallsWithin limit) : n.CallsWithin limit := by
  induction place with
  | root => exact whole
  | child _ below ih => exact ih.children _ below

end Node

namespace Expr

open Scan

/-! ### Without the limit -/

/-- The arguments of a call after its parenthesis, however many. -/
def anyArguments (expr : Scan Node) : Scan (List Node) := do
  let (args, _) ← argumentList expr
  return args

def methodWith (args : Scan (List Node)) (primary : Scan Node) (left : Node) : Scan Node := do
  let callee ← primary
  let paren ← Token.next
  if paren.kind != .parenOpen then
    Scan.fail .methodWithoutCall paren.position
  let args ← args
  return .mk paren.position (.method left (.mk paren.position (.call callee args)))

/-- An operand and all that follows it, by means of a reader for the arguments of calls. -/
def postfixedWith (args : Scan (List Node)) (expr primary : Scan Node) : Scan Node := do
  let first ← primary
  Scan.loop first fun left => do
    let start ← Scan.tell
    let adjacent := !CharClass.white.hasOpt (← Scan.peek)
    let token ← Token.next
    match token.kind, adjacent with
    | .bracketOpen, true => return .again (← index expr left token.position)
    | .arrow, _ => return .again (← methodWith args primary left)
    | .parenOpen, _ =>
      let args ← args
      return .again (.mk token.position (.call left args))
    | .dot, true =>
      match ← member left token.position with
      | some node => return .again node
      | none =>
        Scan.seek start
        return .done left
    | _, _ =>
      Scan.seek start
      return .done left

/-- All levels above a reader for operands. -/
def levelOver (expr operand : Scan Node) : Scan Node :=
  ternary expr (chain TokenKind.disjunction? (chain TokenKind.conjunction? (comparison
    (chain TokenKind.additive? (chain TokenKind.multiplicative? (prefixed operand))))))

def nestedWith (args : Scan Node → Scan (List Node)) : Nat → Scan Node
  | 0 => fun _ _ => .spent
  | depth + 1 =>
    let expr := nestedWith args depth
    levelOver expr (postfixedWith (args expr) expr (primary expr))

/-- The expression at the cursor, by means of a reader for the arguments of calls. -/
def readWith (args : Scan Node → Scan (List Node)) : Scan Node :=
  fun s i => nestedWith args (s.size + 1) s i

theorem nested_eq_nestedWith (depth : Nat) : nested depth = nestedWith arguments depth := by
  induction depth with
  | zero => rfl
  | succ depth ih =>
    rw [nested, nestedWith, ← ih]
    rfl

theorem read_eq_readWith : read = readWith arguments := by
  funext s i
  rw [read, readWith, nested_eq_nestedWith]

/-! ### The limit in the readers of expressions -/

abbrev Limits (x y : Scan Node) : Prop :=
  x.Restricts .tooManyArguments (Node.CallsWithin maxArguments) y

def AllWithin (ns : List Node) : Prop :=
  ∀ n ∈ ns, n.CallsWithin maxArguments

theorem AllWithin.nil : AllWithin [] := by
  simp [AllWithin]

theorem AllWithin.concat {ns : List Node} {n : Node} (before : AllWithin ns) (last : n.CallsWithin maxArguments) :
    AllWithin (ns ++ [n]) := by
  simpa [AllWithin, or_imp, forall_and] using ⟨before, last⟩

variable {expr expr' primary primary' operand operand' key key' : Scan Node} {left : Node}

theorem nameParts_limits (inner : Limits expr expr') :
    (nameParts expr).Restricts .tooManyArguments AllWithin (nameParts expr') := by
  refine .after fun position => .after fun ahead => ?_
  refine .through AllWithin (.ite (fun _ => .after fun _ => .pure ?_) fun _ => .pure .nil)
    fun scope known => .loop AllWithin known fun parts known => .after fun c => ?_
  · exact AllWithin.nil.concat (Node.callsWithin_leaf _ _)
  · split
    · refine .after fun _ => .after fun position => inner.bind fun value known' => .after fun _ => .after fun c => ?_
      refine .ite (fun _ => .stop (.failHere _)) fun _ => .after fun _ => .pure ?_
      exact known.concat (by simpa [Kind.children] using known')
    · refine .ite (fun _ => .after fun _ => .after fun _ => .pure ?_) fun _ => .pure known
      exact known.concat (Node.callsWithin_leaf _ _)

theorem nameOfParts_within {parts : List Node} (position : Position) (known : AllWithin parts) :
    (nameOfParts position parts).CallsWithin maxArguments := by
  unfold nameOfParts
  split
  · exact Node.callsWithin_leaf _ _
  · exact Node.callsWithin_mk.mpr ⟨nofun, known⟩

theorem name_limits (inner : Limits expr expr') : Limits (name expr) (name expr') := by
  refine .after fun _ => .after fun position => (nameParts_limits inner).bind fun parts known => .pure ?_
  exact nameOfParts_within position known

theorem optional_limits {stop : Prop} [Decidable stop] (inner : Limits expr expr') :
    (if stop then Pure.pure none else some <$> expr : Scan (Option Node)).Restricts .tooManyArguments
      (fun found => ∀ n ∈ found, n.CallsWithin maxArguments) (if stop then Pure.pure none else some <$> expr') := by
  refine .ite (fun _ => .pure (by simp)) fun _ => .map (inner.weaken fun value known => ?_)
  simpa using known

theorem index_limits (inner : Limits expr expr') (known : left.CallsWithin maxArguments) (position : Position) :
    Limits (index expr left position) (index expr' left position) := by
  refine .bind (.after fun _ => optional_limits inner) fun lower below => .after fun colon => ?_
  dsimp only
  split
  · refine .after fun close => .ite (fun _ => .stop (.fail _ _)) fun _ => .pure ?_
    have below := below _ rfl
    simpa [Kind.children] using ⟨known, below⟩
  · refine .after fun _ => .bind (.after fun _ => optional_limits inner) fun upper above => ?_
    refine .after fun close => .ite (fun _ => .stop (.fail _ _)) fun _ => .pure ?_
    simpa [Kind.children, or_imp, forall_and] using ⟨known, below, above⟩

theorem argumentList_limits (inner : Limits expr expr') :
    (argumentList expr).Restricts .tooManyArguments (fun found => AllWithin found.1) (argumentList expr') := by
  refine .after fun first => .ite (fun _ => .after fun _ => .pure .nil) fun _ => ?_
  refine .loop AllWithin .nil fun args known => inner.bind fun arg known' => .after fun token => ?_
  have all := known.concat known'
  split
  · exact .after fun _ => .ite (fun _ => .after fun _ => .pure all) fun _ => .pure all
  · exact .pure all
  · exact .fail _ _

theorem member_limits (known : left.CallsWithin maxArguments) (position : Position) :
    (member left position).Restricts .tooManyArguments (fun found => ∀ n ∈ found, n.CallsWithin maxArguments)
      (member left position) := by
  refine .after fun c => .ite (fun _ => .after fun _ => .after fun _ => .after fun _ => ?_) fun _ => .pure (by simp)
  refine .ite (fun _ => .pure (by simp)) fun _ => .pure ?_
  have name (text : String) (p : Position) : (Node.identifier text p).CallsWithin maxArguments :=
    Node.callsWithin_leaf _ _
  simpa [Kind.children] using ⟨known, name _ _⟩

section Postfix

variable {args args' : Scan (List Node)}

/-- The arguments read by `args` are within the limit. -/
abbrev LimitsArguments (args args' : Scan (List Node)) : Prop :=
  args.Restricts .tooManyArguments (fun found => found.length ≤ maxArguments ∧ AllWithin found) args'

/-- This is where the limit is looked at. -/
theorem arguments_limits (inner : Limits expr expr') : LimitsArguments (arguments expr) (anyArguments expr') := by
  refine (argumentList_limits inner).bind fun (args, last) known => ?_
  dsimp only
  -- A trailing comma, a parenthesis and an empty list all come out here, so one test covers them.
  by_cases many : args.length > maxArguments
  · rw [if_pos many]
    exact .refuse last.position
  · rw [if_neg many]
    exact .pure ⟨by omega, known⟩

theorem call_within {found : List Node} (position : Position) (known : left.CallsWithin maxArguments)
    (few : found.length ≤ maxArguments ∧ AllWithin found) :
    (Node.mk position (.call left found)).CallsWithin maxArguments := by
  refine .intro ?_ (List.forall_mem_cons.mpr ⟨known, few.2⟩)
  rintro _ _ ⟨⟩
  exact few.1

theorem methodWith_limits (few : LimitsArguments args args') (operand : Limits primary primary')
    (known : left.CallsWithin maxArguments) :
    Limits (methodWith args primary left) (methodWith args' primary' left) := by
  refine operand.bind fun callee known' => .after fun paren => ?_
  refine .ite (fun _ => .stop (.fail _ _)) fun _ => few.bind fun found few => .pure ?_
  have call := call_within paren.position known' few
  exact .intro nofun (List.forall_mem_cons.mpr ⟨known, List.forall_mem_singleton.mpr call⟩)

theorem postfixedWith_limits (few : LimitsArguments args args') (inner : Limits expr expr')
    (operand : Limits primary primary') :
    Limits (postfixedWith args expr primary) (postfixedWith args' expr' primary') := by
  refine operand.bind fun first known => .loop (Node.CallsWithin maxArguments) known fun left known => ?_
  refine .after fun start => .after fun c => .after fun token => ?_
  split
  · exact (index_limits inner known token.position).bind fun node known => .pure known
  · exact (methodWith_limits few operand known).bind fun node known => .pure known
  · exact few.bind fun found few => .pure (call_within token.position known few)
  · refine (member_limits known token.position).bind fun found known' => ?_
    cases found with
    | none => exact .after fun _ => .pure known
    | some node => exact .pure (known' node rfl)
  · exact .after fun _ => .pure known

end Postfix

theorem list_limits (inner : Limits expr expr') (position : Position) :
    Limits (list expr position) (list expr' position) := by
  have made {items : List Node} (all : AllWithin items) : (Node.mk position (.list items)).CallsWithin maxArguments :=
    Node.callsWithin_mk.mpr ⟨nofun, all⟩
  refine .after fun close => .ite (fun _ => .after fun _ => .pure (made .nil)) fun _ => ?_
  refine .loop AllWithin .nil fun items known => inner.bind fun item known' => .after fun token => ?_
  have all := known.concat known'
  split
  · exact .after fun _ => .after fun _ => .ite (fun _ => .after fun _ => .pure (made all)) fun _ => .pure all
  · exact .after fun _ => .pure (made all)
  · exact .fail _ _

theorem parameter_limits (params : List Node) (token : Token) :
    Limits (parameter params token) (parameter params token) := by
  have accepted : Limits (Pure.pure (Node.identifier token.value token.position)) (Pure.pure _) :=
    .pure (Node.callsWithin_leaf _ _)
  refine .ite (fun _ => .stop (.fail _ _)) fun _ => .ite (fun _ => .stop (.fail _ _)) fun _ => .after fun c => ?_
  exact .ite (fun _ => .after fun after => .ite (fun _ => .stop (.failHere _)) fun _ => accepted) fun _ => accepted

theorem parameters_limits (first : Token) :
    (parameters first).Restricts .tooManyArguments (fun found => ∀ params ∈ found, AllWithin params)
      (parameters first) := by
  have done {params : List Node} (known : AllWithin params) : ∀ found ∈ some params, AllWithin found := by
    simpa using known
  refine .loop (fun state => AllWithin state.1) .nil fun (params, token) known => ?_
  dsimp only
  split
  · exact .pure (done known)
  · refine (parameter_limits params token).bind fun param known' => .after fun after => ?_
    have all := known.concat known'
    split
    · refine .after fun _ => .ite (fun _ => .after fun _ => .pure (done all)) fun _ => ?_
      exact .after fun _ => .pure all
    · exact .pure (done all)
    · exact .fail _ _
  · have dots : (Node.identifier token.value token.position).CallsWithin maxArguments := Node.callsWithin_leaf _ _
    have all := known.concat dots
    exact .after fun after => .ite (fun _ => .after fun _ => .pure (done all)) fun _ => .fail _ _
  · exact .pure (by simp)

theorem lambda_limits (inner : Limits expr expr') (first : Token) (position : Position) :
    (lambda expr first position).Restricts .tooManyArguments (fun found => ∀ n ∈ found, n.CallsWithin maxArguments)
      (lambda expr' first position) := by
  refine (parameters_limits first).bind fun found known => ?_
  cases found with
  | none => exact .pure (by simp)
  | some params =>
    refine inner.bind fun body known' => .after fun close => .ite (fun _ => .stop (.fail _ _)) fun _ => .pure ?_
    have whole : AllWithin (params ++ [body]) := (known params rfl).concat known'
    have made : (Node.mk position (.lambda params body)).CallsWithin maxArguments :=
      Node.callsWithin_mk.mpr ⟨nofun, whole⟩
    simpa using made

theorem literalKey_limits : Limits literalKey literalKey :=
  .after fun _ => .pure (Node.callsWithin_leaf _ _)

theorem dict_limits (inner : Limits expr expr') (keys : Limits key key') (start : Nat) (position : Position) :
    Limits (dict expr key start position) (dict expr' key' start position) := by
  have made {entries : List (Node × Node)} (all : AllWithin (entries.flatMap fun e => [e.1, e.2])) :
      (Node.mk position (.dict entries)).CallsWithin maxArguments :=
    Node.callsWithin_mk.mpr ⟨nofun, all⟩
  refine .after fun close => .ite (fun _ => .after fun _ => .pure (made .nil)) fun _ => ?_
  -- The entries are kept as the children of the dictionary they will make.
  refine .loop (fun entries => AllWithin (entries.flatMap fun e => [e.1, e.2])) .nil fun entries known => ?_
  refine keys.bind fun key known' => .after fun colon => ?_
  split
  · refine .ite (fun _ => .after fun _ => ?_) fun _ => .fail _ _
    exact (name_limits inner).bind fun node known => .pure known
  · refine inner.bind fun value known'' => .after fun token => ?_
    have all : AllWithin ((entries ++ [(key, value)]).flatMap fun e => [e.1, e.2]) := by
      simpa using (known.concat known').concat known''
    split
    · exact .after fun _ => .ite (fun _ => .after fun _ => .pure (made all)) fun _ => .pure all
    · exact .pure (made all)
    · exact .fail _ _
  · exact .fail _ _

theorem braces_limits (inner : Limits expr expr') (start : Nat) (brace : Token) :
    Limits (braces expr start brace) (braces expr' start brace) := by
  refine .after fun inside => .after fun first => ?_
  refine .through (fun found => ∀ n ∈ found, n.CallsWithin maxArguments) (.after fun _ => ?_) fun found known => ?_
  · exact .ite (fun _ => lambda_limits inner first brace.position) fun _ => .pure (by simp)
  · cases found with
    | some node => exact .pure (known node rfl)
    | none =>
      refine .after fun _ => dict_limits inner ?_ start brace.position
      exact .ite (fun _ => literalKey_limits) fun _ => inner

theorem primary_limits (inner : Limits expr expr') : Limits (Expr.primary expr) (Expr.primary expr') := by
  refine .after fun start => .after fun token => ?_
  split
  case h_1 | h_2 | h_3 | h_4 | h_5 => exact .pure (Node.callsWithin_leaf _ _)
  case h_6 | h_7 => exact .after fun _ => .after fun _ => .pure (Node.callsWithin_leaf _ _)
  · exact list_limits inner token.position
  case h_9 | h_10 => exact braces_limits inner start token
  · refine inner.bind fun value known => .after fun close => ?_
    exact .ite (fun _ => .stop (.fail _ _)) fun _ => .pure known
  · refine .after fun isName => .ite (fun _ => .after fun _ => name_limits inner) fun _ => .fail _ _
  case h_13 | h_14 | h_15 | h_16 | h_17 => exact .after fun _ => name_limits inner
  · exact .fail _ _

theorem chain_limits (operator : TokenKind → Option BinaryOp) (inner : Limits operand operand') :
    Limits (chain operator operand) (chain operator operand') := by
  refine inner.bind fun first known => .loop (Node.CallsWithin maxArguments) known fun left known => ?_
  refine .after fun start => .after fun token => ?_
  split
  · refine inner.bind fun right known' => .pure ?_
    simpa [Kind.children] using ⟨known, known'⟩
  · exact .after fun _ => .pure known

theorem comparison_limits (inner : Limits operand operand') : Limits (comparison operand) (comparison operand') := by
  refine inner.bind fun left known => .after fun start => .after fun token => ?_
  split
  · refine inner.bind fun right known' => .pure ?_
    simpa [Kind.children] using ⟨known, known'⟩
  · exact .after fun _ => .pure known

theorem prefixed_limits (inner : Limits operand operand') : Limits (prefixed operand) (prefixed operand') := by
  refine .after fun ops => inner.bind fun value known => .pure ?_
  induction ops generalizing value with
  | nil => exact known
  | cons op ops ih => exact ih _ (by simpa [Kind.children] using known)

theorem ternary_limits (inner : Limits expr expr') (cond : Limits operand operand') :
    Limits (ternary expr operand) (ternary expr' operand') := by
  refine cond.bind fun value known => .after fun start => .after fun token => ?_
  refine .ite (fun _ => ?_) fun _ => .after fun _ => .pure known
  refine inner.bind fun yes known' => .after fun colon => ?_
  refine .ite (fun _ => .stop (.fail _ _)) fun _ => inner.bind fun no known'' => .pure ?_
  simpa [Kind.children] using ⟨known, known', known''⟩

theorem nestedWith_limits (depth : Nat) : Limits (nestedWith arguments depth) (nestedWith anyArguments depth) := by
  induction depth with
  | zero => exact fun _ _ => .inr ⟨rfl, nofun⟩
  | succ depth ih =>
    have operand := prefixed_limits (postfixedWith_limits (arguments_limits ih) ih (primary_limits ih))
    have sum := chain_limits TokenKind.additive? (chain_limits TokenKind.multiplicative? operand)
    have conjunction := chain_limits TokenKind.conjunction? (comparison_limits sum)
    exact ternary_limits ih (chain_limits TokenKind.disjunction? conjunction)

/-- An expression is read as it would be without the limit, and has no call with more arguments, or it is refused. -/
theorem read_limits : Limits read (readWith anyArguments) := by
  rw [read_eq_readWith]
  exact fun s i => nestedWith_limits (s.size + 1) s i

end Expr

namespace Target

open Scan VimScript.Expr

theorem base_limits : Limits base base := by
  have named := name_limits read_limits.self
  refine .after fun start => .after fun token => ?_
  split
  case h_1 | h_2 | h_3 => exact .pure (Node.callsWithin_leaf _ _)
  case h_4 | h_5 => exact .after fun _ => named
  · exact .after fun isName => .ite (fun _ => .after fun _ => named) fun _ => .fail _ _
  · exact .fail _ _

theorem read_limits : Limits read read := by
  refine base_limits.bind fun first known => .loop (Node.CallsWithin maxArguments) known fun left known => ?_
  refine .after fun start => .after fun c => .after fun token => ?_
  split
  · exact (index_limits Expr.read_limits.self known token.position).bind fun node known => .pure known
  · refine (member_limits known token.position).bind fun found known' => ?_
    cases found with
    | none => exact .after fun _ => .pure known
    | some node => exact .pure (known' node rfl)
  · exact .after fun _ => .pure known

end Target

end VimScript
