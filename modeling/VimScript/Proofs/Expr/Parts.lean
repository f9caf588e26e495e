import VimScript.Proofs.Expr.Sequences

/-!
Reading what follows an operand: subscripts, slices, members, calls and methods.
-/

set_option autoImplicit false

namespace VimScript.Expr

open Node

variable {s : Source} {i : Nat} {rest : List Char} {dots : Dots} {depth : Nat} {t : Node} {args : List Node}

/-! ### Bounds -/

/-- An expression, unless a token stands where there is none. -/
def optional (stop : TokenKind) (expr : Scan Node) : Scan (Option Node) := do
  if (← Token.peek).kind == stop then return none
  else some <$> expr

theorem index_eq (expr : Scan Node) (left : Node) (position : Position) :
    index expr left position = (do
      let lower ← optional .colon expr
      let isSlice := (← Token.peek).kind == .colon
      match lower, isSlice with
      | some value, false =>
        let close ← Token.next
        if close.kind != .bracketClose then unexpected close
        return .mk position (.subscript left value)
      | _, _ =>
        let _ ← Token.next
        let upper ← optional .bracketClose expr
        let close ← Token.next
        if close.kind != .bracketClose then unexpected close
        return .mk position (.slice left lower upper)) := rfl

theorem optional_of_opens (stop : TokenKind) {c : Char} {cs : List Char} (other : stop ≠ .parenOpen)
    (back : ReadsBack dots t) (deep : (t.render dots).length + 1 < depth) (mark : c ∈ endMarks)
    (opens : Opens dots t s i (c :: cs)) :
    ∃ n j, optional stop (nested depth) s i = .ok (some n) j ∧ n.bare = t.bare ∧ s.ahead j = c :: cs := by
  obtain ⟨n, j, read, same, after⟩ := nested_of_opens back opens mark deep
  obtain ⟨first, peek, kind⟩ := peek_of_stands opens
  have noStop : (TokenKind.parenOpen == stop) = false := by simpa using Ne.symm other
  refine ⟨n, j, ?_, same, after⟩
  simp only [optional, Scan.bind_of_ok peek, kind, noStop]
  exact Scan.map_of_ok read

theorem optional_of_stop {stop : TokenKind} (h : Token.Stands s i stop rest) :
    optional stop (nested depth) s i = .ok none i := by
  obtain ⟨first, peek, kind⟩ := peek_of_stands h
  simp only [optional, Scan.bind_of_ok peek, kind, beq_self_eq_true, if_true]
  rfl

/-- A bound that may be left out, before the character that ends it. -/
theorem optional_of_bound {stop : TokenKind} {mark : Char} (o : Option Node) (other : stop ≠ .parenOpen)
    (back : ∀ t ∈ o, ReadsBack dots t ∧ (t.render dots).length + 1 < depth) (isEnd : mark ∈ endMarks)
    (isStop : Token.symbol? (mark :: rest) = some (stop, String.singleton mark))
    (h : s.ahead i = bound (o.map (render dots)) ++ mark :: rest) :
    ∃ found j, optional stop (nested depth) s i = .ok found j ∧ found.map bare = o.map bare ∧
      s.ahead j = mark :: rest := by
  cases o with
  | none => exact ⟨none, i, optional_of_stop (.symbol (String.singleton mark) h isStop rfl), rfl, h⟩
  | some t =>
    obtain ⟨known, deep⟩ := back t rfl
    obtain ⟨n, j, read, same, after⟩ := optional_of_opens stop other known deep isEnd (opens_of_enclosed h)
    exact ⟨some n, j, read, by simp [same], after⟩

/-! ### Subscripts and slices -/

variable (primary : Scan Node) (left : Node)

theorem postfixTurn_subscript (back : ReadsBack dots t) (deep : (t.render dots).length + 1 < depth)
    (h : s.ahead i = '[' :: (enclosed (t.render dots) ++ ']' :: rest)) :
    ∃ n j, postfixTurn (nested depth) primary left s i = .ok (.again (.mk (s.position i) (.subscript left n))) j ∧
      n.bare = t.bare ∧ s.ahead j = rest := by
  have bracket : Token.next s i = .ok ⟨.bracketOpen, "[", s.position i⟩ (i + 1) := Token.next_of_symbol h rfl
  have inner := Source.ahead_of_cons h
  obtain ⟨n, j, read, same, after⟩ :=
    optional_of_opens .colon (by decide) back deep (by decide) (opens_of_enclosed inner)
  have close : Token.next s j = .ok ⟨.bracketClose, "]", s.position j⟩ (j + 1) := Token.next_of_symbol after rfl
  have found : index (nested depth) left (s.position i) s (i + 1) =
      .ok (.mk (s.position i) (.subscript left n)) (j + 1) := by
    simp only [index_eq, Scan.bind_of_ok read, Scan.bind_of_ok (Token.peek_of_next close)]
    rw [show (TokenKind.bracketClose == TokenKind.colon) = false from rfl]
    simp only [Scan.bind_of_ok close]
    rfl
  refine ⟨n, j + 1, ?_, same, Source.ahead_of_cons after⟩
  rw [postfixTurn_of_next bracket, h]
  exact Scan.map_of_ok found

theorem postfixTurn_slice {lower upper : Option Node}
    (below : ∀ t ∈ lower, ReadsBack dots t ∧ (t.render dots).length + 1 < depth)
    (above : ∀ t ∈ upper, ReadsBack dots t ∧ (t.render dots).length + 1 < depth)
    (h : s.ahead i =
      '[' :: (bound (lower.map (render dots)) ++ ':' :: (bound (upper.map (render dots)) ++ ']' :: rest))) :
    ∃ a b j, postfixTurn (nested depth) primary left s i = .ok (.again (.mk (s.position i) (.slice left a b))) j ∧
      a.map bare = lower.map bare ∧ b.map bare = upper.map bare ∧ s.ahead j = rest := by
  have bracket : Token.next s i = .ok ⟨.bracketOpen, "[", s.position i⟩ (i + 1) := Token.next_of_symbol h rfl
  have inner := Source.ahead_of_cons h
  obtain ⟨a, j, readA, sameA, afterA⟩ := optional_of_bound lower (by decide) below (by decide) rfl inner
  have colon : Token.next s j = .ok ⟨.colon, ":", s.position j⟩ (j + 1) := Token.next_of_symbol afterA rfl
  have inner' := Source.ahead_of_cons afterA
  obtain ⟨b, k, readB, sameB, afterB⟩ := optional_of_bound upper (by decide) above (by decide) rfl inner'
  have close : Token.next s k = .ok ⟨.bracketClose, "]", s.position k⟩ (k + 1) := Token.next_of_symbol afterB rfl
  have found : index (nested depth) left (s.position i) s (i + 1) =
      .ok (.mk (s.position i) (.slice left a b)) (k + 1) := by
    simp only [index_eq, Scan.bind_of_ok readA, Scan.bind_of_ok (Token.peek_of_next colon), beq_self_eq_true]
    cases a <;>
      · simp only [Scan.bind_of_ok colon, Scan.bind_of_ok readB, Scan.bind_of_ok close]
        rfl
  refine ⟨a, b, k + 1, ?_, sameA, sameB, Source.ahead_of_cons afterB⟩
  rw [postfixTurn_of_next bracket, h]
  exact Scan.map_of_ok found

/-! ### Members -/

theorem postfixTurn_dot (expr : Scan Node) {c : Char} {cs : List Char} {text : String} (members : hasMembers left = true)
    (some : text.toList ≠ []) (word : ∀ c ∈ text.toList, CharClass.word.has c = true)
    (stop : CharClass.name.has c = false) (h : s.ahead i = '.' :: (text.toList ++ c :: cs)) :
    ∃ j, postfixTurn expr primary left s i =
        .ok (.again (.mk (s.position i) (.dot left (.identifier text (s.position (i + 1)))))) j ∧
      s.ahead j = c :: cs := by
  have inner : s.ahead (i + 1) = text.toList ++ c :: cs := Source.ahead_of_cons h
  have after : s.ahead (i + 1 + text.toList.length) = c :: cs := Source.ahead_of_append inner
  have front : CharClass.word.hasOpt (text.toList ++ c :: cs).head? = true := by
    cases letters : text.toList with
    | nil => exact absurd letters some
    | cons w ws => exact word w (by simp [*])
  have dot : Token.next s i = .ok ⟨.dot, ".", s.position i⟩ (i + 1) := by
    refine Token.next_of_symbol h ?_
    cases letters : text.toList with
    | nil => exact absurd letters some
    | cons w ws =>
      have noDot : ('.' == w) = false := by
        by_contra same
        obtain rfl : '.' = w := by simpa using same
        exact absurd (word '.' (by simp [*])) (by decide)
      have noForm : Token.form? ('.' :: (w :: ws ++ c :: cs)) = none := by
        simp [Token.form?, Token.operatorForms, Token.comparisonForms, Comparison.lexeme, CaseMode.suffix,
          List.isPrefixOf, noDot]
      simp only [Token.symbol?, noForm]
      rfl
  have taken := Scan.takeClass_of_ahead .word inner word (Token.word_of_not_name (c := Option.some c) stop)
  have found : member left (s.position i) s (i + 1) =
      .ok (Option.some (.mk (s.position i) (.dot left (.identifier text (s.position (i + 1)))))) (i + 1 + text.toList.length) := by
    simp only [member, Scan.bind_of_ok (Scan.peek_of_ahead inner), members, front, Bool.and_self, if_true,
      Scan.bind_of_ok (Scan.here_apply s (i + 1)), Scan.bind_of_ok taken, Scan.bind_of_ok (Scan.peek_of_ahead after),
      List.head?_cons, CharClass.hasOpt_some, stop]
    simp [Scan.pure_apply]
  refine ⟨_, ?_, after⟩
  rw [postfixTurn_of_next dot, h]
  exact Scan.bind_of_ok found

/-! ### Calls and methods -/

theorem postfixTurn_call (back : AllReadBack dots depth args) (few : args.length ≤ maxArguments)
    (h : s.ahead i = '(' :: (listed (args.map fun a => enclosed (a.render dots)) ++ ')' :: rest)) :
    ∃ found j, postfixTurn (nested depth) primary left s i =
        .ok (.again (.mk (s.position i) (.call left found))) j ∧
      found.map bare = args.map bare ∧ s.ahead j = rest := by
  have paren : Token.next s i = .ok ⟨.parenOpen, "(", s.position i⟩ (i + 1) := Token.next_of_symbol h rfl
  obtain ⟨found, j, read, same, after⟩ := arguments_of_listed back few (Source.ahead_of_cons h)
  refine ⟨found, j, ?_, same, after⟩
  rw [postfixTurn_of_next paren]
  exact Scan.bind_of_ok read

theorem postfixTurn_method (back : ReadsBack dots t) (deep : (t.render dots).length < depth)
    (all : AllReadBack dots depth args) (few : args.length ≤ maxArguments)
    (h : s.ahead i = '-' :: '>' :: (enclosed (t.render dots) ++
      '(' :: (listed (args.map fun a => enclosed (a.render dots)) ++ ')' :: rest))) :
    ∃ callee found position j, postfixTurn (nested depth) (Expr.primary (nested depth)) left s i =
        .ok (.again (.mk position (.method left (.mk position (.call callee found))))) j ∧
      callee.bare = t.bare ∧ found.map bare = args.map bare ∧ s.ahead j = rest := by
  have arrow : Token.next s i = .ok ⟨.arrow, "->", s.position i⟩ (i + 2) := Token.next_of_symbol h rfl
  have inner : s.ahead (i + 2) = enclosed (t.render dots) ++
      '(' :: (listed (args.map fun a => enclosed (a.render dots)) ++ ')' :: rest) :=
    Source.ahead_of_cons (Source.ahead_of_cons h)
  obtain ⟨callee, j, readCallee, sameCallee, afterCallee⟩ := primary_of_opens back (opens_of_enclosed inner) deep
  have paren : Token.next s j = .ok ⟨.parenOpen, "(", s.position j⟩ (j + 1) := Token.next_of_symbol afterCallee rfl
  obtain ⟨found, k, readArgs, sameArgs, afterArgs⟩ :=
    arguments_of_listed all few (Source.ahead_of_cons afterCallee)
  have whole : method (nested depth) (Expr.primary (nested depth)) left s (i + 2) =
      .ok (.mk (s.position j) (.method left (.mk (s.position j) (.call callee found)))) k := by
    simp only [method, Scan.bind_of_ok readCallee, Scan.bind_of_ok paren]
    exact Scan.bind_of_ok readArgs
  refine ⟨callee, found, s.position j, k, ?_, sameCallee, sameArgs, afterArgs⟩
  rw [postfixTurn_of_next arrow]
  exact Scan.map_of_ok whole

end VimScript.Expr
