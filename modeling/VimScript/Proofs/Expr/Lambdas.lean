import VimScript.Proofs.Expr.Sequences

/-!
Reading lambdas: their parameters, and how an open brace is found to be one of theirs.
-/

set_option autoImplicit false

namespace VimScript.Expr

open Node

variable {s : Source} {i j : Nat} {cs rest : List Char} {dots : Dots} {depth : Nat} {token : Token} {text : String}

/-! ### Parameters -/

def parameterTurn (state : List Node × Token) :
    Scan (Scan.Turn (List Node × Token) (Option (List Node))) := do
  let (params, token) := state
  match token.kind with
  | .arrow => return .done (some params)
  | .identifier =>
    let param ← parameter params token
    let params := params ++ [param]
    let after ← Token.next
    match after.kind with
    | .comma =>
      if (← Token.peek).kind == .arrow then
        let _ ← Token.next
        return .done (some params)
      else
        return .again (params, ← Token.next)
    | .arrow => return .done (some params)
    | _ =>
      Scan.fail (.unexpectedParameterToken after.value after.kind.code) after.position
  | .ellipsis =>
    let params := params ++ [.identifier token.value token.position]
    let after ← Token.peek
    if after.kind == .arrow then
      let _ ← Token.next
      return .done (some params)
    else
      unexpected after
  | _ => return .done none

theorem parameters_eq (first : Token) : parameters first = Scan.loop ([], first) parameterTurn := rfl

theorem isArgumentName_of_isName (name : Token.IsName text.toList) : isArgumentName text = true := by
  have head := name.head
  have word := name.word
  unfold isArgumentName
  cases letters : text.toList with
  | nil => simp [letters] at head
  | cons c ws =>
    simp only [letters, List.head?_cons, CharClass.hasOpt_some] at head
    have all : ws.all CharClass.word.has = true := by
      rw [List.all_eq_true]
      intro x place
      exact word x (by simp [letters, place])
    simp [head, all]

theorem parameter_of_name {params : List Node} (name : isArgumentName token.value = true)
    (fresh : ∀ p ∈ params, p.leafText? ≠ some token.value)
    (gap : CharClass.white.hasOpt (s.ahead i).head? = false ∨
      ∃ after, Token.peek s i = .ok after i ∧ after.kind ≠ .comma) :
    parameter params token s i = .ok (.identifier token.value token.position) i := by
  have noOther : (params.any fun p => p.leafText? == some token.value) = false := by
    rw [List.any_eq_false]
    intro p place
    simpa using fresh p place
  simp only [parameter, name, noOther]
  rcases gap with solid | ⟨after, peek, other⟩
  · simp [Scan.bind_apply, Scan.peek_of_ahead, solid, Scan.pure_apply]
  · by_cases blank : CharClass.white.hasOpt (s.ahead i).head? = true
    · simp [Scan.bind_apply, Scan.peek_of_ahead, blank, peek, other, Scan.pure_apply]
    · simp [Scan.bind_apply, Scan.peek_of_ahead, blank, Scan.pure_apply]

/-- The kinds of token a parameter is read as. -/
def IsParameter (text : String) (kind : TokenKind) : Prop :=
  Token.IsName text.toList ∧ kind = .identifier ∨ text = "..." ∧ kind = .ellipsis

theorem next_of_parameter {c : Char} (valid : Token.IsName text.toList ∨ text = "...") (mark : c = ',' ∨ c = ' ')
    (h : s.ahead i = text.toList ++ c :: cs) :
    ∃ token j, Token.next s i = .ok token j ∧ token.value = text ∧ IsParameter text token.kind ∧
      s.ahead j = c :: cs := by
  rcases valid with name | rfl
  · have stop : CharClass.name.hasOpt (c :: cs).head? = false := by
      rcases mark with rfl | rfl <;> rfl
    exact ⟨_, _, Token.next_of_name h name stop, by simp, .inl ⟨name, rfl⟩, Source.ahead_of_append h⟩
  · exact ⟨_, _, Token.next_of_symbol h rfl, rfl, .inr ⟨rfl, rfl⟩, Source.ahead_of_append h⟩

theorem next_of_arrow (h : s.ahead i = ' ' :: '-' :: '>' :: rest) :
    ∃ token j, Token.next s i = .ok token j ∧ token.kind = .arrow ∧ s.ahead j = rest :=
  Token.Stands.blank h (.symbol "->" (Source.ahead_of_cons h) rfl rfl)

theorem parameterTurn_last {acc : List Node} (kind : IsParameter text token.kind) (value : token.value = text)
    (fresh : ∀ p ∈ acc, p.leafText? ≠ some text) (h : s.ahead i = ' ' :: '-' :: '>' :: rest) :
    ∃ j, parameterTurn (acc, token) s i =
        .ok (.done (some (acc ++ [Node.identifier token.value token.position]))) j ∧ s.ahead j = rest := by
  obtain ⟨arrow, j, next, isArrow, after⟩ := next_of_arrow h
  have noComma : arrow.kind ≠ .comma := by simp [isArrow]
  refine ⟨j, ?_, after⟩
  rcases kind with ⟨name, kind⟩ | ⟨rfl, kind⟩
  · have read := parameter_of_name (value ▸ isArgumentName_of_isName name) (value ▸ fresh)
      (.inr ⟨arrow, Token.peek_of_next next, noComma⟩)
    simp only [parameterTurn, kind, Scan.bind_of_ok read, Scan.bind_of_ok next, isArrow]
    rfl
  · simp only [parameterTurn, kind, Scan.bind_of_ok (Token.peek_of_next next), isArrow, beq_self_eq_true, if_true,
      Scan.bind_of_ok next]
    rfl

theorem parameterTurn_again {acc : List Node} {c : Char} {text' : String} (name : Token.IsName text.toList)
    (kind : token.kind = .identifier) (value : token.value = text) (fresh : ∀ p ∈ acc, p.leafText? ≠ some text)
    (valid : Token.IsName text'.toList ∨ text' = "...") (mark : c = ',' ∨ c = ' ')
    (h : s.ahead i = ',' :: ' ' :: (text'.toList ++ c :: cs)) :
    ∃ token' j, parameterTurn (acc, token) s i =
        .ok (.again (acc ++ [Node.identifier token.value token.position], token')) j ∧
      token'.value = text' ∧ IsParameter text' token'.kind ∧ s.ahead j = c :: cs := by
  have comma : Token.next s i = .ok ⟨.comma, ",", s.position i⟩ (i + 1) := Token.next_of_symbol h rfl
  have inner : s.ahead (i + 1) = [' '] ++ (text'.toList ++ c :: cs) := Source.ahead_of_cons h
  obtain ⟨token', j, next, value', kind', after⟩ := next_of_parameter valid mark (Source.ahead_of_append inner)
  rw [← Token.next_blanks [' '] inner (List.all_eq_true.mp rfl)] at next
  have noArrow : (token'.kind == .arrow) = false := by
    rcases kind' with ⟨-, kind'⟩ | ⟨-, kind'⟩ <;> rw [kind'] <;> rfl
  have solid : CharClass.white.hasOpt (s.ahead i).head? = false := by rw [h]; rfl
  have read := parameter_of_name (value ▸ isArgumentName_of_isName name) (value ▸ fresh) (.inl solid)
  refine ⟨token', j, ?_, value', kind', after⟩
  simp only [parameterTurn, kind, Scan.bind_of_ok read, Scan.bind_of_ok comma,
    Scan.bind_of_ok (Token.peek_of_next next), noArrow, Bool.false_eq_true, if_false, Scan.bind_of_ok next]
  rfl

/-- After a parameter comes the comma before the next one, or the arrow. -/
theorem listed_front (dots : Dots) (rest : List Char) {p : Node} {position : Position} (ps : List Node) (isName : p = .identifier text position) :
    ∃ c cs, (c = ',' ∨ c = ' ' ∧ cs = '-' :: '>' :: rest) ∧
      listed ((p :: ps).map (render dots)) ++ ' ' :: '-' :: '>' :: rest = text.toList ++ c :: cs := by
  cases ps with
  | nil => exact ⟨' ', _, .inr ⟨rfl, rfl⟩, by simp [listed, isName, Node.identifier]⟩
  | cons q ps => exact ⟨',', _, .inl rfl, by simp [listed, isName, Node.identifier]; rfl⟩

/-- The token of a parameter is read one turn before the parameter is taken up. -/
theorem parameter_rounds (ps : List Node) {p : Node} (acc : List Node) {position : Position}
    (isName : p = .identifier text position)
    (names : ∀ q ∈ ps, ∃ text position, q = .identifier text position ∧
      (Token.IsName text.toList ∨ text = "..."))
    (last : ∀ q ∈ (p :: ps).dropLast, q.leafText? ≠ some "...")
    (distinct : (acc.map leafText? ++ (p :: ps).map leafText?).Nodup) (value : token.value = text)
    (kind : IsParameter text token.kind)
    (h : text.toList ++ s.ahead i = listed ((p :: ps).map (render dots)) ++ ' ' :: '-' :: '>' :: rest) :
    ∃ found j, Scan.Rounds parameterTurn s (acc, token) i (some (acc ++ found)) j ∧
      found.map bare = (p :: ps).map bare ∧ s.ahead j = rest := by
  have fresh : ∀ q ∈ acc, q.leafText? ≠ some text := by
    intro q place same
    have apart := (List.nodup_append.mp distinct).2.2 _ (List.mem_map_of_mem place)
    exact apart (some text) (by simp [isName, Node.identifier, Node.leaf, leafText?, Kind.leafText?]) same
  induction ps generalizing p acc token text position i with
  | nil =>
    have ahead : s.ahead i = ' ' :: '-' :: '>' :: rest := by
      simpa [listed, isName, Node.identifier] using h
    obtain ⟨j, read, after⟩ := parameterTurn_last kind value fresh ahead
    refine ⟨[.identifier token.value token.position], j, .last read, ?_, after⟩
    simp [isName, Node.identifier, value]
  | cons q ps ih =>
    obtain ⟨text', position', isName', valid⟩ := names q (by simp)
    have name : Token.IsName text.toList ∧ token.kind = .identifier := by
      rcases kind with name | ⟨rfl, -⟩
      · exact name
      · exact absurd (by simp [isName, Node.identifier, Node.leaf, leafText?, Kind.leafText?]) (last p (by simp))
    obtain ⟨c, cs, mark, tail⟩ := listed_front dots rest ps isName'
    have ahead : s.ahead i = ',' :: ' ' :: (text'.toList ++ c :: cs) := by
      rw [← tail]
      simpa [listed, isName, Node.identifier] using h
    obtain ⟨token', k, read, value', kind', after⟩ := parameterTurn_again name.1 name.2 value fresh valid (mark.imp_right And.left) ahead
    have moved : ((acc ++ [Node.identifier token.value token.position]).map leafText? ++
        (q :: ps).map leafText?).Nodup := by
      simpa [isName, value, Node.identifier, Node.leaf, leafText?, Kind.leafText?] using distinct
    have later : ∀ q' ∈ (q :: ps).dropLast, q'.leafText? ≠ some "..." := by
      intro q' place
      exact last q' (by simp [place])
    obtain ⟨found, j, rounds, same, after'⟩ :=
      ih _ isName' (fun q' place => names q' (by simp [place])) later moved value' kind' (by rw [after, tail])
        (by
          intro q' place same
          exact (List.nodup_append.mp moved).2.2 _ (List.mem_map_of_mem place) (some text')
            (by simp [isName', Node.identifier, Node.leaf, leafText?, Kind.leafText?]) same)
    have on := Source.lt_of_ahead (',' :: ' ' :: text'.toList) (by simpa using ahead) after (by simp) (by simp)
    refine ⟨.identifier token.value token.position :: found, j, .turn read on.1 on.2 (by simpa using rounds), ?_, after'⟩
    simp [isName, Node.identifier, value, same]

theorem parameters_of_listed {params : List Node} (shape : Parameters params)
    (h : s.ahead i = listed (params.map (render dots)) ++ ' ' :: '-' :: '>' :: rest) :
    ∃ first j found k, Token.next s i = .ok first j ∧ promisesLambda first s j = .ok true j ∧
      parameters first s j = .ok (some found) k ∧ found.map bare = params.map bare ∧ s.ahead k = rest := by
  cases params with
  | nil =>
    obtain ⟨arrow, j, next, kind, after⟩ := next_of_arrow h
    refine ⟨arrow, j, [], j, next, ?_, ?_, rfl, after⟩
    · simp only [promisesLambda, kind]
      rfl
    · rw [parameters_eq]
      refine Scan.loop_of_done ?_
      simp only [parameterTurn, kind]
      rfl
  | cons p ps =>
    obtain ⟨text, position, isName, valid⟩ := shape.names p (by simp)
    obtain ⟨c, cs, mark, tail⟩ := listed_front dots rest ps isName
    obtain ⟨first, j, next, value, kind, after⟩ := next_of_parameter valid (mark.imp_right And.left) (h.trans tail)
    obtain ⟨found, k, rounds, same, last⟩ :=
      parameter_rounds ps [] isName (fun q place => shape.names q (by simp [place])) shape.last
        (by simpa using shape.distinct) value kind (by rw [after, ← tail])
    obtain ⟨second, peek, promise⟩ : ∃ second, Token.peek s j = .ok second j ∧
        (second.kind == .arrow || second.kind == .comma) = true := by
      rcases mark with rfl | ⟨rfl, rfl⟩
      · obtain ⟨second, peek, kind⟩ := peek_of_stands (.symbol "," after rfl rfl)
        exact ⟨second, peek, by rw [kind]; rfl⟩
      · obtain ⟨second, peek, kind⟩ := peek_of_stands (next_of_arrow after)
        exact ⟨second, peek, by rw [kind]; rfl⟩
    refine ⟨first, j, found, k, next, ?_, by simpa [parameters_eq] using rounds.loop, same, last⟩
    rcases kind with ⟨-, kind⟩ | ⟨-, kind⟩ <;>
      · simp only [promisesLambda, kind, Scan.bind_of_ok peek, promise]
        rfl

/-! ### Lambdas -/

theorem braces_of_lambda {params : List Node} {t : Node} (start : Nat) (brace : Token) (shape : Parameters params)
    (back : ReadsBack dots t) (deep : (t.render dots).length + 1 < depth)
    (h : s.ahead i =
      listed (params.map (render dots)) ++ ' ' :: '-' :: '>' :: ' ' :: (enclosed (t.render dots) ++ '\x7d' :: rest)) :
    (Node.mk .unset (.lambda params t)).ReadBy (braces (nested depth) start brace) s i rest := by
  obtain ⟨first, j, found, k, next, promise, read, same, after⟩ := parameters_of_listed shape h
  obtain ⟨n, m, body, same', after'⟩ := nested_of_opens back (opens_of_blank after) (by decide) deep
  have close : Token.next s m = .ok ⟨.braceClose, "\x7d", s.position m⟩ (m + 1) := Token.next_of_symbol after' rfl
  have whole : lambda (nested depth) first brace.position s j =
      .ok (some (.mk brace.position (.lambda found n))) (m + 1) := by
    simp only [lambda, Scan.bind_of_ok read, Scan.bind_of_ok body, Scan.bind_of_ok close]
    rfl
  refine ⟨.mk brace.position (.lambda found n), m + 1, ?_, by simp [Kind.map, same, same'],
    Source.ahead_of_cons after'⟩
  simp only [braces, bind_assoc, Scan.bind_of_ok (Scan.tell_apply s i), Scan.bind_of_ok next, Scan.bind_of_ok promise,
    if_true, Scan.bind_of_ok whole]
  rfl

/-- Where the first two tokens promise no lambda, the brace is that of a dictionary or of a name. -/
theorem braces_of_other {first second brace : Token} (start : Nat) (kind : brace.kind = .braceOpen)
    (next : Token.next s i = .ok first j) (opens : first.kind = .parenOpen ∨ first.kind = .braceClose)
    (peek : Token.peek s j = .ok second j) (noArrow : second.kind ≠ .arrow) (noComma : second.kind ≠ .comma) :
    braces (nested depth) start brace s i = dict (nested depth) (nested depth) start brace.position s i := by
  have promise : promisesLambda first s j = .ok false j := by
    have none : (second.kind == .arrow || second.kind == .comma) = false := by simp [noArrow, noComma]
    rcases opens with kind | kind <;>
      · simp only [promisesLambda, kind, Scan.bind_of_ok peek, none]
        rfl
  simp only [braces, bind_assoc, Scan.bind_of_ok (Scan.tell_apply s i), Scan.bind_of_ok next,
    Scan.bind_of_ok promise, kind]
  rfl

end VimScript.Expr
