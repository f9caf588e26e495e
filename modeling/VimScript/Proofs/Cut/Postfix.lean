import VimScript.Proofs.Cut.Glance
import VimScript.Proofs.Expr.Names
import VimScript.Proofs.Expr.Parts
import VimScript.Proofs.Expr.Tiers

/-!
Names before a cut, and what follows an operand. No part of them is told by what stands behind the cut.
-/

set_option autoImplicit false

namespace VimScript.Source.Cut

open Scan Token VimScript.Expr

variable {α β : Type} {s t : Source} {i j k : Nat} {cut : s.Cut t j} {expr primary : Scan Node} {left : Node}

/-- What a reader of trees gives it also gives before the cut, unless the text is blind or the reader ends lost. -/
abbrev Reads (cut : s.Cut t j) (x : Scan Node) : Prop :=
  ∀ i, cut.Keeps i (cut.Blind i) x

/-! ### Names -/

/-- The text of a token whose kind is that of one operator only. -/
theorem written_of_operator {u : Source} {token : Token} {text : String} (run : Token.next u i = .ok token k)
    (only : ∀ form ∈ operators, form.2 = token.kind → form.1 = text)
    (symbol : token.kind ∉ ([.eol, .eof, .number, .blob, .identifier, .env, .register, .option] : List TokenKind)) :
    token.written = text.toList := by
  obtain ⟨ws, l, -, -, -, taken⟩ := gives_next u i token k run
  cases taken with
  | eof | eol => simp at symbol
  | @lexeme kind xs _ _ spelled =>
    simp only [List.mem_cons, not_or] at symbol
    have listed := spelled.mem_operators (by simpa using symbol.2.2)
    rw [written_of_spelling spelled, ← only _ listed rfl, String.toList_ofList]

/-- A closing brace behind blanks is the token that is read there. -/
theorem braceClose_iff {u : Source} :
    (∃ q, Scan.skipWhite u i = .ok () q ∧ u.char? q = some '\x7d' ∧ k = q + 1) ↔
      ∃ token, Token.next u i = .ok token k ∧ token.kind = .braceClose := by
  constructor
  · rintro ⟨q, skip, mark, rfl⟩
    obtain ⟨cs, front⟩ := List.head?_eq_some_iff.mp ((Source.char?_eq u q).symm.trans mark)
    exact ⟨_, (next_of_skipWhite skip).trans (next_of_symbol front rfl), rfl⟩
  · rintro ⟨token, run, kind⟩
    have covers := covers_of_next run
    obtain ⟨ws, before, blanks⟩ := covers.blanks
    have only : ∀ form ∈ operators, form.2 = .braceClose → form.1 = "\x7d" := by decide
    have spans := covers.spans
    rw [written_of_operator run (by rwa [kind]) (by rw [kind]; decide)] at spans
    refine ⟨token.position.cursor, ?_, Source.char?_of_cons spans.ahead, spans.cursor⟩
    rw [skipWhite_of_ahead ws before.ahead blanks (by rw [spans.ahead]; rfl), before.cursor]

/-- What comes behind a closing brace is kept if it is kept behind the token. -/
theorem Holds.braceClose {final : β → Nat → Prop} {x : Scan β} (second : ∀ k, cut.Holds k False final x) :
    cut.Holds i (cut.Shut i) final (do
      Scan.skipWhite
      let c ← Scan.peek
      if c != some '\x7d' then
        Scan.failHere (.unexpectedToken (describeChar c))
      Scan.skip 1
      x) := by
  apply Holds.congr (y := do
    let token ← Token.next
    if token.kind = .braceClose then x else Scan.failHere .openKey)
  · intro u v l
    rw [bind_ok, bind_ok]
    constructor
    · rintro ⟨_, q, skip, last⟩
      rw [bind_of_ok (peek_char u q)] at last
      by_cases mark : u.char? q = some '\x7d'
      · obtain ⟨token, run, kind⟩ := braceClose_iff.mp ⟨q, skip, mark, rfl⟩
        rw [if_neg (by simp [mark])] at last
        exact ⟨token, q + 1, run, by rw [if_pos kind]; exact last⟩
      · rw [if_pos (by simpa using mark)] at last
        cases last
    · rintro ⟨token, k, run, last⟩
      by_cases kind : token.kind = .braceClose
      · obtain ⟨q, skip, mark, rfl⟩ := braceClose_iff.mpr ⟨token, run, kind⟩
        rw [if_pos kind] at last
        refine ⟨(), q, skip, ?_⟩
        rw [bind_of_ok (peek_char u q), if_neg (by simp [mark])]
        exact last
      · rw [if_neg kind] at last
        cases last
  · apply Holds.demand
    · intro token other
      split
      · rw [‹token.kind = _›] at other
        cases other
      · rintro i v k ⟨⟩
    · intro token k _ _
      exact .ite (fun _ => second k) fun _ => .failHere

/-- A part of a name is the same in both buffers, and so is the end of the name. -/
theorem nameTurn_holds (inner : cut.Reads expr) (parts : List Node) (i : Nat) :
    cut.Holds i False (cut.Turned (fun _ _ => False) (fun _ => cut.Lost)) (nameTurn expr parts) := by
  have brace (i : Nat) : cut.Holds i False (cut.Turned (fun _ _ => False) (fun _ => cut.Lost)) (do
      let position ← Scan.here
      let inner ← expr
      Scan.skipWhite
      let c ← Scan.peek
      if c != some '\x7d' then
        Scan.failHere (.unexpectedToken (describeChar c))
      Scan.skip 1
      return (Turn.again (parts ++ [Node.mk position (.curlyExpr inner)]) : Turn (List Node) (List Node))) := by
    apply Holds.here
    apply ((inner i).unless False.elim).bind
    intro value k _
    exact (Holds.braceClose fun l => .again _).unless And.right
  have word (i : Nat) : cut.Holds i False (cut.Turned (fun _ _ => False) (fun _ => cut.Lost)) (do
      let position ← Scan.here
      let text ← Scan.takeClass .name
      return (Turn.again (parts ++ [Node.leaf .curlyPart text position]) : Turn (List Node) (List Node))) := by
    apply Holds.here
    apply Holds.takeClass .name fun _ inside => inside
    intro text k _ _
    exact .again _
  apply Holds.peek
  · intro _
    split
    · exact .move 1 (brace _)
    · exact .ite (fun _ => word i) fun _ => .done cut.lost_of_past
  · intro past
    split
    · exact (brace (i + 1)).meets past
    · intro v k run
      by_cases inside : CharClass.name.hasOpt (s.char? i) = true
      · rw [if_pos inside] at run
        rcases word i v k run with ⟨bound, -⟩ | gone
        · have stop := cut.stop
          rw [← Source.char?_eq, ← Nat.le_antisymm bound past, inside] at stop
          cases stop
        · exact .inr gone
      · rw [if_neg inside] at run
        obtain ⟨rfl, rfl⟩ := Reply.ok.inj run
        by_cases last : i = j
        · exact .inl ⟨last, id, last, rfl⟩
        · exact .inr (cut.lost_of_past (by omega))

/-- The mark of a script-local name, if it stands at the cursor. -/
def scriptMark : Scan (List Node) := do
  let position ← Scan.here
  let isScriptLocal := sameIgnoringCase (← Scan.peekRun 5) "<SID>"
  if isScriptLocal then
    let text ← Scan.take 5
    return [Node.leaf .curlyPart text position]
  else
    return []

theorem nameParts_eq_loop (expr : Scan Node) :
    nameParts expr = (do
      let scope ← scriptMark
      Scan.loop scope (nameTurn expr)) := by
  rw [nameParts_eq]
  rfl

theorem length_of_sameIgnoringCase {mark word : String} (same : sameIgnoringCase mark word = true) :
    mark.toList.length = word.toList.length := by
  have lists : mark.toList.map Char.toLower = word.toList.map Char.toLower := by simpa [sameIgnoringCase] using same
  simpa using congrArg List.length lists

theorem scriptMark_eq {u : Source} {mark : String} {l : Nat} (taken : Scan.take 5 u i = .ok mark l) :
    scriptMark u i =
      if sameIgnoringCase mark "<SID>" = true then .ok [Node.leaf .curlyPart mark (u.position i)] l else .ok [] i := by
  have seen : Scan.peekRun 5 u i = .ok mark i := peeking_of_ok taken
  simp only [scriptMark, bind_of_ok (here_apply u i), bind_of_ok seen]
  split
  · rw [bind_of_ok taken]
    rfl
  · rfl

/-- The mark stands before the cut, or it goes on behind it. -/
theorem scriptMark_holds (cut : s.Cut t j) (i : Nat) : cut.Holds i False (fun _ k => j < k) scriptMark := by
  intro v k run
  rw [scriptMark_eq (take_eq 5 s i)] at run
  rcases Nat.lt_or_ge j i with past | bound
  · refine .inr ?_
    split at run
    all_goals
      obtain ⟨-, rfl⟩ := Reply.ok.inj run
      omega
  obtain ⟨xs, right, within, left⟩ := cut.run_eq (fun _ => true) bound
  have short : (xs.take 5).length ≤ xs.length := List.length_take_le' 5 xs
  rw [scriptMark_eq (take_eq 5 t i), right, cut.places]
  by_cases same : (Source.run (fun _ => true) (s.ahead i)).take 5 = xs.take 5
  · rw [same] at run
    refine .inl ⟨bound, id, ?_, run⟩
    split at run
    all_goals
      obtain ⟨-, rfl⟩ := Reply.ok.inj run
      omega
  · -- What stands before the cut is too short for the mark.
    obtain ⟨last, c, cs, -, -, -, whole⟩ := left.resolve_left fun equal => same (by rw [equal])
    have few : xs.length < 5 := by
      by_contra many
      exact same (by rw [whole, List.take_append_of_le_length (by omega)])
    have length (mark : String) (scope : sameIgnoringCase mark "<SID>" = true) : mark.toList.length = 5 :=
      length_of_sameIgnoringCase scope
    have none : ¬sameIgnoringCase (String.ofList (xs.take 5)) "<SID>" = true := by
      intro scope
      have five := length _ scope
      rw [String.toList_ofList] at five
      omega
    split at run
    · rename_i scope
      have five := length _ scope
      rw [String.toList_ofList] at five
      obtain ⟨-, rfl⟩ := Reply.ok.inj run
      exact .inr (by omega)
    · rw [if_neg none]
      obtain ⟨rfl, rfl⟩ := Reply.ok.inj run
      exact .inl ⟨bound, id, bound, rfl⟩

theorem nameParts_holds (inner : cut.Reads expr) (i : Nat) : cut.Keeps i False (nameParts expr) := by
  rw [nameParts_eq_loop]
  refine (cut.scriptMark_holds i).beyond fun scope k _ => ?_
  exact .loop_of_all (fun _ _ => False) fun parts k => nameTurn_holds inner parts k

theorem name_holds (inner : cut.Reads expr) (i : Nat) : cut.Keeps i False (name expr) := by
  apply Holds.skipWhite
  intro k _
  apply Holds.here
  apply (nameParts_holds inner k).bind
  intro parts l _
  exact cut.keeps_pure l _

/-! ### Subscripts and slices -/

theorem peek_bind_ok {f : Token → Scan β} {u : Source} {v : β} {l : Nat} :
    (Token.peek >>= f) u i = .ok v l ↔ ∃ token k, Token.next u i = .ok token k ∧ f token u i = .ok v l := by
  rw [bind_ok]
  constructor
  · rintro ⟨token, q, seen, last⟩
    obtain ⟨rfl, k, run⟩ := peek_ok.mp seen
    exact ⟨token, k, run, last⟩
  · rintro ⟨token, k, run, last⟩
    exact ⟨token, i, peek_ok.mpr ⟨rfl, k, run⟩, last⟩

theorem map_ok {f : α → β} {x : Scan α} {u : Source} {v : β} {l : Nat} :
    (f <$> x) u i = .ok v l ↔ ∃ a, x u i = .ok a l ∧ f a = v := by
  change (x >>= fun a => Pure.pure (f a)) u i = .ok v l ↔ _
  rw [bind_ok]
  constructor
  · rintro ⟨a, k, run, last⟩
    obtain ⟨rfl, rfl⟩ := Reply.ok.inj last
    exact ⟨a, run, rfl⟩
  · rintro ⟨a, run, rfl⟩
    exact ⟨a, l, run, rfl⟩

theorem optional_ok {stop : TokenKind} {u : Source} {o : Option Node} {l : Nat} :
    Expr.optional stop expr u i = .ok o l ↔ ∃ token k, Token.next u i = .ok token k ∧
      (token.kind = stop ∧ o = none ∧ i = l ∨ token.kind ≠ stop ∧ ∃ v, expr u i = .ok v l ∧ some v = o) := by
  rw [Expr.optional, peek_bind_ok]
  refine exists_congr fun token => exists_congr fun k => and_congr_right fun _ => ?_
  by_cases stops : token.kind = stop
  · simp [stops, pure_apply, eq_comm]
  · rw [if_neg (by simpa using stops), map_ok]
    simp [stops]

/-- After an optional part comes the token that stood in its place. -/
theorem optional_bind_ok {stop : TokenKind} {g : Option Node → Token → Scan β} {u : Source} {v : β} {l : Nat} :
    (do
      let o ← Expr.optional stop expr
      let token ← Token.next
      g o token) u i = .ok v l ↔ (do
      let first ← Token.peek
      if first.kind == stop then
        let token ← Token.next
        g none token
      else
        let value ← expr
        let token ← Token.next
        g (some value) token) u i = .ok v l := by
  rw [bind_ok, peek_bind_ok]
  constructor
  · rintro ⟨o, q, read, last⟩
    obtain ⟨token, k, run, ⟨stops, rfl, rfl⟩ | ⟨goes, value, inner, rfl⟩⟩ := optional_ok.mp read
    · exact ⟨token, k, run, by rw [if_pos (by simpa using stops)]; exact last⟩
    · exact ⟨token, k, run, by rw [if_neg (by simpa using goes), bind_of_ok inner]; exact last⟩
  · rintro ⟨token, k, run, last⟩
    by_cases stops : token.kind = stop
    · rw [if_pos (by simpa using stops)] at last
      exact ⟨none, i, optional_ok.mpr ⟨token, k, run, .inl ⟨stops, rfl, rfl⟩⟩, last⟩
    · rw [if_neg (by simpa using stops)] at last
      obtain ⟨value, q, read, last⟩ := bind_ok.mp last
      exact ⟨some value, q, optional_ok.mpr ⟨token, k, run, .inr ⟨stops, value, read, rfl⟩⟩, last⟩

/-- The rest of a slice behind its colon. -/
def sliceEnd (expr : Scan Node) (left : Node) (position : Position) (lower : Option Node) : Scan Node := do
  let upper ← Expr.optional .bracketClose expr
  let close ← Token.next
  if close.kind != .bracketClose then unexpected close
  return .mk position (.slice left lower upper)

/-- What the token behind the first bound makes of it. -/
def indexEnd (expr : Scan Node) (left : Node) (position : Position) (lower : Option Node) (token : Token) : Scan Node :=
  if token.kind == .colon then sliceEnd expr left position lower
  else
    match lower with
    | some value =>
      if token.kind == .bracketClose then return .mk position (.subscript left value) else unexpected token
    | none => sliceEnd expr left position none

theorem index_ok_iff {u : Source} {position : Position} {v : Node} {l : Nat} :
    index expr left position u i = .ok v l ↔ (do
      let lower ← Expr.optional .colon expr
      let token ← Token.next
      indexEnd expr left position lower token) u i = .ok v l := by
  rw [index_eq, bind_ok, bind_ok]
  refine exists_congr fun lower => exists_congr fun k => and_congr_right fun _ => ?_
  rw [peek_bind_ok, bind_ok]
  refine exists_congr fun token => exists_congr fun q => and_congr_right fun run => ?_
  have slice (lower : Option Node) : (do
      let _ ← Token.next
      sliceEnd expr left position lower) u k = .ok v l ↔ sliceEnd expr left position lower u q = .ok v l := by
    rw [bind_of_ok run]
  unfold indexEnd
  cases colon : token.kind == .colon with
  | true =>
    cases lower with
    | none => exact slice none
    | some value => exact slice (some value)
  | false =>
    cases lower with
    | none => exact slice none
    | some value =>
      dsimp only
      rw [bind_of_ok run, if_neg Bool.false_ne_true]
      cases bracket : token.kind == .bracketClose with
      | true => simp [bne, bracket]
      | false => simp [bne, bracket, unexpected, bind_apply, Scan.fail]

/-- A part that another token may stand for, and the token behind it. -/
theorem Holds.optional {stop : TokenKind} {g : Option Node → Token → Scan β} {final : β → Nat → Prop}
    (fixed : isFixed stop = true) (whole : isRemnant stop = false) (inner : cut.Reads expr)
    (none : ∀ token k, token.kind = stop → cut.Holds k False final (g none token))
    (some : ∀ value k, cut.Holds k (cut.Lost k) final (Token.next >>= g (some value))) :
    cut.Holds i False final (do
      let o ← Expr.optional stop expr
      let token ← Token.next
      g o token) := by
  apply Holds.congr fun u v l => optional_bind_ok
  refine Holds.close (g := fun _ => g Option.none) fixed whole (fun token k _ => none token k) ?_
  apply ((inner i).unless False.elim).bind
  intro value k _
  exact some value k

theorem Holds.accept {out : Prop} {final : β → Nat → Prop} {x : Scan β} {token : Token} {kind : TokenKind}
    (h : cut.Holds i out final x) : cut.Holds i out final (do
      if token.kind != kind then unexpected token
      x) :=
  .ite (fun _ => .fail) fun _ => h

/-- A token of one kind is asked for. -/
theorem Holds.expect {final : β → Nat → Prop} {x : Token → Scan β} {kind : TokenKind} (fixed : isFixed kind = true)
    (second : ∀ token k, cut.Holds k False final (x token)) :
    cut.Holds i (cut.Shut i) final (do
      let token ← Token.next
      if token.kind != kind then unexpected token
      x token) := by
  apply Holds.demand
  · intro token other
    split
    · rintro i v k ⟨⟩
    · rename_i same
      rw [bne_iff_ne, not_not] at same
      rw [same, fixed] at other
      cases other
  · intro token k _ _
    exact (second token k).accept

theorem sliceEnd_holds (inner : cut.Reads expr) (left : Node) (position : Position) (lower : Option Node) (i : Nat) :
    cut.Keeps i False (sliceEnd expr left position lower) := by
  apply Holds.optional rfl rfl inner
  · intro token k _
    exact .accept .give
  · intro value k
    exact (Holds.expect rfl fun _ _ => .give).unless And.right

theorem index_holds (inner : cut.Reads expr) (left : Node) (position : Position) (i : Nat) :
    cut.Keeps i False (index expr left position) := by
  apply Holds.congr fun u v l => index_ok_iff
  apply Holds.optional rfl rfl inner
  · intro token k colon
    rw [indexEnd, if_pos (by simpa using colon)]
    exact sliceEnd_holds inner left position none k
  · intro value k
    refine (Holds.demand ?_ fun token l _ _ => ?_).unless And.right
    · intro token other
      unfold indexEnd
      split
      · rename_i colon
        rw [eq_of_beq colon] at other
        cases other
      · dsimp only
        split
        · rename_i bracket
          rw [eq_of_beq bracket] at other
          cases other
        · exact refuses_fail
    · exact .ite (fun _ => sliceEnd_holds inner left position _ l) fun _ => .ite (fun _ => .give) fun _ => .fail

/-! ### Calls -/

/-- What the token behind an item makes of a list of them: a comma may be the last one. -/
def itemEnd {σ : Type} (closer : TokenKind) (items : σ) (whole : Token → β) (token : Token) : Scan (Turn σ β) :=
  match token.kind == .comma, token.kind == closer with
  | true, _ => do
    let first ← Token.peek
    if first.kind == closer then
      let _ ← Token.next
      return .done (whole token)
    else
      return .again items
  | false, true => return .done (whole token)
  | false, false => unexpected token

theorem Holds.items {σ : Type} {f : Token → Scan (Turn σ β)} {final : β → Nat → Prop} (closer : TokenKind)
    (fixed : isFixed closer = true) (remains : isRemnant closer = false) (past : ∀ v k, j < k → final v k) (items : σ)
    (whole : Token → β) (same : ∀ token, f token = itemEnd closer items whole token) :
    cut.Holds i (cut.Shut i) (cut.Turned (fun _ _ => False) final) (Token.next >>= f) := by
  rw [funext same]
  apply Holds.demand
  · intro token other
    unfold itemEnd
    split
    · rw [eq_of_beq ‹(token.kind == .comma) = true›] at other
      cases other
    · rw [eq_of_beq ‹(token.kind == closer) = true›, fixed] at other
      cases other
    · exact refuses_fail
  · intro token k _ _
    unfold itemEnd
    split
    · refine Holds.close (g := fun _ _ => Pure.pure (Turn.done (whole token))) fixed remains ?_ (.again _)
      intro _ _ _ _
      exact .done (past _ _)
    · exact .done (past _ _)
    · exact .fail

theorem argumentList_holds (inner : cut.Reads expr) (i : Nat) :
    cut.Holds i False (fun _ k => j < k) (argumentList expr) := by
  refine Holds.close (g := fun first _ => Pure.pure ([], first)) rfl rfl (fun _ _ _ _ => .stop id) ?_
  apply Holds.loop_of_all (fun _ _ => False)
  intro args k
  apply ((inner k).unless False.elim).bind
  intro arg l _
  refine (Holds.items .parenClose rfl rfl (fun _ _ => id) (args ++ [arg]) (fun token => (args ++ [arg], token)) ?_).unless
    And.right
  rintro ⟨kind, value, position⟩
  cases kind <;> rfl

theorem arguments_holds (inner : cut.Reads expr) (i : Nat) : cut.Holds i False (fun _ k => j < k) (arguments expr) := by
  apply (argumentList_holds inner i).beyond
  rintro ⟨args, last⟩ k _
  exact .ite (fun _ => .fail) fun _ => .stop id

theorem call_holds (inner : cut.Reads expr) {f : List Node → Node} (i : Nat) : cut.Keeps i False (do
    let args ← arguments expr
    return f args) := by
  apply (arguments_holds inner i).beyond
  intro args k _
  exact .give

theorem method_holds (inner : cut.Reads expr) (operand : cut.Reads primary) (left : Node) (i : Nat) :
    cut.Keeps i (cut.Blind i) (method expr primary left) := by
  apply (operand i).bind
  intro callee k _
  refine (Holds.demand ?_ fun paren l _ _ => ?_).unless And.right
  · intro paren other
    split
    · exact refuses_fail
    · rename_i same
      rw [bne_iff_ne, not_not] at same
      rw [same] at other
      cases other
  · exact .ite (fun _ => .fail) fun _ => call_holds inner l

/-! ### Members -/

/-- The member behind a dot, or that there is none, is told by a name and its end. -/
theorem member_within (cut : s.Cut t j) (left : Node) (position : Position) (h : i ≤ j) :
    ∃ v k, k ≤ j ∧ member left position s i = .ok v k ∧ member left position t i = .ok v k := by
  have words (c : Option Char) (word : CharClass.word.hasOpt c = true) : CharClass.name.hasOpt c = true := by
    cases c with
    | none => simp at word
    | some c => exact name_of_word word
  have first := cut.test_eq words 0 h
  obtain ⟨text, k, -, bound, taken, taken'⟩ := cut.takeClass_within .word (fun _ => name_of_word) h
  have second := cut.test_eq (f := CharClass.name.hasOpt) (fun _ inside => inside) 0 bound
  simp only [Nat.add_zero] at first second
  simp only [member, bind_of_ok (peek_char s i), bind_of_ok (peek_char t i), ← first]
  split
  · simp only [bind_of_ok (here_apply s i), bind_of_ok (here_apply t i), bind_of_ok taken, bind_of_ok taken',
      bind_of_ok (peek_char s k), bind_of_ok (peek_char t k), ← second, cut.places]
    split
    · exact ⟨_, k, bound, rfl, rfl⟩
    · exact ⟨_, k, bound, rfl, rfl⟩
  · exact ⟨_, i, h, rfl, rfl⟩

theorem member_onward (left : Node) (position : Position) : (member left position).Gives s i fun _ k => i ≤ k := by
  refine .after (peek_char s i) (.ite (fun _ => ?_) fun _ => .pure (Nat.le_refl i))
  refine .after (here_apply s i) ((takeClass_onward .word s i).bind fun text k later => ?_)
  exact .after (peek_char s k) (.ite (fun _ => .pure later) fun _ => .pure later)

/-- A dot that selects no member is put back. -/
theorem memberTurn_holds (left : Node) (position : Position) (start : Nat) (before : start ≤ i) :
    cut.Holds i False (fun turn k => cut.Turned (fun _ => cut.Lost) (fun _ => cut.Lost) turn k ∨
        j < i ∧ turn = .done left ∧ k = start) (do
      match ← member left position with
      | some node => return .again node
      | none =>
        Scan.seek start
        return .done left) := by
  intro turn k run
  rcases Nat.lt_or_ge j i with past | bound
  · obtain ⟨found, l, first, last⟩ := bind_ok.mp run
    have later := (member_onward left position).of_ok first
    cases found with
    | some node =>
      obtain ⟨rfl, rfl⟩ := Reply.ok.inj last
      exact .inr (.inl (.inl (by omega)))
    | none =>
      obtain ⟨rfl, rfl⟩ := Reply.ok.inj last
      exact .inr (.inr ⟨past, rfl, rfl⟩)
  · obtain ⟨found, l, within, first, right⟩ := cut.member_within left position bound
    rw [bind_of_ok first] at run
    cases found with
    | some node =>
      obtain ⟨rfl, rfl⟩ := Reply.ok.inj run
      exact .inl ⟨bound, id, within, by rw [bind_of_ok right]; rfl⟩
    | none =>
      obtain ⟨rfl, rfl⟩ := Reply.ok.inj run
      exact .inl ⟨bound, id, by omega, by rw [bind_of_ok right]; rfl⟩

/-! ### All that follows an operand -/

/-- Kinds of token that an operand goes on with. -/
def goesOn (adjacent : Bool) : TokenKind → Bool
  | .arrow | .parenOpen => true
  | .bracketOpen | .dot => adjacent
  | _ => false

theorem Holds.again_of {x : Scan Node} {out : Prop} (h : cut.Keeps i out x) :
    cut.Holds i out (cut.Turned (fun _ => cut.Lost) fun (_ : Node) => cut.Lost) (do return Turn.again (← x)) :=
  (h.mono fun _ _ lost => .inr lost).map

/-- The token behind an operand, and whether it is adjacent, tell if the operand goes on. It is put back if not. -/
theorem Holds.turn {part : Token → Bool → Scan (Turn Node Node)} (left : Node) (goes : Bool → TokenKind → Bool)
    (fixed : ∀ adjacent kind, goes adjacent kind = true → isFixed kind = true ∧ kind ≠ .eol ∧ kind ≠ .blob)
    (puts : ∀ token adjacent, goes adjacent token.kind = false → part token adjacent = (do Scan.seek i; return .done left))
    (act : ∀ token adjacent k, Token.next s i = .ok token k → goes adjacent token.kind = true → cut.Holds k False
      (fun turn l => cut.Turned (fun _ => cut.Lost) (fun _ => cut.Lost) turn l ∨ j < k ∧ turn = .done left ∧ l = i)
      (part token adjacent)) :
    cut.Holds i (cut.Lost i) (cut.Turned (fun _ => cut.Lost) fun _ => cut.Lost) (do
      let adjacent := !CharClass.white.hasOpt (← Scan.peek)
      let token ← Token.next
      part token adjacent) := by
  have ends (adjacent : Bool) : goes adjacent .eol = false ∧ goes adjacent .blob = false := by
    constructor
    · exact Bool.eq_false_iff.mpr fun acts => (fixed adjacent .eol acts).2.1 rfl
    · exact Bool.eq_false_iff.mpr fun acts => (fixed adjacent .blob acts).2.2 rfl
  intro turn l run
  simp only [bind_of_ok (peek_char s i)] at run
  simp only [bind_of_ok (peek_char t i)]
  refine glance_apart (goes (!CharClass.white.hasOpt (s.char? i))) (fun kind acts => (fixed _ kind acts).1) (ends _).2
    (fun token => puts token _) ?_ ?_ (fun token k next => act token _ k next) (fun lost => lost) run
  · intro token eol
    exact puts token _ (by rw [eol]; exact (ends _).1)
  · intro less
    obtain ⟨c, front, front'⟩ := cut.exists_char less
    rw [Source.char?_of_cons front, Source.char?_of_cons front']

theorem postfixTurn_holds (inner : cut.Reads expr) (operand : cut.Reads primary) (left : Node) (i : Nat) :
    cut.Holds i (cut.Lost i) (cut.Turned (fun _ => cut.Lost) fun _ => cut.Lost) (postfixTurn expr primary left) := by
  refine Holds.tell (Holds.turn left goesOn ?_ ?_ ?_)
  · intro adjacent kind goes
    cases kind <;> simp_all [goesOn, isFixed]
  · intro token adjacent stops
    apply postfixPart_of_other
    · rintro same
      rw [same] at stops
      cases stops
    · rintro same
      rw [same] at stops
      cases stops
    · cases adjacent with
      | false => exact .inl rfl
      | true =>
        refine .inr ⟨?_, ?_⟩ <;>
          · intro same
            rw [same] at stops
            cases stops
  · intro token adjacent k first goes
    have covers := covers_of_next first
    have later := covers.start_le
    have stop := covers.spans.cursor
    unfold postfixPart
    split
    · exact (Holds.again_of (index_holds inner left token.position k)).mono fun _ _ => .inl
    · exact (Holds.again_of ((method_holds inner operand left k).unless False.elim)).mono fun _ _ => .inl
    · apply (arguments_holds inner k).beyond
      intro args l _
      exact (Holds.again _).mono fun _ _ => .inl
    · exact memberTurn_holds left token.position i (by omega)
    · unfold goesOn at goes
      split at goes <;> simp_all

theorem postfixed_holds (inner : cut.Reads expr) (operand : cut.Reads primary) : cut.Reads (postfixed expr primary) := by
  intro i
  rw [postfixed_eq]
  apply (operand i).bind
  intro first k _
  exact .loop_of_all (fun _ => cut.Lost) fun left k => postfixTurn_holds inner operand left k

end VimScript.Source.Cut
