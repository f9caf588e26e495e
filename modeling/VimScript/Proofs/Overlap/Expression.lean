import VimScript.Proofs.Overlap.Postfix
import VimScript.Proofs.Token.Extent

/-!
Operands and expressions of a shared text. An expression is read from its line alone: both buffers give trees that look
alike, and there is none to be read at the end of a line.
-/

set_option autoImplicit false

namespace VimScript.Expr

open Overlap Scan
open Token (taken peeked taken_again peeked_again Lexed)

variable {s t : Source} {w : Overlap s t} {p q k : Nat} {a b : Position} {kind : TokenKind} {value : String}
  {expr expr' : Scan Node}

/-! ### Operands -/

theorem list_follows (inner : w.Reads p expr expr') (inside : w.Inside p) (same : w.SamePosition a b) :
    w.Follows p (list expr a) (list expr' b) (w.Kept p w.Alike) := by
  have made {ns ms : List Node} (alike : w.AlikeAll ns ms) : w.Alike (.mk a (.list ns)) (.mk b (.list ms)) :=
    alike_mk same (by simp only [Kind.map, Kind.mapInvocation, alike])
  apply peeked inside
  intro kind value a' b' q token
  apply Follows.ite
  · intro closes
    obtain rfl : kind = .bracketClose := by simpa using closes
    apply taken_again token
    exact .pure ⟨made rfl, token.inside (by simp), token.later⟩
  · intro _
    apply Follows.loop (fun v u r => w.AlikeAll v u ∧ w.Inside r) ⟨rfl, inside⟩ inside.le
    rintro items items' r later ⟨alike, inside'⟩
    apply (inner r later inside').bind
    rintro n m r₂ ⟨alikeItem, inside₂, more⟩ -
    have all := alike.concat alikeItem
    apply peeked inside₂
    intro kind value a b r₃ token
    have later₃ := token.later
    dsimp only
    split
    · have inside₃ := token.inside (by simp)
      apply taken_again token
      apply peeked inside₃
      intro kind value a' b' r₄ token'
      apply Follows.ite
      · intro closes
        obtain rfl : kind = .bracketClose := by simpa using closes
        have later₄ := token'.later
        apply taken_again token'
        exact .pure ⟨made all, token'.inside (by simp), by omega⟩
      · intro _
        exact .pure ⟨by omega, inside₃.le, all, inside₃⟩
    · apply taken_again token
      exact .pure ⟨made all, token.inside (by simp), by omega⟩
    · exact unexpected_follows token.same

theorem parameter_follows {params params' : List Node} (inside : w.Inside p) (alike : w.AlikeAll params params')
    (same : w.SamePosition a b) :
    w.Follows p (parameter params ⟨kind, value, a⟩) (parameter params' ⟨kind, value, b⟩)
      fun v u q => w.Alike v u ∧ q = p := by
  apply Follows.ite
  · intro _
    exact .stop (.fail same)
  · intro _
    dsimp only
    rw [alike.any_leafText value]
    apply Follows.ite
    · intro _
      exact .stop (.fail same)
    · intro _
      apply Follows.peek inside
      intro c _
      apply Follows.ite
      · intro _
        apply peeked inside
        intro kind' value' a' b' q token
        apply Follows.ite
        · intro _
          exact .stop (.failHere inside)
        · intro _
          exact .pure ⟨alike_leaf .identifier value same, rfl⟩
      · intro _
        exact .pure ⟨alike_leaf .identifier value same, rfl⟩

/-- The token that parameters go on from, if it does not end the line. -/
def Going (w : Overlap s t) (p : Nat) (v u : List Node × Token) (q : Nat) : Prop :=
  w.AlikeAll v.1 u.1 ∧ u.2.kind = v.2.kind ∧ u.2.value = v.2.value ∧ w.SamePosition v.2.position u.2.position ∧
    (v.2.kind ≠ .eol → w.Inside q) ∧ p ≤ q

theorem parameters_follows (inside : kind ≠ .eol → w.Inside p) (bound : p ≤ w.text.length) (same : w.SamePosition a b) :
    w.Follows p (parameters ⟨kind, value, a⟩) (parameters ⟨kind, value, b⟩)
      fun v u q => v = none ∧ u = none ∨ ∃ ns ms, v = some ns ∧ u = some ms ∧ w.AlikeAll ns ms ∧ w.Inside q ∧ p ≤ q := by
  have start : Going w p ([], ⟨kind, value, a⟩) ([], ⟨kind, value, b⟩) p :=
    ⟨rfl, rfl, rfl, same, inside, Nat.le_refl p⟩
  apply Follows.loop (Going w p) start bound
  rintro ⟨params, kind, value, a⟩ ⟨params', kind', value', b⟩ q later ⟨alike, sameKind, sameValue, same, inside', -⟩
  obtain rfl : kind' = kind := sameKind
  obtain rfl : value' = value := sameValue
  dsimp only at alike same inside' ⊢
  split
  · exact .pure (.inr ⟨params, params', rfl, rfl, alike, inside' (by simp), later⟩)
  · apply (parameter_follows (inside' (by simp)) alike same).bind
    rintro n m _ ⟨alikeParam, rfl⟩ -
    have all := alike.concat alikeParam
    apply taken (inside' (by simp))
    intro kind value a b r token
    have later' := token.later
    dsimp only
    split
    · have inside'' := token.inside (by simp)
      have moved := token.more (by simp)
      apply peeked inside''
      intro kind value a b r₂ token'
      have later₂ := token'.later
      apply Follows.ite
      · intro arrow
        obtain rfl : kind = .arrow := by simpa using arrow
        apply taken_again token'
        exact .pure (.inr ⟨_, _, rfl, rfl, all, token'.inside (by simp), by omega⟩)
      · intro _
        apply taken_again token'
        exact .pure ⟨by omega, token'.bound, all, rfl, rfl, token'.same, token'.inside, by omega⟩
    · exact .pure (.inr ⟨_, _, rfl, rfl, all, token.inside (by simp), by omega⟩)
    · exact .fail token.same
  · have all := alike.concat (alike_leaf .identifier value' same)
    apply peeked (inside' (by simp))
    intro kind value a b r token
    have later' := token.later
    apply Follows.ite
    · intro arrow
      obtain rfl : kind = .arrow := by simpa using arrow
      apply taken_again token
      exact .pure (.inr ⟨_, _, rfl, rfl, all, token.inside (by simp), by omega⟩)
    · intro _
      exact unexpected_follows token.same
  · exact .pure (.inl ⟨rfl, rfl⟩)

theorem lambda_follows {a' b' : Position} (inner : w.Reads p expr expr') (inside : kind ≠ .eol → w.Inside p)
    (bound : p ≤ w.text.length) (same : w.SamePosition a b) (samePosition : w.SamePosition a' b') :
    w.Follows p (lambda expr ⟨kind, value, a⟩ a') (lambda expr' ⟨kind, value, b⟩ b')
      fun v u q => v = none ∧ u = none ∨ ∃ n m, v = some n ∧ u = some m ∧ w.Alike n m ∧ w.Inside q ∧ p ≤ q := by
  apply (parameters_follows inside bound same).bind
  rintro found found' q (⟨rfl, rfl⟩ | ⟨ns, ms, rfl, rfl, alike, inside', later⟩) -
  · exact .pure (.inl ⟨rfl, rfl⟩)
  · apply (inner q later inside').bind
    rintro n m r ⟨alikeBody, inside'', more⟩ -
    apply taken inside''
    intro kind value a b r' token
    apply Follows.ite
    · intro _
      exact .stop (unexpected_follows token.same)
    · intro closes
      obtain rfl : kind = .braceClose := by simpa using closes
      have later' := token.later
      refine .pure (.inr ⟨_, _, rfl, rfl, alike_mk samePosition ?_, token.inside (by simp), by omega⟩)
      simp only [Kind.map, Kind.mapInvocation, alike, alikeBody]

theorem literalKey_follows (inside : w.Inside p) : w.Follows p literalKey literalKey (w.Grown p) := by
  apply (Token.literalKey_follows inside).bind
  rintro ⟨text, a⟩ ⟨_, b⟩ q ⟨rfl, same, inside', more⟩ -
  exact .pure ⟨alike_leaf .string _ same, inside', more⟩

theorem dict_follows {key key' : Scan Node} {start : Nat} (inner : w.Reads p expr expr') (keys : w.Reads p key key')
    (named : w.Follows start (name expr) (name expr') (w.Grown start)) (inside : w.Inside p) (before : start < p)
    (same : w.SamePosition a b) :
    w.Follows p (dict expr key (w.left + start) a) (dict expr' key' (w.right + start) b) (w.Grown start) := by
  have made {entries entries' : List (Node × Node)}
      (alike : entries.map (fun e => (e.1.seen w.leftSight, e.2.seen w.leftSight)) =
        entries'.map fun e => (e.1.seen w.rightSight, e.2.seen w.rightSight)) :
      w.Alike (.mk a (.dict entries)) (.mk b (.dict entries')) :=
    alike_mk same (by simp only [Kind.map, Kind.mapInvocation, alike])
  apply peeked inside
  intro kind value a' b' q token
  apply Follows.ite
  · intro closes
    obtain rfl : kind = .braceClose := by simpa using closes
    have later := token.later
    apply taken_again token
    exact .pure ⟨made rfl, token.inside (by simp), by omega⟩
  · intro _
    apply Follows.loop
      (fun (v u : List (Node × Node)) r => v.map (fun e => (e.1.seen w.leftSight, e.2.seen w.leftSight)) =
        u.map (fun e => (e.1.seen w.rightSight, e.2.seen w.rightSight)) ∧ w.Inside r) ⟨rfl, inside⟩ inside.le
    rintro entries entries' r later ⟨alike, inside'⟩
    apply (keys r later inside').bind
    rintro k k' r₂ ⟨alikeKey, inside₂, more⟩ -
    apply taken inside₂
    intro kind value a b r₃ token
    have later₃ := token.later
    dsimp only
    split
    · have empty : entries.isEmpty = entries'.isEmpty := by
        rw [Bool.eq_iff_iff, List.isEmpty_iff_length_eq_zero, List.isEmpty_iff_length_eq_zero]
        have counts := congrArg List.length alike
        simp only [List.length_map] at counts
        rw [counts]
      rw [empty]
      apply Follows.ite
      · intro _
        apply Follows.seek
        apply named.bind
        rintro n m r₄ grown -
        exact .pure grown
      · intro _
        exact unexpected_follows token.same
    · apply (inner r₃ (by omega) (token.inside (by simp))).bind
      rintro v v' r₄ ⟨alikeValue, inside₄, more₄⟩ -
      have all : (entries ++ [(k, v)]).map (fun e => (e.1.seen w.leftSight, e.2.seen w.leftSight)) =
          (entries' ++ [(k', v')]).map fun e => (e.1.seen w.rightSight, e.2.seen w.rightSight) := by
        simp only [List.map_append, List.map_cons, List.map_nil, alike, alikeKey, alikeValue]
      apply taken inside₄
      intro kind value a b r₅ token
      have later₅ := token.later
      dsimp only
      split
      · have inside₅ := token.inside (by simp)
        apply peeked inside₅
        intro kind value a' b' r₆ token'
        apply Follows.ite
        · intro closes
          obtain rfl : kind = .braceClose := by simpa using closes
          have later₆ := token'.later
          apply taken_again token'
          exact .pure ⟨made all, token'.inside (by simp), by omega⟩
        · intro _
          exact .pure ⟨by omega, inside₅.le, all, inside₅⟩
      · exact .pure ⟨made all, token.inside (by simp), by omega⟩
      · exact unexpected_follows token.same
    · exact unexpected_follows token.same

/-! ### Braces -/

/-- From a place on, two readers of expressions find none at the end of a line. -/
def Stops (w : Overlap s t) (k : Nat) (x y : Scan Node) : Prop :=
  ∀ p value a b q, k ≤ p → Lexed w p .eol value a b q → w.Follows p x y fun _ _ _ => False

/-- Where nothing more stands on the line there is no dictionary to be read. -/
theorem dict_stops {key key' : Scan Node} {start start' : Nat} (ended : Lexed w p .eol value a b q)
    (keys : w.Follows p key key' fun _ _ _ => False) {a' b' : Position} :
    w.Follows p (dict expr key start a') (dict expr' key' start' b') fun _ _ _ => False := by
  apply peeked_again ended
  apply Follows.ite
  · intro closes
    simp at closes
  · intro _
    apply Follows.loop (fun _ _ r => r = p) rfl (Nat.le_trans ended.later ended.bound)
    rintro entries entries' _ - rfl
    exact keys.stop

theorem literalKey_stops (inside : w.Inside p) (ended : Lexed w p .eol value a b q) :
    w.Follows p literalKey literalKey fun _ _ _ => False := by
  obtain ⟨r, c, blanks, char, line, -⟩ := ended.start (by simp)
  obtain rfl : c = '\n' := line rfl
  have key : w.Follows p Token.literalKey Token.literalKey fun _ _ _ => False := by
    apply Follows.skip inside
    intro _ r' inside' later blanks'
    obtain rfl : r = r' := by simpa [blanks] using blanks'
    apply Follows.peek inside'
    intro c found
    obtain rfl : c = some '\n' := found.symm.trans char
    apply Follows.ite
    · intro _
      exact .stop (.failHere inside')
    · intro isKey
      exact absurd (by decide) isKey
  exact key.stop

theorem promisesLambda_follows (inside : w.Inside p) :
    w.Follows p (promisesLambda ⟨kind, value, a⟩) (promisesLambda ⟨kind, value, b⟩) fun v u q => v = u ∧ q = p := by
  unfold promisesLambda
  dsimp only
  split
  · exact .pure ⟨rfl, rfl⟩
  · exact .pure ⟨rfl, rfl⟩
  · exact .pure ⟨rfl, rfl⟩
  · apply peeked inside
    intro kind value a b q token
    exact .pure ⟨rfl, rfl⟩

/-- The text of a brace ends with the brace. -/
theorem written_of_brace {token : Token} {i j : Nat} (run : Token.next s i = .ok token j)
    (opens : token.kind = .braceOpen ∨ token.kind = .literalBraceOpen) : ∃ front, token.written = front ++ ['\x7b'] := by
  obtain ⟨ws, k, -, -, -, taken⟩ := Token.gives_next s i token j run
  cases taken with
  | eof | eol => simp at opens
  | @lexeme kind xs _ _ spelled =>
    have table : ∀ form ∈ Token.operators, form.2 = .braceOpen ∨ form.2 = .literalBraceOpen →
        form.1.toList = form.1.toList.dropLast ++ ['\x7b'] := by decide
    have listed := spelled.mem_operators (by rcases opens with same | same <;> rw [show kind = _ from same] <;> decide)
    refine ⟨(String.ofList xs).toList.dropLast, ?_⟩
    rw [Token.written_of_spelling spelled, ← table _ listed opens, String.toList_ofList]

theorem drop_of_spans {xs : List Char} (spans : s.Spans (w.left + p) xs (w.left + q)) (bound : q ≤ w.text.length) :
    w.text.drop p = xs ++ w.text.drop q := by
  have length := spans.cursor
  have ahead := spans.ahead
  rw [SharedText.leftAhead_add (by omega), SharedText.leftAhead_add bound, ← List.append_assoc] at ahead
  exact List.append_cancel_right ahead

/-- A brace at the end of the last line of the text is the end of the text. -/
theorem endsInBrace_of_brace {value' : String} {a' b' : Position} (brace : Lexed w p kind value a b q)
    (opens : kind = .braceOpen ∨ kind = .literalBraceOpen) (line : Lexed w q .eol value' a' b' w.text.length) :
    w.EndsInBrace := by
  have covers := Token.covers_of_next brace.left
  obtain ⟨ws, blanks, -⟩ := covers.blanks
  obtain ⟨front, text⟩ := written_of_brace brace.left opens
  have upToBrace := drop_of_spans (blanks.append covers.spans) brace.bound
  have covers' := Token.covers_of_next line.left
  obtain ⟨ws', blanks', white⟩ := covers'.blanks
  have upToEnd := drop_of_spans (blanks'.append covers'.spans) (Nat.le_refl _)
  have newline : Token.written ⟨.eol, value', a'⟩ = ['\n'] := rfl
  rw [upToEnd, newline, text, List.drop_length] at upToBrace
  refine ⟨w.text.take p ++ ws ++ front ++ '\x7b' :: ws', ?_, ?_⟩
  · refine (List.take_append_drop p w.text).symm.trans ?_
    rw [upToBrace]
    simp
  · have blank : ∀ c ∈ ws'.reverse, CharClass.white.has c = true := fun c place => white c (List.mem_reverse.mp place)
    have solid : CharClass.white.has '\x7b' = false := by decide
    simp [endsInBrace, List.reverse_append, List.dropWhile_append_of_pos blank, solid]

/-- The end of the line promises no lambda, though the next line decides how that is found out. -/
theorem found_of_eol {i : Nat} (expr : Scan Node) (value : String) (a a' : Position) :
    let x : Scan (Option Node) := do
      if ← promisesLambda ⟨.eol, value, a⟩ then lambda expr ⟨.eol, value, a⟩ a'
      else return none
    (∀ token j, Token.next s i = .ok token j → x s i = .ok none i) ∧
      ∀ e j, Token.next s i = .fail e j → x s i = .fail e i := by
  have none : lambda expr ⟨.eol, value, a⟩ a' s i = .ok none i := by
    have stops : parameters ⟨.eol, value, a⟩ s i = .ok none i := loop_of_done rfl
    exact (bind_of_ok stops).trans rfl
  constructor
  · intro token j run
    have second := peeking_of_ok run
    simp only [promisesLambda, bind_apply, Token.peek, second, pure_apply]
    split
    · exact none
    · rfl
  · intro e j run
    simp only [promisesLambda, bind_apply, Token.peek, Scan.peeking, run]

theorem braces_follows (brace : Lexed w p kind value a b q) (opens : kind = .braceOpen ∨ kind = .literalBraceOpen)
    (inner : w.Reads (p + 1) expr expr') (named : w.Follows p (name expr) (name expr') (w.Grown p))
    (stops : Stops w (p + 1) expr expr') :
    w.Follows q (braces expr (w.left + p) ⟨kind, value, a⟩) (braces expr' (w.right + p) ⟨kind, value, b⟩) (w.Grown p) := by
  have plain : kind ≠ .eol := by rintro rfl; simp at opens
  have more := brace.more (by rintro rfl; simp at opens)
  apply Follows.tell
  apply taken (brace.inside plain)
  intro kind₁ value₁ a₁ b₁ r first
  have later := first.later
  -- Where the line ends with the brace the text may end as well. No dictionary goes on there, and the reader fails.
  by_cases inside : w.Inside r
  · apply Follows.through fun v u q' => v = none ∧ u = none ∨
      ∃ n m, v = some n ∧ u = some m ∧ w.Alike n m ∧ w.Inside q' ∧ r ≤ q'
    · apply (promisesLambda_follows inside).bind
      rintro yes _ _ ⟨rfl, rfl⟩ -
      apply Follows.ite
      · intro _
        exact lambda_follows (inner.from (by omega)) (fun _ => inside) inside.le first.same brace.same
      · intro _
        exact .pure (.inl ⟨rfl, rfl⟩)
    · rintro found found' r₂ (⟨rfl, rfl⟩ | ⟨n, m, rfl, rfl, alike, inside', later'⟩) -
      · apply Follows.seek
        refine dict_follows (inner.from (by omega)) ?_ named (brace.inside plain) more brace.same
        intro p' later' inside'
        dsimp only
        split
        · exact literalKey_follows inside'
        · exact inner p' (by omega) inside'
      · exact .pure ⟨alike, inside', by omega⟩
  · have line : kind₁ = .eol := by
      by_contra other
      exact inside (first.inside other)
    have apart : ¬w.Complete := fun complete => inside (SharedText.inside_of_complete complete first.bound)
    obtain rfl : r = w.text.length := by
      have bound := first.bound
      by_contra other
      exact inside (.inl (by omega))
    subst line
    have entries : w.Follows q (dict expr (if kind == .literalBraceOpen then literalKey else expr) (w.left + p) a)
        (dict expr' (if kind == .literalBraceOpen then literalKey else expr') (w.right + p) b) fun _ _ _ => False := by
      refine dict_stops first ?_
      split
      · exact literalKey_stops (brace.inside plain) first
      · exact stops _ _ _ _ _ more first
    have bound : w.left + w.text.length ≤ s.size := w.left_add_le (Nat.le_refl _)
    have found := @found_of_eol s (w.left + w.text.length) expr value₁ a₁ a
    have found' := @found_of_eol t (w.right + w.text.length) expr' value₁ b₁ b
    by_cases compared : w.faults
    -- Both buffers go on with a token, so neither reader stops before the dictionary.
    · have reads := (w.settled compared).resolve_left apart (endsInBrace_of_brace brace opens first)
      obtain ⟨⟨token, j, run⟩, token', j', run'⟩ := reads
      apply Follows.after (found.1 token j run) (found'.1 token' j' run')
      apply Follows.seek
      exact entries.mono fun _ _ _ never => never.elim
    · apply Follows.of_fails compared
      cases run : Token.next s (w.left + w.text.length) with
      | ok token j =>
        refine Overlap.Fails.after (found.1 token j run) ?_
        refine Overlap.Fails.after rfl ?_
        exact entries.fails
      | fail e j => exact Overlap.Fails.bind ⟨e, _, found.2 e j run⟩
      | spent => exact absurd run (Token.next_ne_spent bound)

/-! ### Operands by their first token -/

theorem named_of_lexed (token : Lexed w p kind value a b q) (names : Token.opensName kind = true) :
    ∀ r, Scan.skipWhite s (w.left + p) = .ok () (w.left + r) → Named w r := by
  intro r blanks
  have plain : kind ≠ .eof ∧ kind ≠ .eol := by
    constructor <;> rintro rfl <;> simp [Token.opensName] at names
  obtain ⟨r', c, blanks', char, -, suits⟩ := token.start plain.1
  obtain rfl : r' = r := by simpa [blanks] using blanks'.symm
  exact .inl ⟨c, char, (suits plain.2).name names⟩

/-- Whether the word of a script mark follows, as told by the run of characters ahead. -/
theorem afterAngle_follows (inside : w.Inside p) :
    w.Follows p afterAngleIsScriptId afterAngleIsScriptId fun v u q => v = u ∧ q = p ∧
      (v = true → ∀ mark : String, mark.toList = (Source.run (fun _ => true) (w.text.drop p)).take 4 →
        sameIgnoringCase mark "SID>" = true) := by
  apply Follows.peekRun 4 inside
  intro mark run
  refine .pure ⟨rfl, rfl, ?_⟩
  intro found mark' run'
  rwa [String.toList_inj.mp (run'.trans run.symm)]

theorem named_of_angle (token : Lexed w p (.compare .smaller .byOption) value a b q)
    (scope : ∀ mark : String, mark.toList = (Source.run (fun _ => true) (w.text.drop q)).take 4 →
      sameIgnoringCase mark "SID>" = true) :
    ∀ r, Scan.skipWhite s (w.left + p) = .ok () (w.left + r) → Named w r := by
  intro r blanks
  obtain ⟨r', c, blanks', char, -, suits⟩ := token.start (by simp)
  obtain rfl : r' = r := by simpa [blanks] using blanks'.symm
  obtain ⟨rfl, rfl⟩ := (suits (by simp)).angle rfl
  refine .inr fun mark run => ?_
  have front : Source.run (fun _ => true) (w.text.drop r') = '<' :: Source.run (fun _ => true) (w.text.drop (r' + 1)) := by
    obtain ⟨less, here⟩ := List.getElem?_eq_some_iff.mp char
    rw [List.drop_eq_getElem_cons less, here]
    rfl
  have word := scope (String.ofList ((Source.run (fun _ => true) (w.text.drop (r' + 1))).take 4)) String.toList_ofList
  rw [front, List.take_succ_cons] at run
  rw [sameIgnoringCase, String.toList_ofList, beq_iff_eq] at word
  rw [sameIgnoringCase, run, List.map_cons, word]
  decide

theorem primary_follows (inner : w.Reads (p + 1) expr expr') (stops : Stops w (p + 1) expr expr') (inside : w.Inside p) :
    w.Follows p (primary expr) (primary expr') (w.Grown p) := by
  apply Follows.tell
  apply taken inside
  intro kind value a b q token
  have leaf {sort : Leaf} (plain : kind ≠ .eol ∧ kind ≠ .eof) :
      w.Follows q (Pure.pure (Node.leaf sort value a)) (Pure.pure (Node.leaf sort value b)) (w.Grown p) :=
    .pure ⟨alike_leaf sort value token.same, token.inside plain.1, token.more plain.2⟩
  have named (names : Token.opensName kind = true) : w.Follows p (name expr) (name expr') (w.Grown p) :=
    name_follows inner inside (named_of_lexed token names)
  have back (names : Token.opensName kind = true) :
      w.Follows q (Scan.seek (w.left + p) >>= fun _ => name expr) (Scan.seek (w.right + p) >>= fun _ => name expr')
        (w.Grown p) := by
    apply Follows.seek
    exact named names
  dsimp only
  split
  · exact leaf (by simp)
  · exact leaf (by simp)
  · exact leaf (by simp)
  · exact leaf (by simp)
  · exact leaf (by simp)
  · apply Follows.seek
    apply (Token.doubleQuoted_follows inside).bind
    rintro text _ r ⟨rfl, inside', more⟩ -
    exact .pure ⟨alike_leaf .string _ token.same, inside', more⟩
  · apply Follows.seek
    apply (Token.singleQuoted_follows inside).bind
    rintro text _ r ⟨rfl, inside', more⟩ -
    exact .pure ⟨alike_leaf .string _ token.same, inside', more⟩
  · have more := token.more (by simp)
    apply (list_follows (inner.from (by omega)) (token.inside (by simp)) token.same).mono
    rintro n m r ⟨alike, inside', later⟩
    exact ⟨alike, inside', by omega⟩
  · exact braces_follows token (.inl rfl) inner (named rfl) stops
  · exact braces_follows token (.inr rfl) inner (named rfl) stops
  · have more := token.more (by simp)
    apply (inner q (by omega) (token.inside (by simp))).bind
    rintro n m r ⟨alike, inside', more'⟩ -
    apply taken inside'
    intro kind value a' b' r' close
    have later := close.later
    apply Follows.ite
    · intro _
      exact .stop (unexpected_follows close.same)
    · intro closes
      obtain rfl : kind = .parenClose := by simpa using closes
      exact .pure ⟨alike, close.inside (by simp), by omega⟩
  · apply (afterAngle_follows (token.inside (by simp))).bind
    rintro found _ _ ⟨rfl, rfl, scope⟩ -
    apply Follows.ite
    · intro yes
      apply Follows.seek
      exact name_follows inner inside (named_of_angle token (scope yes))
    · intro _
      exact unexpected_follows token.same
  · exact back rfl
  · exact back rfl
  · exact back rfl
  · exact back rfl
  · exact back rfl
  · exact unexpected_follows token.same

/-! ### Levels -/

variable {operand operand' : Scan Node} {operator : TokenKind → Option BinaryOp}

theorem chain_follows (ends : operator .eof = none ∧ operator .eol = none) (inner : w.Reads p operand operand')
    (inside : w.Inside p) : w.Follows p (chain operator operand) (chain operator operand') (w.Grown p) := by
  apply (inner p (Nat.le_refl p) inside).bind
  rintro first first' q ⟨alike, inside', more⟩ -
  apply Follows.loop (fun v u r => w.Alike v u ∧ w.Inside r) ⟨alike, inside'⟩ inside'.le
  rintro left left' r later ⟨alike, inside''⟩
  apply Follows.tell
  apply taken inside''
  intro kind value a b r₂ token
  dsimp only
  split
  · rename_i op found
    have plain : kind ≠ .eof ∧ kind ≠ .eol := by
      constructor
      · rintro rfl
        simp [ends.1] at found
      · rintro rfl
        simp [ends.2] at found
    have moved := token.more plain.1
    apply (inner r₂ (by omega) (token.inside plain.2)).bind
    rintro right right' r₃ ⟨alikeRight, inside₃, more₃⟩ -
    refine .pure ⟨by omega, inside₃.le, alike_mk token.same ?_, inside₃⟩
    simp only [Kind.map, Kind.mapInvocation, alike, alikeRight]
  · apply Follows.seek
    exact .pure ⟨alike, inside'', by omega⟩

theorem comparison_follows (inner : w.Reads p operand operand') (inside : w.Inside p) :
    w.Follows p (comparison operand) (comparison operand') (w.Grown p) := by
  apply (inner p (Nat.le_refl p) inside).bind
  rintro left left' q ⟨alike, inside', more⟩ -
  apply Follows.tell
  apply taken inside'
  intro kind value a b r token
  dsimp only
  split
  · rename_i op found
    have plain : kind ≠ .eol := by
      rintro rfl
      simp [TokenKind.comparison?] at found
    have later := token.later
    apply (inner r (by omega) (token.inside plain)).bind
    rintro right right' r₂ ⟨alikeRight, inside₂, more₂⟩ -
    refine .pure ⟨alike_mk token.same ?_, inside₂, by omega⟩
    simp only [Kind.map, Kind.mapInvocation, alike, alikeRight]
  · apply Follows.seek
    exact .pure ⟨alike, inside', more⟩

/-- Operators before an operand, each with what is seen of its position. -/
def seenSigns (v : Sight) (ops : List (UnaryOp × Position)) : List (UnaryOp × Position) :=
  ops.map fun (op, position) => (op, v.position position)

theorem alike_signed {ops ops' : List (UnaryOp × Position)} {n m : Node}
    (same : seenSigns w.leftSight ops = seenSigns w.rightSight ops') (alike : w.Alike n m) :
    w.Alike (ops.foldl (fun inner (op, position) => .mk position (.unary op inner)) n)
      (ops'.foldl (fun inner (op, position) => .mk position (.unary op inner)) m) := by
  induction ops generalizing ops' n m with
  | nil =>
    obtain rfl : ops' = [] := by simpa [seenSigns] using same.symm
    exact alike
  | cons op ops ih =>
    cases ops' with
    | nil => simp [seenSigns] at same
    | cons op' ops' =>
      obtain ⟨⟨sameOp, samePosition⟩, rest⟩ : (op.1 = op'.1 ∧ w.SamePosition op.2 op'.2) ∧
          seenSigns w.leftSight ops = seenSigns w.rightSight ops' := by
        simpa [seenSigns, SamePosition] using same
      have signed : w.Alike (.mk op.2 (.unary op.1 n)) (.mk op'.2 (.unary op'.1 m)) :=
        alike_mk samePosition (by simp only [Kind.map, Kind.mapInvocation, sameOp, alike])
      have all := ih rest signed
      exact all

theorem prefixed_follows (inner : w.Reads p operand operand') (inside : w.Inside p) :
    w.Follows p (prefixed operand) (prefixed operand') (w.Grown p) := by
  apply Follows.through fun v u q => seenSigns w.leftSight v = seenSigns w.rightSight u ∧ w.Inside q ∧ p ≤ q
  · apply Follows.loop (fun v u q => seenSigns w.leftSight v = seenSigns w.rightSight u ∧ w.Inside q) ⟨rfl, inside⟩ inside.le
    rintro ops ops' q later ⟨same, inside'⟩
    apply Follows.tell
    apply taken inside'
    intro kind value a b r token
    dsimp only
    split
    · rename_i op found
      have plain : kind ≠ .eof ∧ kind ≠ .eol := by
        constructor <;> rintro rfl <;> simp [TokenKind.unary?] at found
      refine .pure ⟨token.more plain.1, token.bound, ?_, token.inside plain.2⟩
      simp only [seenSigns, List.map_cons] at same ⊢
      rw [same, token.same]
    · apply Follows.seek
      exact .pure ⟨same, inside', later⟩
  · rintro ops ops' q ⟨same, inside', later⟩ -
    apply (inner q later inside').bind
    rintro n m r ⟨alike, inside'', more⟩ -
    exact .pure ⟨alike_signed same alike, inside'', by omega⟩

theorem ternary_follows (inner : w.Reads (p + 1) expr expr') (levels : w.Follows p operand operand' (w.Grown p)) :
    w.Follows p (ternary expr operand) (ternary expr' operand') (w.Grown p) := by
  apply levels.bind
  rintro cond cond' q ⟨alike, inside, more⟩ -
  apply Follows.tell
  apply taken inside
  intro kind value a b r token
  have later := token.later
  apply Follows.ite
  · intro question
    obtain rfl : kind = .question := by simpa using question
    apply (inner r (by omega) (token.inside (by simp))).bind
    rintro yes yes' r₂ ⟨alikeYes, inside₂, more₂⟩ -
    apply taken inside₂
    intro kind value a' b' r₃ colon
    have later₃ := colon.later
    apply Follows.ite
    · intro _
      exact .stop (unexpected_follows colon.same)
    · intro plain
      obtain rfl : kind = .colon := by simpa using plain
      apply (inner r₃ (by omega) (colon.inside (by simp))).bind
      rintro no no' r₄ ⟨alikeNo, inside₄, more₄⟩ -
      refine .pure ⟨alike_mk token.same ?_, inside₄, by omega⟩
      simp only [Kind.map, Kind.mapInvocation, alike, alikeYes, alikeNo]
  · intro _
    apply Follows.seek
    exact .pure ⟨alike, inside, more⟩

theorem level_follows (inner : w.Reads (p + 1) expr expr') (stops : Stops w (p + 1) expr expr') (inside : w.Inside p) :
    w.Follows p (level expr) (level expr') (w.Grown p) := by
  have later : ∀ {q}, p ≤ q → w.Reads (q + 1) expr expr' ∧ Stops w (q + 1) expr expr' := fun more =>
    ⟨inner.from (by omega), fun p' value a b q' after => stops p' value a b q' (by omega)⟩
  have operands : w.Reads p (primary expr) (primary expr') := fun q more inside' =>
    primary_follows (later more).1 (later more).2 inside'
  have products : w.Reads p (product expr) (product expr') := fun q more inside' =>
    chain_follows ⟨rfl, rfl⟩ (fun q' more' => prefixed_follows fun q'' more'' inside'' =>
      postfixed_follows (later (by omega)).1 (operands.from (by omega)) inside'') inside'
  have sums : w.Reads p (sum expr) (sum expr') := fun q more inside' =>
    chain_follows ⟨rfl, rfl⟩ (products.from more) inside'
  have conjunctions : w.Reads p (conjunction expr) (conjunction expr') := fun q more inside' =>
    chain_follows ⟨rfl, rfl⟩ (fun q' more' inside'' => comparison_follows (sums.from (by omega)) inside'') inside'
  exact ternary_follows inner (chain_follows ⟨rfl, rfl⟩ conjunctions inside)

/-! ### The end of a line -/

theorem prefixed_stops (ended : Lexed w p .eol value a b q)
    (operands : w.Follows p operand operand' fun _ _ _ => False) :
    w.Follows p (prefixed operand) (prefixed operand') fun _ _ _ => False := by
  apply Follows.through fun _ _ r => r = p
  · apply Follows.loop (fun _ _ r => r = p) rfl (Nat.le_trans ended.later ended.bound)
    rintro ops ops' _ - rfl
    apply Follows.tell
    apply taken_again ended
    apply Follows.seek
    exact .pure rfl
  · rintro ops ops' _ rfl -
    exact operands.stop

theorem level_stops (ended : Lexed w p .eol value a b q) :
    w.Follows p (level expr) (level expr') fun _ _ _ => False := by
  have operands : w.Follows p (primary expr) (primary expr') fun _ _ _ => False := by
    apply Follows.tell
    apply taken_again ended
    exact unexpected_follows ended.same
  have products : w.Follows p (product expr) (product expr') fun _ _ _ => False :=
    (prefixed_stops ended operands.stop).stop
  exact products.stop.stop.stop.stop.stop

theorem nested_follows (n m : Nat) (inside : w.Inside p) (deep : w.text.length - p < n) (deep' : w.text.length - p < m) :
    w.Follows p (nested n) (nested m) (w.Grown p) := by
  induction n generalizing m p with
  | zero => omega
  | succ n ih =>
    obtain ⟨m, rfl⟩ : ∃ k, m = k + 1 := ⟨m - 1, by omega⟩
    apply level_follows
    · intro q more inside'
      have bound := inside'.le
      exact ih m inside' (by omega) (by omega)
    · intro q value a b r more ended
      have moved := ended.more (by simp)
      have bound := ended.bound
      obtain ⟨n, rfl⟩ : ∃ k, n = k + 1 := ⟨n - 1, by omega⟩
      obtain ⟨m, rfl⟩ : ∃ k, m = k + 1 := ⟨m - 1, by omega⟩
      exact level_stops ended
    · exact inside

theorem read_follows (inside : w.Inside p) : w.Follows p read read (w.Grown p) := by
  have left := w.length_le_leftSize
  have right := w.length_le_rightSize
  have follows := nested_follows (s.size + 1) (t.size + 1) inside (by omega) (by omega)
  unfold Overlap.Follows at follows ⊢
  unfold read
  exact follows

theorem reads (w : Overlap s t) (k : Nat) : w.Reads k read read :=
  fun _ _ inside => read_follows inside

end VimScript.Expr
