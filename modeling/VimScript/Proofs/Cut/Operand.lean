import VimScript.Proofs.Cut.Postfix
import VimScript.Proofs.Expr.Lambdas
import VimScript.Proofs.Token.Literals

/-!
Operands before a cut: lists, strings, lambdas, dictionaries and names.
-/

set_option autoImplicit false

namespace VimScript.Source.Cut

open Scan Token VimScript.Expr

variable {α β : Type} {s t : Source} {i j k : Nat} {cut : s.Cut t j} {expr : Scan Node}

/-! ### Lists -/

/-- Two scans that give the same from two cursors. -/
def Agree (u : Source) (i k : Nat) (x y : Scan β) : Prop :=
  ∀ v l, x u i = .ok v l ↔ y u k = .ok v l

theorem agree_next {u : Source} {token : Token} (run : Token.next u i = .ok token k) (x : Scan β) :
    Agree u i k (do let _ ← Token.next; x) x := by
  intro v l
  rw [bind_of_ok run]

theorem agree_fail {u : Source} {cause : Cause} {position : Position} :
    Agree u i k (Scan.fail cause position : Scan β) (Scan.fail cause position) := by
  intro v l
  simp [Scan.fail]

/-- A token that is looked at first and then taken. -/
theorem Holds.peekNext {out : Prop} {final : β → Nat → Prop} {f g : Token → Scan β}
    (same : ∀ u token k, Token.next u i = .ok token k → Agree u i k (f token) (g token))
    (h : cut.Holds i out final (Token.next >>= g)) : cut.Holds i out final (Token.peek >>= f) := by
  refine h.congr fun u v l => ?_
  rw [peek_bind_ok, bind_ok]
  exact exists_congr fun token => exists_congr fun k => and_congr_right fun run => same u token k run v l

theorem list_holds (inner : cut.Reads expr) (position : Position) (i : Nat) : cut.Keeps i False (list expr position) := by
  refine Holds.close (g := fun _ _ => Pure.pure (Node.mk position (.list []))) rfl rfl (fun _ _ _ _ => .give) ?_
  apply Holds.loop_of_all (fun _ _ => False)
  intro items k
  apply ((inner k).unless False.elim).bind
  intro item l _
  have ends : cut.Holds l (cut.Shut l) (cut.Turned (fun _ _ => False) fun _ => cut.Lost)
      (Token.next >>= itemEnd .bracketClose (items ++ [item]) fun _ => Node.mk position (.list (items ++ [item]))) :=
    .items .bracketClose rfl rfl (fun _ _ => cut.lost_of_past) _ _ fun _ => rfl
  refine (ends.peekNext fun u token p run => ?_).unless And.right
  obtain ⟨kind, value, position⟩ := token
  cases kind <;> first | exact agree_next run _ | exact agree_fail

/-! ### Strings -/

theorem singleTurn_holds (start : Nat) (i : Nat) :
    cut.Holds i False (cut.Turned (fun _ _ => False) fun _ => cut.Lost) (singleTurn start) := by
  apply Holds.peekInLine
  · rintro i v k ⟨⟩
  intro c
  split
  · cases ‹some c = none›
  · apply Holds.tell
    apply Holds.advance
    apply Holds.peek
    · intro _
      split
      · exact .move 1 (.again _)
      · exact .textBetween start i (Nat.le_succ i) (.done cut.lost_of_past)
    · intro past
      split
      · exact Holds.meets past (.again _)
      · intro v k run
        by_cases last : i + 1 = j
        · obtain ⟨rfl, rfl⟩ := Reply.ok.inj run
          refine .inl ⟨last, id, last, ?_⟩
          show Reply.ok (Turn.done (t.text start i)) (i + 1) = _
          rw [cut.text_eq (by omega)]
        · obtain ⟨rfl, rfl⟩ := Reply.ok.inj run
          exact .inr (cut.lost_of_past (by omega))
  · exact .advance (.again _)

theorem doubleTurn_holds (start : Nat) (i : Nat) :
    cut.Holds i False (cut.Turned (fun _ _ => False) fun _ => cut.Lost) (doubleTurn start) := by
  apply Holds.peekInLine
  · rintro i v k ⟨⟩
  intro c
  split
  · cases ‹some c = none›
  · apply Holds.tell
    apply Holds.advance
    exact .textBetween start i (Nat.le_succ i) (.done cut.lost_of_past)
  · apply Holds.advance
    apply Holds.peekInLine
    · rintro i v k ⟨⟩
    · intro _
      exact .advance (.again _)
  · exact .advance (.again _)

/-- The opening quote of a string. -/
theorem Holds.quote {final : β → Nat → Prop} {x : Scan β} (mark : Char)
    (second : ∀ k, cut.Holds k False final x) : cut.Holds i False final (do
      Scan.skipWhite
      let c ← Scan.peek
      if c != some mark then
        Scan.failHere (.unexpectedCharacter c)
      Scan.skip 1
      x) := by
  apply Holds.skipWhite
  intro k _
  apply Holds.peek
  · intro _
    exact .ite (fun _ => .failHere) fun _ => .move 1 (second _)
  · intro past
    split
    · rintro v l ⟨⟩
    · exact (second (k + 1)).meets past

theorem singleQuoted_holds (i : Nat) : cut.Keeps i False singleQuoted := by
  apply Holds.quote '\''
  intro k
  exact .tell (.loop_of_all (fun _ _ => False) fun _ => singleTurn_holds k)

theorem doubleQuoted_holds (i : Nat) : cut.Keeps i False doubleQuoted := by
  apply Holds.quote '"'
  intro k
  exact .tell (.loop_of_all (fun _ _ => False) fun _ => doubleTurn_holds k)

/-! ### Keys -/

theorem shut_of_past (cut : s.Cut t j) (h : j ≤ k) : cut.Shut k := by
  intro token l run
  by_cases ended : token.kind = .eof
  · exact .inr (.inr ended)
  · have later := (covers_of_next run).lt_of_more ended
    exact .inl (by omega)

/-- A key that reaches the cut goes on behind it. -/
theorem literalKey_holds (i : Nat) : cut.Holds i False (fun _ => cut.Shut) Expr.literalKey := by
  have key : cut.Holds i False (fun _ => cut.Shut) Token.literalKey := by
    apply Holds.skipWhite
    intro k _
    have rest (k start : Nat) : cut.Holds (k + 1) False (fun (_ : String × Position) => cut.Shut) (do
        let position ← Scan.here
        Scan.skipWhile isKeyChar
        if (← Scan.peekInLine).isNone then
          Scan.failHere .openKey
        return (← Scan.textSince start, position)) := by
      apply Holds.here
      apply Holds.skipWhile isKeyChar
      intro l _
      apply Holds.peekInLine
      · rintro i v k ⟨⟩
      · intro c
        refine .ite (fun none => by cases none) fun _ => ?_
        refine .textSince start (.pure ?_)
        rcases Nat.lt_or_ge l j with less | past
        · exact .inl ⟨by omega, by omega⟩
        · exact .inr (cut.shut_of_past past)
    apply Holds.peek
    · intro _
      exact .ite (fun _ => .failHere) fun _ => .tell (.move 1 (rest k k))
    · intro past
      split
      · rintro v l ⟨⟩
      · exact (rest k k).meets past
  exact Holds.map (g := fun read : String × Position => Node.leaf .string ("'" ++ read.1 ++ "'") read.2) key

/-! ### Lambdas -/

/-- A token that must not stand at the cursor. -/
theorem Holds.unlessToken {final : β → Nat → Prop} {kind : TokenKind} {x y : Scan β} (whole : isRemnant kind = false)
    (refuses : Refuses x s) (h : cut.Holds i False final y) : cut.Holds i False final (do
      let first ← Token.peek
      if first.kind == kind then x else y) := by
  intro v l run
  obtain ⟨token, k, first, last⟩ := peek_bind_ok.mp run
  by_cases same : token.kind = kind
  · rw [if_pos (by simpa using same)] at last
    exact absurd last (refuses i v l)
  · rw [if_neg (by simpa using same)] at last
    refine (h v l last).imp_left fun ⟨bound, _, within, right⟩ => ⟨bound, id, within, ?_⟩
    obtain ⟨token', k', right', other⟩ := cut.other_of_next bound first whole same
    exact peek_bind_ok.mpr ⟨token', k', right', by rw [if_neg (by simpa using other), right]⟩

theorem parameter_holds (params : List Node) (token : Token) (i : Nat) :
    cut.Holds i False (fun _ k => j < k) (parameter params token) := by
  refine .ite (fun _ => .fail) fun _ => .ite (fun _ => .fail) fun _ => ?_
  have whole : isRemnant .comma = false := rfl
  have refuses {x : Unit → Scan Node} : Refuses (Scan.failHere .blankBeforeComma >>= x) s := by
    rintro i v k ⟨⟩
  apply Holds.peek
  · intro _
    exact .ite (fun _ => .unlessToken whole refuses (.stop id)) fun _ => .stop id
  · intro past v k run
    have given : v = .identifier token.value token.position ∧ k = i := by
      by_cases blank : CharClass.white.hasOpt (s.char? i) = true
      · rw [if_pos blank] at run
        obtain ⟨after, l, -, last⟩ := peek_bind_ok.mp run
        by_cases comma : after.kind = .comma
        · rw [if_pos (by simpa using comma)] at last
          cases last
        · rw [if_neg (by simpa using comma)] at last
          obtain ⟨rfl, rfl⟩ := Reply.ok.inj last
          exact ⟨rfl, rfl⟩
      · rw [if_neg blank] at run
        obtain ⟨rfl, rfl⟩ := Reply.ok.inj run
        exact ⟨rfl, rfl⟩
    obtain ⟨rfl, rfl⟩ := given
    by_cases last : k = j
    · exact .inl ⟨last, id, last, rfl⟩
    · exact .inr (by omega)

/-- Kinds of token that a parameter list goes on with. -/
def opensParameter : TokenKind → Bool
  | .arrow | .identifier | .ellipsis => true
  | _ => false

/-- There are no parameters, or they go on behind the cut. -/
def Unlisted (_ : s.Cut t j) (found : Option (List Node)) (k : Nat) : Prop :=
  found = none ∨ j < k

/-- Any token may come after the comma of a parameter. One that is not shared opens no parameter. -/
theorem nextParameter_holds (params : List Node) (i : Nat) :
    cut.Holds i False (cut.Turned (fun state _ => opensParameter state.2.kind = false) cut.Unlisted) (do
      return Turn.again (params, ← Token.next)) := by
  intro turn k run
  obtain ⟨token, l, first, last⟩ := bind_ok.mp run
  obtain ⟨rfl, rfl⟩ := Reply.ok.inj last
  by_cases ended : token.kind = .eof
  · refine .inr (.inr ?_)
    show opensParameter token.kind = false
    rw [ended]
    rfl
  · rcases cut.next_of_lead first ended with ⟨less, within, right, -⟩ | past | ⟨number, -, -⟩
    · exact .inl ⟨by omega, id, within, by rw [bind_of_ok right]; rfl⟩
    · exact .inr (.inl past)
    · refine .inr (.inr ?_)
      show opensParameter token.kind = false
      rw [number]
      rfl

theorem parameterTurn_holds (params : List Node) (token : Token) (i : Nat) :
    cut.Holds i (opensParameter token.kind = false)
      (cut.Turned (fun state _ => opensParameter state.2.kind = false) cut.Unlisted) (parameterTurn (params, token)) := by
  unfold parameterTurn
  dsimp only
  split
  · exact (Holds.done .inr).unless fun closed => by simp [opensParameter, ‹token.kind = _›] at closed
  · refine Holds.unlessNot (by simp [opensParameter, ‹token.kind = _›]) ?_
    apply (parameter_holds params token i).beyond
    intro param k _
    refine (Holds.demand ?_ fun after l _ _ => ?_).unless False.elim
    · intro after other
      split
      · rw [‹after.kind = _›] at other
        cases other
      · rw [‹after.kind = _›] at other
        cases other
      · exact refuses_fail
    · split
      · refine Holds.close (g := fun _ _ => Pure.pure (Turn.done (some (params ++ [param])))) rfl rfl ?_ (nextParameter_holds _ _)
        intro _ _ _ _
        exact .done .inr
      · exact .done .inr
      · exact .fail
  · refine Holds.unlessNot (by simp [opensParameter, ‹token.kind = _›]) ?_
    refine Holds.peekNext (g := fun after => if (after.kind == .arrow) = true then
        Pure.pure (Turn.done (some (params ++ [Node.identifier token.value token.position]))) else unexpected after) ?_ ?_
    · intro u after k run
      split
      · exact agree_next run _
      · exact agree_fail
    · refine (Holds.demand ?_ fun after k _ _ => ?_).unless False.elim
      · intro after other
        split
        · rename_i arrow
          rw [eq_of_beq arrow] at other
          cases other
        · exact refuses_fail
      · exact .ite (fun _ => .done .inr) fun _ => .fail
  · exact .pure (.inr (.inl rfl))

theorem parameters_holds (first : Token) (i : Nat) :
    cut.Holds i (opensParameter first.kind = false) cut.Unlisted (parameters first) :=
  .loop_of_all (fun (state : List Node × Token) _ => opensParameter state.2.kind = false) fun (params, token) k =>
    parameterTurn_holds params token k

/-- There is no lambda, or it goes on where it is lost. -/
def Unread (cut : s.Cut t j) (found : Option Node) (k : Nat) : Prop :=
  found = none ∨ cut.Lost k

theorem lambda_holds (inner : cut.Reads expr) (first : Token) (position : Position) (i : Nat) :
    cut.Holds i (opensParameter first.kind = false) cut.Unread (lambda expr first position) := by
  refine (parameters_holds first i).through (fun found _ => found = none) ?_ ?_
  · intro found k unlisted
    exact unlisted.symm
  · intro found k _
    cases found with
    | none => exact .pure (.inr (.inl rfl))
    | some params =>
      refine Holds.unlessNot (by simp) ?_
      apply ((inner k).unless False.elim).bind
      intro body l _
      exact (Holds.expect rfl fun _ _ => .stop fun past => .inr (cut.lost_of_past past)).unless And.right

/-! ### Dictionaries -/

/-- A name that is read again from the brace goes on at least to the closing brace of the only key. -/
def Passes (s : Source) (expr key : Scan Node) (start i : Nat) : Prop :=
  ∀ only k colon l v m, key s i = .ok only k → Token.next s k = .ok colon l → colon.kind = .braceClose →
    name expr s start = .ok v m → l ≤ m

variable {key : Scan Node} {start : Nat} {position : Position}

theorem dictTurn_holds (inner : cut.Reads expr) (keys : ∀ i, cut.Holds i False (fun _ => cut.Shut) key)
    (entries : List (Node × Node)) (passes : entries = [] → Passes s expr key start i) :
    cut.Holds i False (cut.Turned (fun _ _ => False) fun _ => cut.Lost) (dictTurn expr key start position entries) := by
  refine (keys i).through (fun _ => cut.Shut) (fun _ _ => .inr) fun only k read => ?_
  refine Holds.demand ?_ fun colon l next _ => ?_
  · intro colon other
    split
    · rw [‹colon.kind = _›] at other
      cases other
    · rw [‹colon.kind = _›] at other
      cases other
    · exact refuses_fail
  · split
    · rename_i closes
      split
      · rename_i first
        intro turn m run
        rw [bind_of_ok (seek_apply start s l)] at run
        obtain ⟨v, p, run', last⟩ := bind_ok.mp run
        obtain ⟨rfl, rfl⟩ := Reply.ok.inj last
        have past := passes (by simpa using first) only k colon l v p read next closes run'
        rcases name_holds inner start v p run' with ⟨bound, -, within, right⟩ | gone
        · refine .inl ⟨by omega, id, within, ?_⟩
          rw [bind_of_ok (seek_apply start t l), bind_of_ok right]
          rfl
        · exact .inr gone
      · exact .fail
    · apply ((inner l).unless False.elim).bind
      intro value m _
      refine (Holds.items .braceClose rfl rfl (fun _ _ => cut.lost_of_past) (entries ++ [(only, value)])
        (fun _ => Node.mk position (.dict (entries ++ [(only, value)]))) ?_).unless And.right
      rintro ⟨kind, value, position⟩
      cases kind <;> rfl
    · exact .fail

/-- Only the first turn through a dictionary has no entries. -/
theorem dictTurn_again (entries : List (Node × Node)) (i : Nat) :
    (dictTurn expr key start position entries).Gives s i fun turn _ => ∀ more, turn = .again more → more ≠ [] := by
  refine .step fun only k _ => .step fun colon l _ => ?_
  split
  · split
    · refine .step fun _ _ _ => .step fun _ _ _ => .pure ?_
      rintro more ⟨⟩
    · exact .fail
  · refine .step fun value m _ => .step fun token p _ => ?_
    split
    · refine .step fun first q _ => ?_
      split
      · refine .step fun _ _ _ => .pure ?_
        rintro more ⟨⟩
      · refine .pure ?_
        rintro more ⟨rfl⟩
        simp
    · refine .pure ?_
      rintro more ⟨⟩
    · exact .fail
  · exact .fail

theorem dict_holds (inner : cut.Reads expr) (keys : ∀ i, cut.Holds i False (fun _ => cut.Shut) key)
    (passes : Passes s expr key start i) : cut.Keeps i False (dict expr key start position) := by
  rw [dict_eq]
  refine Holds.close (g := fun _ _ => Pure.pure (Node.mk position (.dict []))) rfl rfl (fun _ _ _ _ => .give) ?_
  apply Holds.loop (fun entries k => entries = [] → k = i) (fun _ _ => False) fun _ => rfl
  · intro entries k first
    exact dictTurn_holds inner keys entries fun none => first none ▸ passes
  · intro entries k more l _ turn none
    exact absurd none ((dictTurn_again entries k).of_ok turn more rfl)

end VimScript.Source.Cut
