import VimScript.Proofs.Expr.Tiers
import VimScript.Proofs.Overlap.Token

/-!
Names of a shared text, and what may follow an operand there. Both buffers give trees that look alike, and the cursor
stays on the line.
-/

set_option autoImplicit false

namespace VimScript

namespace Overlap

variable {s t : Source}

/-- Trees that look the same. -/
abbrev Alike (w : Overlap s t) (n m : Node) : Prop :=
  n.seen w.leftSight = m.seen w.rightSight

abbrev AlikeAll (w : Overlap s t) (ns ms : List Node) : Prop :=
  ns.map (Node.seen w.leftSight) = ms.map (Node.seen w.rightSight)

abbrev AlikeOption (w : Overlap s t) (n m : Option Node) : Prop :=
  n.map (Node.seen w.leftSight) = m.map (Node.seen w.rightSight)

/-- A tree read from at least one character. -/
def Grown (w : Overlap s t) (p : Nat) (n m : Node) (q : Nat) : Prop :=
  w.Alike n m ∧ w.Inside q ∧ p < q

/-- Two readers of trees from a given place on. -/
def Reads (w : Overlap s t) (k : Nat) (x y : Scan Node) : Prop :=
  ∀ p, k ≤ p → w.Inside p → w.Follows p x y (w.Grown p)

variable {w : Overlap s t} {p q k : Nat} {a b : Position} {x y : Scan Node}

theorem Reads.from (h : w.Reads k x y) (later : k ≤ q) : w.Reads q x y :=
  fun p more => h p (Nat.le_trans later more)

theorem alike_mk {kind kind' : Kind Node} (same : w.SamePosition a b)
    (parts : (kind.map (Node.seen w.leftSight)).mapInvocation w.leftSight.invocation =
      (kind'.map (Node.seen w.rightSight)).mapInvocation w.rightSight.invocation) :
    w.Alike (.mk a kind) (.mk b kind') := by
  rw [Alike, Node.seen_mk, Node.seen_mk, same, parts]

theorem alike_leaf (sort : Leaf) (text : String) (same : w.SamePosition a b) :
    w.Alike (.leaf sort text a) (.leaf sort text b) :=
  alike_mk same rfl

theorem Alike.alone {n m : Node} (h : w.Alike n m) : w.AlikeAll [n] [m] := by
  simp only [AlikeAll, List.map_cons, List.map_nil, h]

theorem AlikeAll.concat {ns ms : List Node} {n m : Node} (before : w.AlikeAll ns ms) (last : w.Alike n m) :
    w.AlikeAll (ns ++ [n]) (ms ++ [m]) := by
  simp only [AlikeAll, List.map_append, List.map_cons, List.map_nil] at before ⊢
  rw [before, last]

theorem AlikeAll.length {ns ms : List Node} (h : w.AlikeAll ns ms) : ns.length = ms.length := by
  simpa using congrArg List.length h

theorem AlikeAll.any_leafText {ns ms : List Node} (h : w.AlikeAll ns ms) (text : String) :
    (ns.any fun n => n.leafText? == some text) = ms.any fun n => n.leafText? == some text := by
  have texts (v : Sight) (ns : List Node) :
      (ns.any fun n => n.leafText? == some text) = (ns.map (Node.seen v)).any fun n => n.leafText? == some text := by
    rw [List.any_map]
    congr 1
    funext n
    simp
  rw [texts w.leftSight, h, ← texts]

end Overlap

namespace Expr

open Overlap Scan
open SharedText (inside_succ lt_of_getElem?)
open Token (taken peeked taken_again peeked_again Lexed)

variable {s t : Source} {w : Overlap s t} {p q k : Nat} {a b : Position} {kind : TokenKind} {value : String}
  {expr expr' primary primary' : Scan Node}

theorem unexpected_follows {α β : Type} {post : α → β → Nat → Prop} (same : w.SamePosition a b) :
    w.Follows p (unexpected ⟨kind, value, a⟩) (unexpected ⟨kind, value, b⟩) post :=
  .fail same

instance : Steady afterAngleIsScriptId where
  follows _ _ inside := by
    apply Follows.skip inside
    intro mark q inside' later _
    exact .pure ⟨rfl, inside', later⟩

/-! ### Names -/

/-- A place where a name starts. -/
def Named (w : Overlap s t) (p : Nat) : Prop :=
  (∃ c, w.text[p]? = some c ∧ (CharClass.name.has c = true ∨ c = '\x7b')) ∨
    ∀ mark : String, mark.toList = (Source.run (fun _ => true) (w.text.drop p)).take 5 →
      sameIgnoringCase mark "<SID>" = true

theorem ne_nil_of_sameIgnoringCase {mark : String} (same : sameIgnoringCase mark "<SID>" = true) : mark.toList ≠ [] := by
  intro none
  simp [sameIgnoringCase, none] at same

theorem nameParts_follows (inner : w.Reads (p + 1) expr expr') (inside : w.Inside p) (named : Named w p) :
    w.Follows p (nameParts expr) (nameParts expr') fun v u q => w.AlikeAll v u ∧ w.Inside q ∧ p < q := by
  have same := w.places p inside
  apply Follows.here
  apply Follows.peekRun 5 inside
  intro mark run
  -- Either the script mark moves the cursor on, or the first part does.
  apply Follows.through fun v u q => w.AlikeAll v u ∧ w.Inside q ∧ p ≤ q ∧
    (q = p → ∃ c, w.text[p]? = some c ∧ (CharClass.name.has c = true ∨ c = '\x7b'))
  · apply Follows.ite
    · intro scope
      obtain ⟨c, rest, marked⟩ := List.exists_cons_of_ne_nil (ne_nil_of_sameIgnoringCase scope)
      obtain ⟨char, line⟩ := SharedText.first_of_run (run.symm.trans marked)
      apply Follows.takeSome char line (by decide)
      intro text q inside' more
      refine .pure ⟨?_, inside', by omega, fun same => absurd same (by omega)⟩
      exact Alike.alone (alike_leaf .curlyPart text same)
    · intro noScope
      refine .pure ⟨rfl, inside, Nat.le_refl p, fun _ => ?_⟩
      exact named.resolve_right fun scope => noScope (scope mark run)
  · rintro scope scope' q ⟨alike, inside', later, first⟩ -
    apply Follows.loop (fun v u r => w.AlikeAll v u ∧ w.Inside r ∧
      (r = p → ∃ c, w.text[p]? = some c ∧ (CharClass.name.has c = true ∨ c = '\x7b'))) ⟨alike, inside', first⟩ inside'.le
    rintro parts parts' r later' ⟨alike, inside'', first⟩
    apply Follows.peek inside''
    intro c char
    split
    · have start := inside_succ char (by decide)
      have same := w.places _ start
      apply Follows.move 1
      apply Follows.here
      apply (inner (r + 1) (by omega) start).bind
      rintro n m r₂ ⟨alikeInner, inside₂, more⟩ -
      apply Follows.skip inside₂
      intro _ r₃ inside₃ later₃ _
      apply Follows.peek inside₃
      intro d char'
      apply Follows.ite
      · intro _
        exact .stop (.failHere inside₃)
      · intro closes
        have next : w.Inside (r₃ + 1) := inside_succ (char'.trans (by simpa using closes)) (by decide)
        apply Follows.move 1
        refine .pure ⟨by omega, next.le, alike.concat ?_, next, fun same => absurd same (by omega)⟩
        exact alike_mk same (by simp [Kind.map, Kind.mapInvocation, alikeInner])
    · rename_i other
      apply Follows.ite
      · intro goes
        obtain ⟨d, rfl, name⟩ : ∃ d, c = some d ∧ CharClass.name.has d = true := by
          simpa [CharClass.hasOpt, Option.any_eq_true] using goes
        have same := w.places r inside''
        apply Follows.here
        apply Follows.takeClassSome .name char name
        intro text r₂ inside₂ more
        refine .pure ⟨more, inside₂.le, alike.concat ?_, inside₂, fun same => absurd same (by omega)⟩
        exact alike_leaf .curlyPart text same
      · intro stops
        refine .pure ⟨alike, inside'', ?_⟩
        rcases Nat.lt_or_eq_of_le (Nat.le_trans later later') with more | last
        · exact more
        · obtain ⟨d, found, starts⟩ := first last.symm
          rw [last, char] at found
          rcases starts with name | rfl
          · exact absurd name (by simpa [found] using stops)
          · exact absurd found other

theorem seen_nameOfParts (v : Sight) (position : Position) (parts : List Node) :
    (nameOfParts position parts).seen v = nameOfParts (v.position position) (parts.map (Node.seen v)) := by
  rcases parts with _ | ⟨⟨place, kind⟩, _ | ⟨n, parts⟩⟩
  · rfl
  · cases kind
    case leaf sort text => cases sort <;> simp [nameOfParts, Node.identifier, Node.leaf, Kind.map, Kind.mapInvocation]
    all_goals simp [nameOfParts, Kind.map, Kind.mapInvocation]
  · simp [nameOfParts, Kind.map, Kind.mapInvocation]

theorem name_follows (inner : w.Reads (p + 1) expr expr') (inside : w.Inside p)
    (named : ∀ r, Scan.skipWhite s (w.left + p) = .ok () (w.left + r) → Named w r) :
    w.Follows p (name expr) (name expr') (w.Grown p) := by
  apply Follows.skip inside
  intro _ r inside' later blanks
  have same := w.places r inside'
  apply Follows.here
  apply (nameParts_follows (inner.from (by omega)) inside' (named r blanks)).bind
  rintro parts parts' q ⟨alike, inside'', more⟩ -
  refine .pure ⟨?_, inside'', by omega⟩
  rw [Alike, seen_nameOfParts, seen_nameOfParts, same, alike]

/-! ### What follows an operand -/

/-- An expression unless a token stands in its place; the token is left there. -/
theorem optional_follows {stop : TokenKind} (inner : w.Reads p expr expr') (inside : w.Inside p) :
    let x (e : Scan Node) : Scan (Option Node) := do
      if (← Token.peek).kind == stop then return none
      else some <$> e
    w.Follows p (x expr) (x expr') fun v u q => w.AlikeOption v u ∧ w.Inside q ∧ p ≤ q ∧
      (v = none → ∃ value a b r, Lexed w q stop value a b r) := by
  apply peeked inside
  intro kind value a b r token
  apply Follows.ite
  · intro found
    obtain rfl : kind = stop := by simpa using found
    exact .pure ⟨rfl, inside, Nat.le_refl p, fun _ => ⟨value, a, b, r, token⟩⟩
  · intro _
    apply (inner p (Nat.le_refl p) inside).bind
    rintro n m q ⟨alike, inside', more⟩ -
    refine .pure ⟨congrArg some alike, inside', by omega, nofun⟩

theorem slice_follows {left left' : Node} {lower lower' : Option Node} {a' b' : Position} (inner : w.Reads p expr expr')
    (colon : Lexed w p .colon value a' b' q) (alike : w.Alike left left') (below : w.AlikeOption lower lower')
    (same : w.SamePosition a b) :
    let x (e : Scan Node) (left : Node) (lower : Option Node) (position : Position) : Scan Node := do
      let _ ← Token.next
      let upper ← (do
        if (← Token.peek).kind == .bracketClose then return none
        else some <$> e)
      let close ← Token.next
      if close.kind != .bracketClose then unexpected close
      return .mk position (.slice left lower upper)
    w.Follows p (x expr left lower a) (x expr' left' lower' b) (w.Kept p w.Alike) := by
  apply taken_again colon
  have later := colon.later
  apply (optional_follows (inner.from colon.later) (colon.inside (by simp))).bind
  rintro upper upper' r ⟨above, inside, later', -⟩ -
  apply taken inside
  intro kind value a' b' r' close
  apply Follows.ite
  · intro _
    exact .stop (unexpected_follows close.same)
  · intro closes
    obtain rfl : kind = .bracketClose := by simpa using closes
    have later'' := close.later
    refine .pure ⟨alike_mk same ?_, close.inside (by simp), by omega⟩
    simp only [Kind.map, Kind.mapInvocation, alike, below, above]

theorem index_follows {left left' : Node} {a b : Position} (inner : w.Reads p expr expr') (inside : w.Inside p)
    (alike : w.Alike left left') (same : w.SamePosition a b) :
    w.Follows p (index expr left a) (index expr' left' b) (w.Kept p w.Alike) := by
  apply (optional_follows inner inside).bind
  rintro lower lower' q ⟨below, inside', later, colon⟩ -
  have from_ : ∀ v u r, w.Kept q w.Alike v u r → w.Kept p w.Alike v u r :=
    fun v u r ⟨alike, inside, later'⟩ => ⟨alike, inside, by omega⟩
  cases lower with
  | none =>
    obtain rfl : lower' = none := by simpa using below.symm
    obtain ⟨value, a', b', r, token⟩ := colon rfl
    apply peeked_again token
    exact (slice_follows (inner.from later) token alike below same).mono from_
  | some n =>
    obtain ⟨m, rfl, alikeLower⟩ : ∃ m, lower' = some m ∧ m.seen w.rightSight = n.seen w.leftSight := by
      simpa using below.symm
    apply peeked inside'
    intro kind value a' b' r token
    by_cases isSlice : kind = .colon
    · subst isSlice
      exact (slice_follows (inner.from later) token alike below same).mono from_
    · have subscript : (kind == TokenKind.colon) = false := by simpa using isSlice
      dsimp only
      rw [subscript]
      apply taken_again token
      apply Follows.ite
      · intro _
        exact .stop (unexpected_follows token.same)
      · intro closes
        obtain rfl : kind = .bracketClose := by simpa using closes
        have later' := token.later
        refine .pure ⟨alike_mk same ?_, token.inside (by simp), by omega⟩
        simp only [Kind.map, Kind.mapInvocation, alike, alikeLower]

theorem argumentList_follows (inner : w.Reads p expr expr') (inside : w.Inside p) :
    w.Follows p (argumentList expr) (argumentList expr')
      (w.Kept p fun v u => w.AlikeAll v.1 u.1 ∧ w.SamePosition v.2.position u.2.position) := by
  apply peeked inside
  intro kind value a b q token
  apply Follows.ite
  · intro closes
    obtain rfl : kind = .parenClose := by simpa using closes
    apply taken_again token
    exact .pure ⟨⟨rfl, token.same⟩, token.inside (by simp), token.later⟩
  · intro _
    apply Follows.loop (fun v u r => w.AlikeAll v u ∧ w.Inside r) ⟨rfl, inside⟩ inside.le
    rintro args args' r later ⟨alike, inside'⟩
    apply (inner r later inside').bind
    rintro n m r₂ ⟨alikeArg, inside₂, more⟩ -
    have all := alike.concat alikeArg
    apply taken inside₂
    intro kind value a b r₃ token
    have later₃ := token.later
    dsimp only
    split
    · have inside₃ := token.inside (by simp)
      apply peeked inside₃
      intro kind value a' b' r₄ token'
      apply Follows.ite
      · intro closes
        obtain rfl : kind = .parenClose := by simpa using closes
        have later₄ := token'.later
        apply taken_again token'
        exact .pure ⟨⟨all, token.same⟩, token'.inside (by simp), by omega⟩
      · intro _
        exact .pure ⟨by omega, inside₃.le, all, inside₃⟩
    · exact .pure ⟨⟨all, token.same⟩, token.inside (by simp), by omega⟩
    · exact unexpected_follows token.same

theorem arguments_follows (inner : w.Reads p expr expr') (inside : w.Inside p) :
    w.Follows p (arguments expr) (arguments expr') (w.Kept p w.AlikeAll) := by
  apply (argumentList_follows inner inside).bind
  rintro ⟨args, last⟩ ⟨args', last'⟩ q ⟨⟨alike, same⟩, inside', later⟩ -
  have counts : args.length = args'.length := alike.length
  dsimp only
  rw [counts]
  apply Follows.ite
  · intro _
    exact .stop (.fail same)
  · intro _
    exact .pure ⟨alike, inside', later⟩

theorem hasMembers_of_alike {n m : Node} (alike : w.Alike n m) : hasMembers n = hasMembers m := by
  rw [hasMembers, hasMembers, Node.type_of_seen alike]

theorem member_follows {left left' : Node} (inside : w.Inside p) (alike : w.Alike left left')
    (same : w.SamePosition a b) :
    w.Follows p (member left a) (member left' b) (w.Kept p w.AlikeOption) := by
  apply Follows.peek inside
  intro c char
  rw [hasMembers_of_alike alike]
  apply Follows.ite
  · intro _
    have samePlace := w.places p inside
    apply Follows.here
    apply Follows.skip inside
    intro name q inside' later _
    apply Follows.peek inside'
    intro d _
    apply Follows.ite
    · intro _
      exact .pure ⟨rfl, inside', later⟩
    · intro _
      refine .pure ⟨congrArg some (alike_mk same ?_), inside', later⟩
      simp only [Kind.map, Kind.mapInvocation, alike]
      rw [Node.identifier, Node.identifier, alike_leaf .identifier name samePlace]
  · intro _
    exact .pure ⟨rfl, inside, Nat.le_refl p⟩

theorem method_follows {left left' : Node} (inner : w.Reads p expr expr') (operand : w.Reads p primary primary')
    (inside : w.Inside p) (alike : w.Alike left left') :
    w.Follows p (method expr primary left) (method expr' primary' left') (w.Kept p w.Alike) := by
  apply (operand p (Nat.le_refl p) inside).bind
  rintro callee callee' q ⟨alikeCallee, inside', more⟩ -
  apply taken inside'
  intro kind value a b r token
  have later := token.later
  apply Follows.ite
  · intro _
    exact .stop (.fail token.same)
  · intro opens
    obtain rfl : kind = .parenOpen := by simpa using opens
    apply (arguments_follows (inner.from (by omega)) (token.inside (by simp))).bind
    rintro args args' r' ⟨alikeArgs, inside'', later'⟩ -
    have call : w.Alike (.mk a (.call callee args)) (.mk b (.call callee' args')) :=
      alike_mk token.same (by simp only [Kind.map, Kind.mapInvocation, alikeCallee, alikeArgs])
    refine .pure ⟨alike_mk token.same ?_, inside'', by omega⟩
    simp only [Kind.map, Kind.mapInvocation, alike, call]

theorem postfixTurn_follows {left left' : Node} (inner : w.Reads (p + 1) expr expr')
    (operand : w.Reads (p + 1) primary primary') (inside : w.Inside p) (alike : w.Alike left left') :
    w.Follows p (postfixTurn expr primary left) (postfixTurn expr' primary' left')
      (w.Turned (fun v u q => w.Alike v u ∧ w.Inside q) (w.Kept p w.Alike) p) := by
  apply Follows.tell
  apply Follows.peek inside
  intro c _
  apply taken inside
  intro kind value a b r token
  unfold postfixPart
  -- A token that is no part of the operand is put back.
  have stops (k : Nat) : w.Follows k (do Scan.seek (w.left + p); return Turn.done left)
      (do Scan.seek (w.right + p); return Turn.done left')
      (w.Turned (fun v u q => w.Alike v u ∧ w.Inside q) (w.Kept p w.Alike) p) := by
    apply Follows.seek
    exact .pure ⟨alike, inside, Nat.le_refl p⟩
  dsimp only
  split
  · have moved := token.more (by simp)
    apply (index_follows (inner.from (by omega)) (token.inside (by simp)) alike token.same).bind
    rintro n m r₃ ⟨alike, inside₃, later₃⟩ -
    exact .pure ⟨by omega, inside₃.le, alike, inside₃⟩
  · have moved := token.more (by simp)
    apply (method_follows (inner.from (by omega)) (operand.from (by omega)) (token.inside (by simp)) alike).bind
    rintro n m r₃ ⟨alike, inside₃, later₃⟩ -
    exact .pure ⟨by omega, inside₃.le, alike, inside₃⟩
  · have moved := token.more (by simp)
    apply (arguments_follows (inner.from (by omega)) (token.inside (by simp))).bind
    rintro args args' r₃ ⟨alikeArgs, inside₃, later₃⟩ -
    refine .pure ⟨by omega, inside₃.le, alike_mk token.same ?_, inside₃⟩
    simp only [Kind.map, Kind.mapInvocation, alike, alikeArgs]
  · have moved := token.more (by simp)
    apply (member_follows (token.inside (by simp)) alike token.same).bind
    rintro found found' r₃ ⟨alikeFound, inside₃, later₃⟩ -
    cases found with
    | none =>
      obtain rfl : found' = none := by simpa using alikeFound.symm
      exact stops r₃
    | some n =>
      obtain ⟨m, rfl, alike⟩ : ∃ m, found' = some m ∧ m.seen w.rightSight = n.seen w.leftSight := by
        simpa using alikeFound.symm
      exact .pure ⟨by omega, inside₃.le, alike.symm, inside₃⟩
  · exact stops r

theorem postfixed_follows (inner : w.Reads (p + 1) expr expr') (operand : w.Reads p primary primary')
    (inside : w.Inside p) : w.Follows p (postfixed expr primary) (postfixed expr' primary') (w.Grown p) := by
  rw [postfixed_eq, postfixed_eq]
  apply (operand p (Nat.le_refl p) inside).bind
  rintro first first' q ⟨alike, inside', more⟩ -
  apply Follows.loop (fun v u r => w.Alike v u ∧ w.Inside r) ⟨alike, inside'⟩ inside'.le
  rintro left left' r later ⟨alike, inside''⟩
  apply (postfixTurn_follows (inner.from (by omega)) (operand.from (by omega)) inside'' alike).mono
  rintro (v | v) (u | u) r₂ met
  · exact met
  · exact met
  · exact met
  · obtain ⟨alike, inside₂, later₂⟩ := met
    exact ⟨alike, inside₂, by omega⟩

end Expr

end VimScript
