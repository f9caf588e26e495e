import VimScript.Proofs.Overlap.Argument
import VimScript.Statement.Assignment

/-!
Assignments on a shared text. All of them stay on their line but a heredoc, whose lines have to end in the text.
-/

set_option autoImplicit false

namespace VimScript

open Overlap Scan
open SharedText (inside_succ lt_of_getElem?)
open Token (taken peeked taken_again peeked_again Lexed)

variable {s t : Source} {w : Overlap s t} {p q l a : Nat} {inv inv' : Invocation}

namespace Target

theorem base_follows (inside : w.Inside p) : w.Follows p base base (w.Grown p) := by
  apply Follows.tell
  apply taken inside
  intro kind value a b q token
  have leaf {sort : Leaf} (plain : kind ≠ .eol ∧ kind ≠ .eof) :
      w.Follows q (Pure.pure (Node.leaf sort value a)) (Pure.pure (Node.leaf sort value b)) (w.Grown p) :=
    .pure ⟨alike_leaf sort value token.same, token.inside plain.1, token.more plain.2⟩
  have back (named : ∀ r, Scan.skipWhite s (w.left + p) = .ok () (w.left + r) → Expr.Named w r) :
      w.Follows q (Scan.seek (w.left + p) >>= fun _ => Expr.name Expr.read)
        (Scan.seek (w.right + p) >>= fun _ => Expr.name Expr.read) (w.Grown p) := by
    apply Follows.seek
    exact Expr.name_follows (Expr.reads w (p + 1)) inside named
  dsimp only
  split
  · exact leaf (by simp)
  · exact leaf (by simp)
  · exact leaf (by simp)
  · exact back (Expr.named_of_lexed token rfl)
  · exact back (Expr.named_of_lexed token rfl)
  · apply (Expr.afterAngle_follows (token.inside (by simp))).bind
    rintro found _ _ ⟨rfl, rfl, scope⟩ -
    apply Follows.ite
    · intro yes
      exact back (Expr.named_of_angle token (scope yes))
    · intro _
      exact Expr.unexpected_follows token.same
  · exact Expr.unexpected_follows token.same

theorem read_follows (inside : w.Inside p) : w.Follows p read read (w.Grown p) := by
  apply (base_follows inside).bind
  rintro first first' q ⟨alike, inside', more⟩ -
  apply Follows.loop (fun v u r => w.Alike v u ∧ w.Inside r) ⟨alike, inside'⟩ inside'.le
  rintro left left' r later ⟨alike, inside''⟩
  apply Follows.tell
  apply Follows.peek inside''
  intro c _
  apply taken inside''
  intro kind value a b r₂ token
  have stops (k : Nat) : w.Follows k (do Scan.seek (w.left + r); return Turn.done left)
      (do Scan.seek (w.right + r); return Turn.done left') (w.Turned (fun v u r => w.Alike v u ∧ w.Inside r) (w.Grown p) r) := by
    apply Follows.seek
    exact .pure ⟨alike, inside'', by omega⟩
  dsimp only
  split
  · have moved := token.more (by simp)
    apply (Expr.index_follows (Expr.reads w r₂) (token.inside (by simp)) alike token.same).bind
    rintro n m r₃ ⟨alike, inside₃, later₃⟩ -
    exact .pure ⟨by omega, inside₃.le, alike, inside₃⟩
  · have moved := token.more (by simp)
    apply (Expr.member_follows (token.inside (by simp)) alike token.same).bind
    rintro found found' r₃ ⟨alikeFound, inside₃, later₃⟩ -
    cases found with
    | none =>
      obtain rfl : found' = none := by simpa using alikeFound.symm
      exact stops r₃
    | some n =>
      obtain ⟨m, rfl, alike⟩ : ∃ m, found' = some m ∧ m.seen w.rightSight = n.seen w.leftSight := by
        simpa using alikeFound.symm
      exact .pure ⟨by omega, inside₃.le, alike.symm, inside₃⟩
  · exact stops r₂

end Target

namespace Statement

theorem identifier_cases {n m : Node} (alike : w.Alike n m) :
    (∃ name, n.kind = .leaf .identifier name ∧ m.kind = .leaf .identifier name) ∨
      (∀ name, n.kind ≠ .leaf .identifier name) ∧ ∀ name, m.kind ≠ .leaf .identifier name := by
  by_cases found : ∃ name, n.kind = .leaf .identifier name
  · obtain ⟨name, left⟩ := found
    exact .inl ⟨name, left, Node.leaf_of_seen alike left⟩
  · refine .inr ⟨fun name left => found ⟨name, left⟩, fun name right => found ⟨name, ?_⟩⟩
    exact Node.leaf_of_seen alike.symm right

theorem target_follows (inside : w.Inside p) : w.Follows p target target (w.Grown p) := by
  apply (Target.read_follows inside).bind
  rintro n m q ⟨alike, inside', more⟩ -
  have whole : w.Follows q (Pure.pure n) (Pure.pure m) (w.Grown p) := .pure ⟨alike, inside', more⟩
  rcases identifier_cases alike with ⟨name, left, right⟩ | ⟨left, right⟩
  · rw [left, right]
    apply Follows.ite
    · intro _
      exact whole
    · intro _
      exact .fail (Node.position_of_seen alike)
  · split
    · rename_i name found
      exact absurd found (left name)
    · exact whole

theorem constantTarget_follows (inside : w.Inside p) : w.Follows p constantTarget constantTarget (w.Grown p) := by
  apply (target_follows inside).bind
  rintro n m q ⟨alike, inside', more⟩ -
  rw [Node.type_of_seen alike]
  split
  · exact .fail (Node.position_of_seen alike)
  · exact .pure ⟨alike, inside', more⟩

def AlikeTargets (w : Overlap s t) (v u : Targets Node) : Prop :=
  w.AlikeOption v.single u.single ∧ w.AlikeAll v.items u.items ∧ w.AlikeOption v.rest u.rest

theorem targets_follows {single : Scan Node} (one : ∀ p, w.Inside p → w.Follows p single single (w.Grown p))
    (inside : w.Inside p) : w.Follows p (targets single) (targets single) (w.Kept p (AlikeTargets w)) := by
  apply peeked inside
  intro kind value a b q token
  apply Follows.ite
  · intro _
    apply (one p inside).bind
    rintro n m r ⟨alike, inside', more⟩ -
    exact .pure ⟨⟨congrArg some alike, rfl, rfl⟩, inside', by omega⟩
  · intro opens
    obtain rfl : kind = .bracketOpen := by simpa using opens
    have first := token.inside (by simp)
    have moved := token.more (by simp)
    apply taken_again token
    apply Follows.loop (fun v u r => w.AlikeAll v u ∧ w.Inside r) ⟨rfl, first⟩ first.le
    rintro items items' r later ⟨alike, inside'⟩
    apply (target_follows inside').bind
    rintro n m r₂ ⟨alikeItem, inside₂, more⟩ -
    have all := alike.concat alikeItem
    apply taken inside₂
    intro kind value a b r₃ token
    have later₃ := token.later
    dsimp only
    split
    · exact .pure ⟨⟨rfl, all, rfl⟩, token.inside (by simp), by omega⟩
    · exact .pure ⟨by omega, token.bound, all, token.inside (by simp)⟩
    · apply (target_follows (token.inside (by simp))).bind
      rintro rest rest' r₄ ⟨alikeRest, inside₄, more₄⟩ -
      apply taken inside₄
      intro kind value a b r₅ close
      have later₅ := close.later
      apply Follows.ite
      · intro _
        exact .stop (.fail close.same)
      · intro closes
        obtain rfl : kind = .bracketClose := by simpa using closes
        exact .pure ⟨⟨rfl, all, congrArg some alikeRest⟩, close.inside (by simp), by omega⟩
    · exact .fail token.same

theorem alike_assignment {left left' : Targets Node} {n m : Node} (verb : AssignVerb) (op : String)
    (h : w.Paired l a inv inv') (targets : AlikeTargets w left left') (value : w.Alike n m) :
    w.AlikeEdits [assignment verb inv op left n] [assignment verb inv' op left' m] := by
  obtain ⟨single, items, rest⟩ := targets
  exact alike_add h.toAligned (by simp only [Kind.map, Kind.mapInvocation, h.alike, single, items, rest, value])

/-! ### Heredocs -/

instance : Steady heredocHead where
  follows w p inside := by
    apply Follows.loop (fun v u q => v = u ∧ w.Inside q) ⟨rfl, inside⟩ inside.le
    rintro options _ q later ⟨rfl, inside'⟩
    apply Follows.skip inside'
    intro _ r inside₁ later₁ _
    apply Follows.takeClass .word inside₁
    intro word r₂ inside₂ length _
    apply Follows.ite
    · intro _
      exact .pure ⟨rfl, inside₂, by omega⟩
    · intro solid
      have some : word.toList.length ≠ 0 := by
        intro none
        rw [String.length_toList] at none
        exact solid (by simpa using none)
      apply Follows.ite
      · intro _
        exact .pure ⟨by omega, inside₂.le, rfl, inside₂⟩
      · intro _
        exact .pure ⟨rfl, inside₂, by omega⟩

/-- The lines of a heredoc up to its marker. Where only the second buffer goes on after the text, the marker has to
stand in the text. -/
theorem markedLines_follows (marker : String) (bound : p ≤ w.text.length) :
    let x : Scan (List String) := Scan.loop [] fun lines => do
      if (← Scan.peek).isNone then
        Scan.failHere (.missingEndMarker marker)
      else
        let line ← Scan.takeLine
        if line == marker then return .done lines
        else
          let _ ← Scan.next
          return .again (lines ++ [line])
    w.Ends ∨ w.EndsWithin p x → w.Follows p x x (w.Kept p Eq) := by
  intro x spared
  apply Follows.gather Eq rfl bound
  · refine spared.imp_left fun alone => .inr ⟨alone, fun lines => ?_⟩
    have last : s.char? s.size = none := Array.getElem?_eq_none (Nat.le_refl _)
    simp [bind_apply, Scan.peek, peekAt, last, Scan.failHere]
  · intro lines i
    refine .step fun c _ peeked => ?_
    obtain ⟨-, rfl⟩ := Reply.ok.inj peeked
    exact .ite (fun _ => .failHere) fun _ => lineTurn_onward marker _ _ s i
  rintro lines _ q later inside rfl
  apply Follows.peek inside
  intro c char
  apply Follows.ite
  · intro _
    exact .failHere inside
  · intro goes
    exact lineTurn_follows marker _ _ (isSome_of_peek char goes) later

theorem heredoc_follows (h : w.Paired l a inv inv') (inside : w.Inside p)
    (spared : w.Ends ∨ w.EndsWithin p (heredoc inv)) :
    w.Follows p (heredoc inv) (heredoc inv') (w.Kept p fun v u => w.Alike v.1 u.1 ∧ w.AlikeEdits v.2 u.2) := by
  apply (Steady.follows w p inside).bind
  rintro ⟨options, marker⟩ _ q ⟨rfl, inside', later⟩ run
  replace spared := spared.imp_right fun within => within.after run
  dsimp only at spared ⊢
  by_cases empty : marker.isEmpty = true
  · rw [if_pos empty, if_pos empty]
    exact .stop (.failHere inside')
  · rw [if_neg empty] at spared ⊢
    rw [if_neg empty]
    apply (trail_follows inside').bind
    rintro edits edits' r ⟨alike, bound, later', -⟩ run
    replace spared := (spared.imp_right fun within => within.after run).imp_right fun within =>
      within.first fun _ i => .pure (Nat.le_refl i)
    apply (markedLines_follows marker bound spared).bind
    rintro lines _ r' ⟨rfl, inside'', later''⟩ -
    exact .pure ⟨⟨alike_mk h.commandPos rfl, alike⟩, inside'', by omega⟩

/-! ### Commands -/

instance : Steady longOperator where
  follows w p inside := by
    apply Follows.skip inside
    intro two q inside' later _
    apply Follows.ite
    · intro _
      apply (Steady.follows w q inside').mono
      rintro v u r ⟨same, inside'', later'⟩
      exact ⟨same, inside'', by omega⟩
    · intro _
      exact .pure ⟨rfl, inside', later⟩

theorem letCommand_follows (h : w.Paired l a inv inv') (inside : w.Inside p)
    (spared : w.Ends ∨ w.EndsWithin p (letCommand inv)) :
    w.Follows p (letCommand inv) (letCommand inv') (w.Kept p w.AlikeEdits) := by
  have listed (q : Nat) : w.Follows q (do Scan.seek (w.left + p); raw inv) (do Scan.seek (w.right + p); raw inv')
      (w.Kept p w.AlikeEdits) := by
    apply Follows.seek
    exact raw_follows h inside
  apply Follows.tell
  replace spared := spared.imp_right fun within => within.after (tell_apply s _)
  apply Follows.skip inside
  intro _ q inside₁ later₁ run
  replace spared := spared.imp_right fun within => within.after run
  apply (Steady.follows w q inside₁).bind
  rintro c _ q' ⟨rfl, inside₁', later₁'⟩ run
  replace spared := spared.imp_right fun within => within.after run
  by_cases ends : endsCommand c = true
  · rw [if_pos ends, if_pos ends]
    exact listed q'
  rw [if_neg ends] at spared ⊢
  rw [if_neg ends]
  apply (targets_follows (fun _ => target_follows) inside₁').bind
  rintro left left' r ⟨alikeLeft, inside₂, later₂⟩ run
  replace spared := spared.imp_right fun within => within.after run
  apply Follows.skip inside₂
  intro _ r₁ inside₃ later₃ run
  replace spared := spared.imp_right fun within => within.after run
  apply Follows.skip inside₃
  intro short r₂ inside₄ later₄ run
  replace spared := spared.imp_right fun within => within.after run
  apply Follows.skip inside₄
  intro long r₃ inside₅ later₅ run
  replace spared := spared.imp_right fun within => within.after run
  -- A value stands after each operator but the one of a heredoc.
  have valued (n : Nat) (op : String) :
      let x (inv : Invocation) (left : Targets Node) : Scan (List Edit) := do
        let _ ← Scan.take n
        let value ← Expr.read
        return [assignment .letVar inv op left value]
      w.Follows r₃ (x inv left) (x inv' left') (w.Kept p w.AlikeEdits) := by
    apply Follows.skip inside₅
    intro _ r₄ inside₆ later₆ _
    apply (Expr.read_follows inside₆).bind
    rintro n m r₅ ⟨alikeValue, inside₇, more₇⟩ -
    exact .pure ⟨alike_assignment .letVar op h alikeLeft alikeValue, inside₇, by omega⟩
  by_cases compound : compoundOperators.contains long = true
  · rw [if_pos compound, if_pos compound]
    exact valued long.length long
  rw [if_neg compound] at spared ⊢
  rw [if_neg compound]
  by_cases marked : (long == "=<<") = true
  · rw [if_pos marked] at spared ⊢
    rw [if_pos marked]
    apply Follows.skip inside₅
    intro _ r₄ inside₆ later₆ run
    replace spared := spared.imp_right fun within => within.after run
    apply Follows.skip inside₆
    intro _ r₅ inside₇ later₇ run
    replace spared := spared.imp_right fun within => within.after run
    have alone := spared.imp_right fun within => within.first fun _ i => .pure (Nat.le_refl i)
    apply (heredoc_follows h inside₇ alone).bind
    rintro ⟨n, edits⟩ ⟨m, edits'⟩ r₆ ⟨⟨alikeValue, alikeEdits⟩, inside₈, later₈⟩ -
    exact .pure ⟨alikeEdits.append (alike_assignment .letVar long h alikeLeft alikeValue), inside₈, by omega⟩
  · rw [if_neg marked, if_neg marked]
    exact .ite (fun _ => valued 1 short) fun _ => listed r₃

theorem constCommand_follows (h : w.Paired l a inv inv') (inside : w.Inside p) :
    w.Follows p (constCommand inv) (constCommand inv') (w.Kept p w.AlikeEdits) := by
  have listed (q : Nat) : w.Follows q (do Scan.seek (w.left + p); raw inv) (do Scan.seek (w.right + p); raw inv')
      (w.Kept p w.AlikeEdits) := by
    apply Follows.seek
    exact raw_follows h inside
  apply Follows.tell
  apply Follows.skip inside
  intro _ q inside₁ later₁ _
  apply Follows.peek inside₁
  intro c _
  apply Follows.ite
  · intro _
    exact listed q
  · intro _
    apply (targets_follows (fun _ => constantTarget_follows) inside₁).bind
    rintro left left' r ⟨alikeLeft, inside₂, later₂⟩ -
    apply Follows.skip inside₂
    intro _ r₃ inside₃ later₃ _
    apply Follows.peekInLine inside₃
    intro d _
    apply Follows.ite
    · intro _
      apply Follows.skip inside₃
      intro _ r₄ inside₄ later₄ _
      apply (Expr.read_follows inside₄).bind
      rintro n m r₅ ⟨alikeValue, inside₅, more₅⟩ -
      exact .pure ⟨alike_assignment .const "=" h alikeLeft alikeValue, inside₅, by omega⟩
    · intro _
      exact listed r₃

theorem variableList_follows (inside : w.Inside p) :
    w.Follows p variableList variableList (w.Kept p w.AlikeAll) := by
  apply (Expr.read_follows inside).bind
  rintro first first' q ⟨alike, inside', more⟩ -
  apply Follows.loop (fun v u r => w.AlikeAll v u ∧ w.Inside r) ⟨alike.alone, inside'⟩ inside'.le
  rintro found found' r later ⟨alike, inside''⟩
  apply Follows.skip inside''
  intro _ r₂ inside₂ later₂ _
  apply Follows.peek inside₂
  intro c _
  apply Follows.ite
  · intro _
    exact .pure ⟨alike, inside₂, by omega⟩
  · intro _
    apply (target_follows inside₂).bind
    rintro n m r₃ ⟨alikeNode, inside₃, more₃⟩ -
    exact .pure ⟨by omega, inside₃.le, alike.concat alikeNode, inside₃⟩

theorem unlet_follows (h : w.Paired l a inv inv') (inside : w.Inside p) :
    w.Follows p (unlet inv) (unlet inv') (w.Kept p w.AlikeEdits) := by
  apply (variableList_follows inside).bind
  rintro found found' q ⟨alike, inside', later⟩ -
  refine .pure ⟨alike_add h.toAligned ?_, inside', later⟩
  simp only [Kind.map, Kind.mapInvocation, h.alike, alike]

theorem lock_follows (verb : LockVerb) (h : w.Paired l a inv inv') (inside : w.Inside p) :
    w.Follows p (lock verb inv) (lock verb inv') (w.Kept p w.AlikeEdits) := by
  apply Follows.skip inside
  intro _ q inside₁ later₁ _
  apply Follows.skip inside₁
  intro digits r inside₂ later₂ _
  apply (variableList_follows inside₂).bind
  rintro found found' r₃ ⟨alike, inside₃, later₃⟩ -
  refine .pure ⟨alike_add h.toAligned ?_, inside₃, by omega⟩
  simp only [Kind.map, Kind.mapInvocation, h.alike, alike]

end Statement

end VimScript
