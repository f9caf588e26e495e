import VimScript.Proofs.Overlap.Assignment
import VimScript.Statement.Block

/-!
Commands that evaluate, and those that open, divide, close and leave blocks, on a shared text. Of the open blocks only
their types matter.
-/

set_option autoImplicit false

namespace VimScript

namespace Blocks

/-- Open blocks of the same types. -/
def SameTypes (b c : Blocks) : Prop :=
  b.stack.map Node.type = c.stack.map Node.type

variable {b c : Blocks}

theorem innermost_eq (b : Blocks) : b.innermost = (b.stack.map Node.type).headD .script := by
  obtain ⟨stack⟩ := b
  cases stack <;> rfl

theorem anyOpen_eq (b : Blocks) (p : NodeType → Bool) : b.anyOpen p = (b.stack.map Node.type).any p := by
  rw [anyOpen, List.any_map]
  rfl

namespace SameTypes

theorem innermost (h : b.SameTypes c) : b.innermost = c.innermost := by
  rw [innermost_eq, h, ← innermost_eq]

theorem insideLoop (h : b.SameTypes c) : b.insideLoop = c.insideLoop := by
  rw [Blocks.insideLoop, anyOpen_eq, h, ← anyOpen_eq]
  rfl

theorem insideFunction (h : b.SameTypes c) : b.insideFunction = c.insideFunction := by
  rw [Blocks.insideFunction, anyOpen_eq, h, ← anyOpen_eq]
  rfl

theorem missing? (h : b.SameTypes c) (stop : BlockEnd) : b.missing? stop = c.missing? stop := by
  unfold Blocks.missing?
  rw [h.innermost]

end SameTypes

end Blocks

namespace Statement

open Overlap Scan
open SharedText (inside_succ lt_of_getElem?)
open Token (taken peeked taken_again peeked_again Lexed)

variable {s t : Source} {w : Overlap s t} {p q l a : Nat} {inv inv' : Invocation} {b c : Blocks}

/-! ### Commands that evaluate -/

theorem functionName_follows (inside : w.Inside p) : w.Follows p functionName functionName (w.Grown p) := by
  apply (Target.read_follows inside).bind
  rintro n m q ⟨alike, inside', more⟩ -
  rw [Node.type_of_seen alike]
  apply Follows.ite
  · intro _
    exact .stop (.fail (Node.position_of_seen alike))
  · intro _
    exact .pure ⟨alike, inside', more⟩

theorem alike_operand {n m : Node} (verb : OperandVerb) (h : w.Paired l a inv inv') (value : w.Alike n m) :
    w.AlikeEdits (operand verb inv n) (operand verb inv' m) :=
  alike_add h.toAligned (by simp only [Kind.map, Kind.mapInvocation, h.alike, value])

theorem deleteFunction_follows (h : w.Paired l a inv inv') (inside : w.Inside p) :
    w.Follows p (deleteFunction inv) (deleteFunction inv') (w.Kept p w.AlikeEdits) := by
  apply (functionName_follows inside).bind
  rintro n m q ⟨alike, inside', more⟩ -
  exact .pure ⟨alike_operand .delFunction h alike, inside', by omega⟩

theorem call_follows (h : w.Paired l a inv inv') (inside : w.Inside p) :
    w.Follows p (call inv) (call inv') (w.Kept p w.AlikeEdits) := by
  apply Follows.skip inside
  intro _ q inside₁ later₁ _
  apply Follows.peek inside₁
  intro c _
  apply Follows.ite
  · intro _
    exact .stop (.failHere inside₁)
  · intro _
    apply (Expr.read_follows inside₁).bind
    rintro n m r ⟨alike, inside₂, more₂⟩ -
    dsimp only
    rw [Node.type_of_seen alike]
    apply Follows.ite
    · intro _
      exact .stop (.fail (Node.position_of_seen alike))
    · intro _
      exact .pure ⟨alike_operand .call h alike, inside₂, by omega⟩

theorem evaluate_follows (verb : OperandVerb) (h : w.Paired l a inv inv') (inside : w.Inside p) :
    w.Follows p (evaluate verb inv) (evaluate verb inv') (w.Kept p w.AlikeEdits) := by
  apply (Expr.read_follows inside).bind
  rintro n m q ⟨alike, inside', more⟩ -
  exact .pure ⟨alike_operand verb h alike, inside', by omega⟩

theorem returnValue_follows (types : b.SameTypes c) (h : w.Paired l a inv inv') (inside : w.Inside p) :
    w.Follows p (returnValue b inv) (returnValue c inv') (w.Kept p w.AlikeEdits) := by
  rw [returnValue, returnValue, types.insideFunction]
  apply Follows.ite
  · intro _
    exact .stop (.fail h.commandPos)
  · intro _
    apply Follows.skip inside
    intro _ q inside₁ later₁ _
    apply Follows.peek inside₁
    intro d _
    apply Follows.through (w.Kept p w.AlikeOption)
    · apply Follows.ite
      · intro _
        apply (Expr.read_follows inside₁).bind
        rintro n m r ⟨alike, inside₂, more₂⟩ -
        exact .pure ⟨congrArg some alike, inside₂, by omega⟩
      · intro _
        exact .pure ⟨rfl, inside₁, later₁⟩
    · rintro value value' r ⟨alike, inside₂, later₂⟩ -
      exact .pure ⟨alike_add h.toAligned (by simp only [Kind.map, Kind.mapInvocation, h.alike, alike]), inside₂, later₂⟩

theorem expressions_follows (inside : w.Inside p) : w.Follows p expressions expressions (w.Kept p w.AlikeAll) := by
  apply Follows.loop (fun v u r => w.AlikeAll v u ∧ w.Inside r) ⟨rfl, inside⟩ inside.le
  rintro found found' r later ⟨alike, inside'⟩
  apply Follows.skip inside'
  intro _ r₂ inside₂ later₂ _
  apply Follows.peek inside₂
  intro d _
  apply Follows.ite
  · intro _
    exact .pure ⟨alike, inside₂, by omega⟩
  · intro _
    apply (Expr.read_follows inside₂).bind
    rintro n m r₃ ⟨alikeValue, inside₃, more₃⟩ -
    exact .pure ⟨by omega, inside₃.le, alike.concat alikeValue, inside₃⟩

theorem echo_follows (verb : EchoVerb) (h : w.Paired l a inv inv') (inside : w.Inside p) :
    w.Follows p (echo verb inv) (echo verb inv') (w.Kept p w.AlikeEdits) := by
  apply (expressions_follows inside).bind
  rintro values values' q ⟨alike, inside', later⟩ -
  exact .pure ⟨alike_add h.toAligned (by simp only [Kind.map, Kind.mapInvocation, h.alike, alike]), inside', later⟩

theorem echoHighlight_follows (h : w.Paired l a inv inv') (inside : w.Inside p) :
    w.Follows p (echoHighlight inv) (echoHighlight inv') (w.Kept p w.AlikeEdits) := by
  apply Follows.skip inside
  intro text q inside' later _
  exact .pure ⟨alike_add h.toAligned (by simp only [Kind.map, Kind.mapInvocation, h.alike]), inside', later⟩

/-! ### Blocks and branches -/

theorem alike_openBlock {kind kind' : Kind Node} (h : w.Paired l a inv inv')
    (parts : (kind.map (Node.seen w.leftSight)).mapInvocation w.leftSight.invocation =
      (kind'.map (Node.seen w.rightSight)).mapInvocation w.rightSight.invocation) :
    w.AlikeEdits [.openBlock (.mk inv.commandPos kind)] [.openBlock (.mk inv'.commandPos kind')] := by
  have node := alike_mk h.commandPos parts
  simp only [AlikeEdits, List.map_cons, List.map_nil, Edit.seen, node]

theorem alike_openBranch {kind kind' : Kind Node} (h : w.Paired l a inv inv')
    (parts : (kind.map (Node.seen w.leftSight)).mapInvocation w.leftSight.invocation =
      (kind'.map (Node.seen w.rightSight)).mapInvocation w.rightSight.invocation) :
    w.AlikeEdits [.openBranch (.mk inv.commandPos kind)] [.openBranch (.mk inv'.commandPos kind')] := by
  have node := alike_mk h.commandPos parts
  simp only [AlikeEdits, List.map_cons, List.map_nil, Edit.seen, node]

theorem ifCommand_follows (h : w.Paired l a inv inv') (inside : w.Inside p) :
    w.Follows p (ifCommand inv) (ifCommand inv') (w.Kept p w.AlikeEdits) := by
  apply (Expr.read_follows inside).bind
  rintro n m q ⟨alike, inside', more⟩ -
  exact .pure ⟨alike_openBlock h (by simp [Kind.map, Kind.mapInvocation, h.alike, alike]), inside', by omega⟩

theorem elseIf_follows (types : b.SameTypes c) (h : w.Paired l a inv inv') (inside : w.Inside p) :
    w.Follows p (elseIf b inv) (elseIf c inv') (w.Kept p w.AlikeEdits) := by
  rw [elseIf, elseIf, types.innermost]
  apply Follows.ite
  · intro _
    exact .stop (.fail h.commandPos)
  · intro _
    apply (Expr.read_follows inside).bind
    rintro n m q ⟨alike, inside', more⟩ -
    exact .pure ⟨alike_openBranch h (by simp [Kind.map, Kind.mapInvocation, h.alike, alike]), inside', by omega⟩

theorem elseCommand_follows (types : b.SameTypes c) (h : w.Paired l a inv inv') (inside : w.Inside p) :
    w.Follows p (elseCommand b inv) (elseCommand c inv') (w.Kept p w.AlikeEdits) := by
  rw [elseCommand, elseCommand, types.innermost]
  apply Follows.ite
  · intro _
    exact .stop (.fail h.commandPos)
  · intro _
    exact .pure ⟨alike_openBranch h (by simp [Kind.map, Kind.mapInvocation, h.alike]), inside, Nat.le_refl p⟩

theorem whileCommand_follows (h : w.Paired l a inv inv') (inside : w.Inside p) :
    w.Follows p (whileCommand inv) (whileCommand inv') (w.Kept p w.AlikeEdits) := by
  apply (Expr.read_follows inside).bind
  rintro n m q ⟨alike, inside', more⟩ -
  exact .pure ⟨alike_openBlock h (by simp [Kind.map, Kind.mapInvocation, h.alike, alike]), inside', by omega⟩

theorem forCommand_follows (h : w.Paired l a inv inv') (inside : w.Inside p) :
    w.Follows p (forCommand inv) (forCommand inv') (w.Kept p w.AlikeEdits) := by
  apply (targets_follows (fun _ => target_follows) inside).bind
  rintro left left' q ⟨⟨single, items, rest⟩, inside₁, later₁⟩ -
  apply Follows.skip inside₁
  intro _ r inside₂ later₂ _
  have same := w.places r inside₂
  apply Follows.here
  apply Follows.skip inside₂
  intro word r₃ inside₃ later₃ _
  apply Follows.ite
  · intro _
    exact .stop (.fail same)
  · intro _
    apply (Expr.read_follows inside₃).bind
    rintro n m r₄ ⟨alike, inside₄, more₄⟩ -
    refine .pure ⟨alike_openBlock h ?_, inside₄, by omega⟩
    simp [Kind.map, Kind.mapInvocation, h.alike, single, items, rest, alike]

theorem tryCommand_follows (h : w.Paired l a inv inv') (inside : w.Inside p) :
    w.Follows p (tryCommand inv) (tryCommand inv') (w.Kept p w.AlikeEdits) :=
  .pure ⟨alike_openBlock h (by simp [Kind.map, Kind.mapInvocation, h.alike]), inside, Nat.le_refl p⟩

theorem catchCommand_follows (types : b.SameTypes c) (h : w.Paired l a inv inv') (inside : w.Inside p) :
    w.Follows p (catchCommand b inv) (catchCommand c inv') (w.Kept p w.AlikeEdits) := by
  rw [catchCommand, catchCommand, types.innermost]
  apply Follows.ite
  · intro _
    exact .stop (.fail h.commandPos)
  · intro _
    apply Follows.ite
    · intro _
      exact .stop (.fail h.commandPos)
    · intro _
      apply Follows.skip inside
      intro _ q inside₁ later₁ _
      apply Follows.peek inside₁
      intro d char
      apply Follows.through (w.Kept p Eq)
      · cases d with
        | none => exact .pure ⟨rfl, inside₁, later₁⟩
        | some d =>
          apply Follows.ite
          · intro _
            exact .pure ⟨rfl, inside₁, later₁⟩
          · intro goes
            have line : d ≠ '\n' := by
              rintro rfl
              simp [endsCommand] at goes
            have next := inside_succ char line
            apply Follows.move 1
            apply Follows.skip next
            intro text r inside₂ later₂ _
            exact .pure ⟨rfl, inside₂, by omega⟩
      · rintro text _ r ⟨rfl, inside₂, later₂⟩ -
        exact .pure ⟨alike_openBranch h (by simp [Kind.map, Kind.mapInvocation, h.alike]), inside₂, later₂⟩

theorem finallyCommand_follows (types : b.SameTypes c) (h : w.Paired l a inv inv') (inside : w.Inside p) :
    w.Follows p (finallyCommand b inv) (finallyCommand c inv') (w.Kept p w.AlikeEdits) := by
  rw [finallyCommand, finallyCommand, types.innermost]
  apply Follows.ite
  · intro _
    exact .stop (.fail h.commandPos)
  · intro _
    exact .pure ⟨alike_openBranch h (by simp [Kind.map, Kind.mapInvocation, h.alike]), inside, Nat.le_refl p⟩

theorem alike_closer (block : BlockSort) (h : w.Paired l a inv inv') :
    w.AlikeEdits [.closeBlock (.mk inv.commandPos (.closer block inv))]
      [.closeBlock (.mk inv'.commandPos (.closer block inv'))] := by
  have node : w.Alike (.mk inv.commandPos (.closer block inv)) (.mk inv'.commandPos (.closer block inv')) :=
    alike_mk h.commandPos (by simp only [Kind.map, Kind.mapInvocation, h.alike])
  simp only [AlikeEdits, List.map_cons, List.map_nil, Edit.seen, node]

theorem closer_follows (types : b.SameTypes c) (block : BlockSort) (h : w.Paired l a inv inv') (inside : w.Inside p) :
    w.Follows p (closer b block inv) (closer c block inv') (w.Kept p w.AlikeEdits) := by
  have rest :
      let x (b : Blocks) (inv : Invocation) : Scan (List Edit) := do
        if b.innermost.block? != some block then
          Scan.fail (.closerWithoutOpener block) inv.commandPos
        if block == .function then
          let _ ← Scan.takeLine
        return [.closeBlock (.mk inv.commandPos (.closer block inv))]
      w.Follows p (x b inv) (x c inv') (w.Kept p w.AlikeEdits) := by
    dsimp only
    rw [types.innermost]
    apply Follows.ite
    · intro _
      exact .stop (.fail h.commandPos)
    · intro _
      apply Follows.ite
      · intro _
        apply Follows.skip inside
        intro _ q inside' later _
        exact .pure ⟨alike_closer block h, inside', later⟩
      · intro _
        exact .pure ⟨alike_closer block h, inside, Nat.le_refl p⟩
  rw [closer, closer, types.missing?]
  apply Follows.ite
  · intro _
    split
    · exact .stop (.fail h.commandPos)
    · exact rest
  · intro _
    exact rest

theorem jump_follows (types : b.SameTypes c) (verb : Jump) (h : w.Paired l a inv inv') (inside : w.Inside p) :
    w.Follows p (jump b verb inv) (jump c verb inv') (w.Kept p w.AlikeEdits) := by
  unfold jump
  rw [types.insideLoop]
  apply Follows.ite
  · intro _
    cases verb with
    | leave => exact .stop (.fail h.commandPos)
    | restart => exact .stop (.fail h.commandPos)
  · intro _
    exact .pure ⟨alike_add h.toAligned (by simp only [Kind.map, Kind.mapInvocation, h.alike]), inside, Nat.le_refl p⟩

theorem finish_follows (types : b.SameTypes c) (h : w.Paired l a inv inv') (inside : w.Inside p)
    (spared : w.Complete ∨ w.EndsWithin p (finish b inv)) :
    w.Follows p (finish b inv) (finish c inv') (w.Kept p w.AlikeEdits) := by
  apply (raw_follows h inside).bind
  rintro es es' q ⟨alike, inside', later⟩ run
  replace spared := spared.imp_right fun within => within.after run
  dsimp only at spared ⊢
  rw [← types.innermost]
  by_cases script : b.innermost == .script
  · rw [if_pos script] at spared ⊢
    rw [if_pos script]
    have bound := inside'.le
    rcases spared with complete | ⟨v, j, run, within⟩
    · apply seekEnd_follows complete
      exact .pure ⟨alike, SharedText.inside_of_complete complete (Nat.le_refl _), by omega⟩
    · obtain ⟨-, rfl⟩ := Reply.ok.inj run
      exact absurd (w.left_add_le (Nat.le_refl _)) (by omega)
  · rw [if_neg script, if_neg script]
    exact .pure ⟨alike, inside', later⟩

/-! ### Functions -/

def AlikeParameters (w : Overlap s t) (v u : Parameters) : Prop :=
  w.AlikeAll v.names u.names ∧ w.AlikeAll v.defaults u.defaults

theorem isEmpty_of_alike {ns ms : List Node} (alike : w.AlikeAll ns ms) : ns.isEmpty = ms.isEmpty := by
  have counts := alike.length
  cases ns <;> cases ms <;> simp_all

theorem functionParameter_follows {found found' : Parameters} {kind : TokenKind} {value : String} {a b : Position}
    (inside : w.Inside p) (alike : AlikeParameters w found found') (same : w.SamePosition a b) :
    w.Follows p (functionParameter found ⟨kind, value, a⟩) (functionParameter found' ⟨kind, value, b⟩)
      fun v u q => AlikeParameters w v.1 u.1 ∧ p ≤ q ∧
        ∃ r kind' value' a' b', Lexed w r kind' value' a' b' q ∧ v.2 = ⟨kind', value', a'⟩ ∧ u.2 = ⟨kind', value', b'⟩ := by
  apply Follows.ite
  · intro _
    exact .stop (.fail same)
  · intro _
    dsimp only
    rw [alike.1.any_leafText value]
    apply Follows.ite
    · intro _
      exact .stop (.fail same)
    · intro _
      have names := alike.1.concat (alike_leaf .identifier value same)
      apply Follows.through (w.Kept p w.AlikeAll)
      · apply peeked inside
        intro kind' value' a' b' q token
        have later := token.later
        apply Follows.ite
        · intro assigns
          obtain rfl : kind' = .assign := by simpa using assigns
          apply taken_again token
          apply (Expr.read_follows (token.inside (by simp))).bind
          rintro n m r ⟨alikeValue, inside', more⟩ -
          exact .pure ⟨alike.2.concat alikeValue, inside', by omega⟩
        · intro _
          rw [isEmpty_of_alike alike.2]
          apply Follows.ite
          · intro _
            exact .fail same
          · intro _
            exact .pure ⟨alike.2, inside, Nat.le_refl p⟩
      · rintro defaults defaults' q ⟨alikeDefaults, inside', later⟩ -
        have rest :
            let x (names defaults : List Node) : Scan (Parameters × Token) := do
              let after ← Token.next
              return (⟨names, defaults⟩, after)
            w.Follows q (x (found.names ++ [Node.identifier value a]) defaults)
              (x (found'.names ++ [Node.identifier value b]) defaults')
              fun v u q => AlikeParameters w v.1 u.1 ∧ p ≤ q ∧
                ∃ r kind' value' a' b', Lexed w r kind' value' a' b' q ∧ v.2 = ⟨kind', value', a'⟩ ∧
                  u.2 = ⟨kind', value', b'⟩ := by
          apply taken inside'
          intro kind' value' a' b' r token
          have later' := token.later
          exact .pure ⟨⟨names, alikeDefaults⟩, by omega, q, _, _, _, _, token, rfl, rfl⟩
        apply Follows.peek inside'
        intro c _
        apply Follows.ite
        · intro _
          apply peeked inside'
          intro kind' value' a' b' r token
          apply Follows.ite
          · intro _
            exact .stop (.failHere inside')
          · intro _
            exact rest
        · intro _
          exact rest

theorem functionParameters_follows (inside : w.Inside p) :
    w.Follows p functionParameters functionParameters (w.Kept p (AlikeParameters w)) := by
  apply peeked inside
  intro kind value a b q token
  apply Follows.ite
  · intro closes
    obtain rfl : kind = .parenClose := by simpa using closes
    apply taken_again token
    exact .pure ⟨⟨rfl, rfl⟩, token.inside (by simp), token.later⟩
  · intro _
    apply Follows.loop (fun v u r => AlikeParameters w v u ∧ w.Inside r) ⟨⟨rfl, rfl⟩, inside⟩ inside.le
    rintro found found' r later ⟨alike, inside'⟩
    apply taken inside'
    intro kind value a b r₂ token
    have later₂ := token.later
    dsimp only
    split
    · have moved := token.more (by simp)
      apply (functionParameter_follows (token.inside (by simp)) alike token.same).bind
      rintro ⟨params, _⟩ ⟨params', _⟩ r₃ ⟨alike, later₃, _, kind, value, a, b, after, rfl, rfl⟩ -
      dsimp only
      split
      · have inside₃ := after.inside (by simp)
        apply peeked inside₃
        intro kind value a b r₄ token'
        have later₄ := token'.later
        apply Follows.ite
        · intro closes
          obtain rfl : kind = .parenClose := by simpa using closes
          apply taken_again token'
          exact .pure ⟨alike, token'.inside (by simp), by omega⟩
        · intro _
          exact .pure ⟨by omega, inside₃.le, alike, inside₃⟩
      · exact .pure ⟨alike, after.inside (by simp), by omega⟩
      · exact Expr.unexpected_follows after.same
    · have names := alike.1.concat (alike_leaf .identifier value token.same)
      apply taken (token.inside (by simp))
      intro kind' value' a' b' r₃ after
      have later₃ := after.later
      apply Follows.ite
      · intro _
        exact .stop (Expr.unexpected_follows after.same)
      · intro closes
        obtain rfl : kind' = .parenClose := by simpa using closes
        exact .pure ⟨⟨names, alike.2⟩, after.inside (by simp), by omega⟩
    · exact Expr.unexpected_follows token.same

instance : Steady functionFlags where
  follows w p inside := by
    apply Follows.loop (fun v u q => v = u ∧ w.Inside q) ⟨rfl, inside⟩ inside.le
    rintro flags _ q later ⟨rfl, inside'⟩
    apply Follows.skip inside'
    intro _ r inside₁ later₁ _
    have same := w.places r inside₁
    apply Follows.here
    apply Follows.takeClass .alpha inside₁
    intro word r₂ inside₂ length _
    split
    · exact .pure ⟨rfl, inside₂, by omega⟩
    · exact .pure ⟨length ▸ by simp; omega, inside₂.le, rfl, inside₂⟩
    · exact .pure ⟨length ▸ by simp; omega, inside₂.le, rfl, inside₂⟩
    · exact .pure ⟨length ▸ by simp; omega, inside₂.le, rfl, inside₂⟩
    · exact .pure ⟨length ▸ by simp; omega, inside₂.le, rfl, inside₂⟩
    · exact .fail same

theorem functionCommand_follows (h : w.Paired l a inv inv') (inside : w.Inside p) :
    w.Follows p (functionCommand inv) (functionCommand inv') (w.Kept p w.AlikeEdits) := by
  have listed (q : Nat) : w.Follows q (do Scan.seek (w.left + p); raw inv) (do Scan.seek (w.right + p); raw inv')
      (w.Kept p w.AlikeEdits) := by
    apply Follows.seek
    exact raw_follows h inside
  apply Follows.tell
  apply Follows.skip inside
  intro _ q inside₁ later₁ _
  apply Follows.peek inside₁
  intro c _
  apply Follows.ite
  · intro _
    exact listed q
  · intro _
    apply (functionName_follows inside₁).bind
    rintro n m r ⟨alike, inside₂, more₂⟩ -
    apply Follows.skip inside₂
    intro _ r₃ inside₃ later₃ _
    have rest :
        let x (inv : Invocation) (name : Node) (start : Nat) : Scan (List Edit) := do
          if (← Scan.peekInLine) != some '(' then
            Scan.seek start
            raw inv
          else
            let _ ← Scan.take 1
            let params ← functionParameters
            let flags ← functionFlags
            return [.openBlock (.mk inv.commandPos
              (.function inv name params.names params.defaults flags [] none))]
        w.Follows r₃ (x inv n (w.left + p)) (x inv' m (w.right + p)) (w.Kept p w.AlikeEdits) := by
      apply Follows.peekInLine inside₃
      intro d _
      apply Follows.ite
      · intro _
        exact listed r₃
      · intro _
        apply Follows.skip inside₃
        intro _ r₄ inside₄ later₄ _
        apply (functionParameters_follows inside₄).bind
        rintro params params' r₅ ⟨⟨names, defaults⟩, inside₅, later₅⟩ -
        apply Follows.skip inside₅
        intro flags r₆ inside₆ later₆ _
        refine .pure ⟨alike_openBlock h ?_, inside₆, by omega⟩
        simp [Kind.map, Kind.mapInvocation, h.alike, alike, names, defaults]
    rcases identifier_cases alike with ⟨text, left, right⟩ | ⟨left, right⟩
    · dsimp only
      rw [left, right]
      apply Follows.ite
      · intro _
        exact .stop (.fail (Node.position_of_seen alike))
      · intro _
        exact rest
    · dsimp only
      split
      · rename_i text found
        exact absurd found (left text)
      · exact rest

end Statement

end VimScript
