import VimScript.Proofs.Blocks.Takes
import VimScript.Proofs.Expr.WellFormed
import VimScript.Proofs.Script.Parsed
import VimScript.Proofs.Statement.Built
import VimScript.Proofs.Statement.Heredoc

/-!
The expressions of a script are well formed at any depth, and none of them has a statement or a heredoc in it.
-/

set_option autoImplicit false

namespace VimScript

namespace Node

variable {P : Node → Prop} {new : Node} {kind after : Kind Node} {position : Position}

theorem isExpression_of_body? (holds : kind.body?.isSome = true) : kind.nodeType.isExpression = false := by
  cases kind <;> first | rfl | cases holds

/-- A block stays built of operands when it takes in a node that is. -/
theorem BuiltOf.take (h : (Node.mk position kind).BuiltOf P) (built : new.BuiltOf P) (takes : kind.Takes new after) :
    (Node.mk position after).BuiltOf P := by
  refine .intro (isExpression_of_body? takes.remains) fun c below other => ?_
  rcases takes.parts c below with rfl | old
  · exact built
  · exact h.children c old other

end Node

theorem Statement.reads_isOperand (s : Source) : Reads Node.IsOperand s where
  expression i := (Expr.read_wellFormed s i).mono fun _ _ known => .inl known
  target i := (Target.read_wellFormed s i).mono fun _ _ known => .inl known
  parameter _ _ _ _ _ := .inl .identifier
  heredoc inv i := (heredoc_isHeredoc inv s i).mono fun _ _ known => .inr known

namespace Script

variable {neovim : Bool} {s : Source} {known names : Statement.UserNames} {edits : List Edit} {blocks : Blocks}
  {i j : Nat} {root : Node}

theorem Reaches.built {P : Node → Prop} (reads : Statement.Reads P s) (h : Reaches neovim s known edits names blocks i) :
    blocks.All (Node.BuiltOf P) := by
  induction h with
  | start => exact List.forall_mem_singleton.mpr (.mk rfl (by simp [Kind.children]))
  | step before more read ih =>
    have built := (Statement.read_builds reads).of_ok read
    exact ih.editAll (fun _ _ _ _ block new takes => block.take new takes) built

/-- A script is built of what its statements read. -/
theorem readWith_built {P : Node → Prop} (reads : Statement.Reads P s) (ok : (readWith neovim known s).1 = .ok root j) :
    root.BuiltOf P := by
  obtain ⟨_, _, _, _, n, reached, _, stack, type, _, rfl⟩ := readWith_ok ok
  have built : n.BuiltOf P := reached.built reads n (by simp [stack])
  exact .intro built.type built.children

end Script

namespace Parsed

variable {s : Source} {root n : Node} {above : List Node}

theorem stands (parsed : Parsed s root) : root.Stands [] := by
  cases parsed with
  | expression ok => exact .expression (Expr.read_wellFormed _ _ _ _ ok)
  | target ok => exact .expression (Target.read_wellFormed _ _ _ _ ok)
  | script ok => exact .statement (Script.readWith_built (Statement.reads_isOperand s) ok) (by simp)

/-- Dots, methods, lambdas and names in braces have the shapes they should have wherever they occur, and in an
expression there are but expressions. -/
theorem wellShaped (parsed : Parsed s root) (place : root.Occurs above n) :
    n.WellShaped above ∧ ∀ i j, Expr.read s i = .ok root j → n.type.isExpression = true ∧ n.type ≠ .heredoc := by
  refine ⟨(place.stands parsed.stands).shape, fun i j read => ?_⟩
  rcases place.wellFormed (Expr.read_wellFormed _ _ _ _ read) with formed | part
  · exact ⟨formed.type.1, formed.type.2.2⟩
  · exact NodeType.isExpression_of_isNamePart part.type

theorem wellShaped_member :
    ∃ root j n, Expr.ofLine "\x7ba, ... -> x\x7ba\x7dy.b\x7d" = .ok root j ∧ root.Occurs [root] n ∧ n.type = .dot ∧
      n.WellShaped [root] ∧ n.type.isExpression = true ∧ n.type ≠ .heredoc := by
  have member : (Expr.ofLine "\x7ba, ... -> x\x7ba\x7dy.b\x7d").passes
      (fun root => root.children.any fun n => n.type == .dot) = true := by
    rw [Expr.ofLine, Source.ofLines_eq_ofChars]
    decide +kernel
  obtain ⟨root, j, ok, found⟩ := Reply.exists_of_passes _ member
  obtain ⟨n, below, dot⟩ := List.any_eq_true.mp found
  obtain ⟨shaped, inside⟩ := wellShaped (.expression ok) (.child .root below)
  exact ⟨root, j, n, ok, .child .root below, eq_of_beq dot, shaped, inside _ _ ok⟩

end Parsed

end VimScript
