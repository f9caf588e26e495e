import VimScript.Proofs.Overlap.Line
import VimScript.Proofs.Overlap.Statement
import VimScript.Proofs.Tree.Order

/-!
Where the node of a command stands. Its position is that of the command's name, which is after the start of the line and
before the argument and whatever else is read. The node keeps all that is known of the command.
-/

set_option autoImplicit false

namespace VimScript

/-- A node with a command stands where the command does: after the start of the line, and before the argument if the
command has a name. -/
def Label.Headed (label : Label) : Prop :=
  ∀ inv, label.2.2 = some inv → label.1 = inv.commandPos ∧ inv.linePos.cursor ≤ inv.commandPos.cursor ∧
    (inv.command.isSome = true → inv.commandPos.cursor ≤ inv.argumentPos.cursor)

namespace Statement

open Overlap Scan

variable {s : Source} {blocks : Blocks} {inv : Invocation} {edits : List Edit} {i j : Nat}

/-- One edit, whose node stands where the command does and keeps what is known of it. It is not about a heredoc. -/
def Heads (inv : Invocation) (edits : List Edit) : Prop :=
  ∃ e, edits = [e] ∧ e.node.position = inv.commandPos ∧ e.node.invocation? = some inv ∧ ¬e.node.AssignsHeredoc

theorem Heads.single {e : Edit} (position : e.node.position = inv.commandPos) (known : e.node.invocation? = some inv)
    (other : e.node.type ≠ .assign .letVar) : Heads inv [e] :=
  ⟨e, rfl, position, known, Node.not_assignsHeredoc other⟩

abbrev Headed (inv : Invocation) (x : Scan (List Edit)) : Prop :=
  x.Delivers (Heads inv) fun _ => True

/-! ### Commands -/

theorem Textual.heads (h : Textual inv edits) : Heads inv edits := by
  obtain ⟨text, rfl⟩ := h
  exact .single rfl rfl nofun

theorem commandUpTo_headed (stop : Nat) : Headed inv (commandUpTo inv stop) :=
  (commandUpTo_textual stop).weaken fun _ => Textual.heads

theorem raw_headed : Headed inv (raw inv) :=
  raw_textual.weaken fun _ => Textual.heads

theorem window_headed : Headed inv (window inv) := by
  have rest : Headed inv (do
      let stop ← Scan.tell
      Scan.skipWhite
      if !endsCommand (← Scan.peek) then
        Scan.failHere .invalidArgument
      commandUpTo inv stop) := by
    refine .past fun stop => .past fun _ => .past fun c => ?_
    exact .ite (fun _ => .stop (.failHere trivial)) fun _ => commandUpTo_headed stop
  refine .past fun c => .ite (fun _ => .stop (.failHere trivial)) fun _ => .past fun _ => ?_
  refine .ite (fun _ => .past fun second => .past fun _ => ?_) fun _ => rest
  exact .ite (fun _ => .stop (.failHere trivial)) fun _ => rest

theorem constCommand_headed : Headed inv (constCommand inv) := by
  refine .past fun start => .past fun _ => .past fun c => .ite (fun _ => .past fun _ => raw_headed) fun _ => ?_
  refine .past fun left => .past fun _ => .past fun sign => .ite (fun _ => ?_) fun _ => .past fun _ => raw_headed
  exact .past fun _ => .past fun value => .pure (.single rfl rfl nofun)

theorem lock_headed (verb : LockVerb) : Headed inv (lock verb inv) :=
  .past fun _ => .past fun _ => .past fun _ => .pure (.single rfl rfl nofun)

theorem call_headed : Headed inv (call inv) := by
  refine .past fun _ => .past fun c => .ite (fun _ => .stop (.failHere trivial)) fun _ => .past fun value => ?_
  exact .ite (fun _ => .stop (.fail trivial _)) fun _ => .pure (.single rfl rfl nofun)

theorem returnValue_headed : Headed inv (returnValue blocks inv) := by
  have rest : Headed inv (do
      Scan.skipWhite
      let c ← Scan.peek
      let value ← (do
        if c == some '"' || !endsCommand c then some <$> Expr.read
        else return none)
      return [.add (.mk inv.commandPos (.returnValue inv value))]) :=
    .past fun _ => .past fun c => .past fun value => .pure (.single rfl rfl nofun)
  exact .ite (fun _ => .stop (.fail trivial _)) fun _ => rest

theorem forCommand_headed : Headed inv (forCommand inv) := by
  refine .past fun left => .past fun _ => .past fun position => .past fun word => ?_
  refine .ite (fun _ => .stop (.fail trivial _)) fun _ => ?_
  exact .past fun values => .pure (.single rfl rfl nofun)

theorem elseIf_headed : Headed inv (elseIf blocks inv) :=
  .ite (fun _ => .stop (.fail trivial _)) fun _ => .past fun _ => .pure (.single rfl rfl nofun)

theorem elseCommand_headed : Headed inv (elseCommand blocks inv) :=
  .ite (fun _ => .stop (.fail trivial _)) fun _ => .pure (.single rfl rfl nofun)

theorem catchCommand_headed : Headed inv (catchCommand blocks inv) := by
  refine .ite (fun _ => .stop (.fail trivial _)) fun _ => .ite (fun _ => .stop (.fail trivial _)) fun _ => ?_
  exact .past fun _ => .past fun c => .past fun text => .pure (.single rfl rfl nofun)

theorem finallyCommand_headed : Headed inv (finallyCommand blocks inv) :=
  .ite (fun _ => .stop (.fail trivial _)) fun _ => .pure (.single rfl rfl nofun)

theorem closer_headed (block : BlockSort) : Headed inv (closer blocks block inv) := by
  have close : Headed inv (do
      if blocks.innermost.block? != some block then
        Scan.fail (.closerWithoutOpener block) inv.commandPos
      if block == .function then
        let _ ← Scan.takeLine
      return [.closeBlock (.mk inv.commandPos (.closer block inv))]) := by
    refine .ite (fun _ => .stop (.fail trivial _)) fun _ => ?_
    exact .ite (fun _ => .past fun _ => .pure (.single rfl rfl nofun)) fun _ => .pure (.single rfl rfl nofun)
  refine .ite (fun _ => ?_) fun _ => close
  split
  · exact .stop (.fail trivial _)
  · exact close

theorem jump_headed (verb : Jump) : Headed inv (jump blocks verb inv) := by
  refine .ite (fun _ => ?_) fun _ => .pure (.single rfl rfl nofun)
  cases verb
  · exact .stop (.fail trivial _)
  · exact .stop (.fail trivial _)

theorem functionCommand_headed : Headed inv (functionCommand inv) := by
  refine .past fun start => .past fun _ => .past fun c => .ite (fun _ => .past fun _ => raw_headed) fun _ => ?_
  refine .past fun name => .past fun _ => ?_
  have rest : Headed inv (do
      if (← Scan.peekInLine) != some '(' then
        Scan.seek start
        raw inv
      else
        let _ ← Scan.take 1
        let params ← functionParameters
        let flags ← functionFlags
        return [.openBlock (.mk inv.commandPos
          (.function inv name params.names params.defaults flags [] none))]) := by
    refine .past fun paren => .ite (fun _ => .past fun _ => raw_headed) fun _ => .past fun _ => ?_
    exact .past fun params => .past fun flags => .pure (.single rfl rfl nofun)
  dsimp only
  split
  · exact .ite (fun _ => .stop (.fail trivial _)) fun _ => rest
  · exact rest

theorem body_headed {form : CommandForm} (plain : form ≠ .assign .letVar) : Headed inv (body blocks inv form) := by
  cases unbounded : form.isOpenEnded with
  | true => exact (body_textual form unbounded).weaken fun _ => Textual.heads
  | false =>
    cases form with
    | append => contradiction
    | insert => contradiction
    | loadKeymap => contradiction
    | finish => contradiction
    | foreign language => contradiction
    | call => exact call_headed
    | delFunction => exact .past fun value => .pure (.single rfl rfl nofun)
    | eval => exact .past fun value => .pure (.single rfl rfl nofun)
    | throw => exact .past fun value => .pure (.single rfl rfl nofun)
    | catchBranch => exact catchCommand_headed
    | elseBranch => exact elseCommand_headed
    | elseIf => exact elseIf_headed
    | finallyBranch => exact finallyCommand_headed
    | common => exact raw_headed
    | userCommand => exact raw_headed
    | assign verb =>
      cases verb with
      | letVar => contradiction
      | const => exact constCommand_headed
    | echo verb => exact .past fun values => .pure (.single rfl rfl nofun)
    | echoHl => exact .past fun text => .pure (.single rfl rfl nofun)
    | opener block =>
      cases block with
      | function => exact functionCommand_headed
      | ifBlock => exact .past fun cond => .pure (.single rfl rfl nofun)
      | whileLoop => exact .past fun cond => .pure (.single rfl rfl nofun)
      | forLoop => exact forCommand_headed
      | tryBlock => exact .pure (.single rfl rfl nofun)
    | closer block => exact closer_headed block
    | jump verb => exact jump_headed verb
    | lock verb => exact lock_headed verb
    | returnValue => exact returnValue_headed
    | highlighting => exact .past fun stop => commandUpTo_headed stop
    | unlet => exact .past fun found => .pure (.single rfl rfl nofun)
    | window => exact window_headed

end Statement

end VimScript
