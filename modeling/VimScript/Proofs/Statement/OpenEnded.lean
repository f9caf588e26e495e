import VimScript.Proofs.Blocks.Labels
import VimScript.Proofs.Scan.Delivers
import VimScript.Statement

/-!
Commands that may take the lines after their own. Whatever stands on the line of such a command, its node is in the tree
with the command in it.
-/

set_option autoImplicit false

namespace VimScript

/-- Whether the command may read on past its line, up to the end of the script. -/
def CommandForm.isOpenEnded : CommandForm → Bool
  | .append | .insert | .loadKeymap | .finish | .foreign _ => true
  | _ => false

/-- Where a command stands, and which command it is: what its options leave as it is. -/
def Invocation.head (inv : Invocation) : Position × Position × Position × Option Command :=
  (inv.linePos, inv.commandPos, inv.argumentPos, inv.command)

/-- The form of the command a node was made from. -/
def Node.form? (n : Node) : Option CommandForm :=
  n.invocation?.bind fun inv => inv.command.map Command.form

namespace Statement

variable {blocks : Blocks} {inv : Invocation}

/-- The edits hand over the node of an open-ended command. -/
def OpenEnded (edits : List Edit) : Prop :=
  ∃ e ∈ edits, ∃ form, e.node.form? = some form ∧ form.isOpenEnded = true

/-! ### The head of an invocation stays -/

theorem fileOption_keeps : (fileOption inv).Delivers (fun v => v.head = inv.head) (fun _ => True) := by
  refine .past fun ahead => ?_
  refine .ite (fun _ => .past fun _ => .pure rfl) fun _ => ?_
  refine .ite (fun _ => .past fun _ => .pure rfl) fun _ => ?_
  refine .ite (fun _ => .past fun _ => .pure rfl) fun _ => ?_
  refine .ite (fun _ => .past fun _ => .past fun _ => .pure rfl) fun _ => ?_
  refine .ite (fun _ => .past fun _ => .past fun _ => .pure rfl) fun _ => ?_
  refine .ite (fun _ => .past fun _ => .past fun _ => .pure rfl) fun _ => ?_
  refine .ite (fun _ => .past fun _ => .past fun _ => .pure rfl) fun _ => ?_
  exact .ite (fun _ => .past fun _ => .past fun _ => .pure rfl) fun _ => .failHere trivial

theorem fileOptions_keeps : (fileOptions inv).Delivers (fun v => v.head = inv.head) (fun _ => True) := by
  refine .loop (fun v => v.head = inv.head) rfl fun v kept => .past fun _ => .past fun _ => ?_
  refine .ite (fun _ => fileOption_keeps.bind fun u same => .past fun _ => .pure (same.trans kept)) fun _ => ?_
  exact .pure kept

theorem leadIn_keeps : (leadIn inv).Delivers (fun v => v.head = inv.head) (fun _ => True) := by
  unfold leadIn
  split
  case h_1 | h_2 =>
    refine .past fun c => .ite (fun _ => .past fun second => ?_) fun _ => ?_
    · refine .ite (fun _ => .stop (.fail trivial _)) fun _ => ?_
      exact .past fun _ => .past fun _ => .pure rfl
    · exact .ite (fun _ => .past fun _ => .pure rfl) fun _ => .pure rfl
  · refine .ite (fun _ => .pure rfl) fun _ => .past fun c => ?_
    exact .ite (fun _ => .past fun _ => .pure rfl) fun _ => .pure rfl
  · exact .past fun more => .past fun _ => .pure rfl
  · exact .past fun more => .past fun _ => .pure rfl
  · exact .pure rfl

theorem startCommand_keeps : (startCommand inv).Delivers (fun v => v.head = inv.head) (fun _ => True) := by
  refine .past fun c => .ite (fun _ => .past fun _ => .past fun after => ?_) fun _ => ?_
  · exact .ite (fun _ => .pure rfl) fun _ => .past fun _ => .pure rfl
  · exact .pure rfl

theorem command_of_head {v : Invocation} (same : v.head = inv.head) : v.command = inv.command :=
  congrArg (fun head => head.2.2.2) same

/-! ### The node of the command -/

/-- One statement that is a command with its text. -/
def Textual (inv : Invocation) (edits : List Edit) : Prop :=
  ∃ text, edits = [.add (.command inv text)]

theorem commandUpTo_textual (stop : Nat) : (commandUpTo inv stop).Delivers (Textual inv) (fun _ => True) :=
  .past fun text => .pure ⟨text, rfl⟩

theorem raw_textual : (raw inv).Delivers (Textual inv) (fun _ => True) := by
  refine .past fun stop => .ite (fun _ => .past fun argument => ?_) fun _ => commandUpTo_textual stop
  exact .ite (fun _ => .past fun _ => commandUpTo_textual stop) fun _ => commandUpTo_textual stop

theorem body_textual (form : CommandForm) (unbounded : form.isOpenEnded = true) :
    (body blocks inv form).Delivers (Textual inv) (fun _ => True) := by
  have lines : (textLines inv).Delivers (Textual inv) (fun _ => True) :=
    .past fun _ => .past fun first => .past fun found => .pure ⟨_, rfl⟩
  cases form <;> try contradiction
  case append => exact lines
  case insert => exact lines
  case finish =>
    exact raw_textual.bind fun edits known => .ite (fun _ => .past fun _ => .pure known) fun _ => .pure known
  case loadKeymap =>
    exact .past fun _ => .past fun first => .past fun found => .pure ⟨_, rfl⟩
  case foreign language =>
    refine .past fun _ => .past fun ahead => .ite (fun _ => ?_) fun _ => ?_
    · refine .past fun _ => .past fun _ => .past fun word => ?_
      exact .past fun _ => .past fun first => .past fun found => .pure ⟨_, rfl⟩
    · exact .past fun _ => .past fun line => .pure ⟨_, rfl⟩

/-- A command is in the node of its statement. -/
theorem invoked_openEnded (command : Command) (unbounded : command.form.isOpenEnded = true) :
    (invoked blocks inv command).Delivers OpenEnded (fun _ => True) := by
  have rest (inv : Invocation) (same : inv.command = some command) : Scan.Delivers (do
      let inv ← (do if command.has .argopt then fileOptions inv else return inv)
      let inv ← leadIn inv
      let inv ← (do if command.has .editcmd && !inv.filter then startCommand inv else return inv)
      body blocks inv command.form) OpenEnded (fun _ => True) := by
    apply Scan.Delivers.through fun v => v.command = some command
    · refine .ite (fun _ => ?_) fun _ => .pure same
      exact fileOptions_keeps.weaken fun v kept => (command_of_head kept).trans same
    intro inv same
    apply leadIn_keeps.bind
    intro v kept
    replace kept := (command_of_head kept).trans same
    apply Scan.Delivers.through fun v => v.command = some command
    · refine .ite (fun _ => ?_) fun _ => .pure kept
      exact startCommand_keeps.weaken fun u kept' => (command_of_head kept').trans kept
    intro inv same
    apply (body_textual command.form unbounded).weaken
    rintro edits ⟨text, rfl⟩
    exact ⟨_, List.mem_singleton.mpr rfl, command.form, by simp [Edit.node, Node.form?, Node.command, Node.invocation?,
      Kind.invocation?, same], unbounded⟩
  refine .past fun bang => ?_
  exact .ite (fun _ => .past fun _ => .past fun position => rest _ rfl) fun _ =>
    .past fun position => rest _ rfl

end Statement

end VimScript
