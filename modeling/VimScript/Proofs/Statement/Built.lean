import VimScript.Proofs.Tree.WellFormed
import VimScript.Proofs.Blocks.Labels
import VimScript.Proofs.Statement.Reads

/-!
What statements are built of: none is an expression, and below each there is nothing but what it reads.
-/

set_option autoImplicit false

namespace VimScript.Statement

open Scan Node

variable {P : Node → Prop} {s : Source} {i : Nat} {setting : Setting} {blocks : Blocks} {inv : Invocation}
  {edits : List Edit}

/-- The nodes that are handed over are built of nodes in a set. -/
def AllBuilt (P : Node → Prop) (edits : List Edit) : Prop :=
  ∀ e ∈ edits, e.node.BuiltOf P

abbrev Builds (P : Node → Prop) (x : Scan (List Edit)) (s : Source) (i : Nat) : Prop :=
  x.Gives s i fun edits _ => AllBuilt P edits

theorem AllBuilt.nil : AllBuilt P [] := by
  simp [AllBuilt]

theorem AllBuilt.single {e : Edit} (h : e.node.BuiltOf P) : AllBuilt P [e] := by
  simpa [AllBuilt] using h

theorem AllBuilt.append {more : List Edit} (first : AllBuilt P edits) (second : AllBuilt P more) :
    AllBuilt P (edits ++ more) := by
  simpa [AllBuilt, or_imp, forall_and] using ⟨first, second⟩

/-! ### Statements with a text -/

theorem comment_builds : Builds P comment s i :=
  .step fun _ _ _ => .step fun _ _ _ => .step fun _ _ _ => .pure (.single (.mk rfl (by simp [Kind.children])))

theorem trail_builds : Builds P trail s i := by
  refine .step fun _ _ _ => .step fun _ _ _ => ?_
  split
  · exact .pure .nil
  · exact .step fun _ _ _ => .pure .nil
  · exact .step fun _ _ _ => .pure .nil
  · exact comment_builds.bind fun _ _ known => .step fun _ _ _ => .pure known
  · exact .failHere

theorem builtOf_command (text : String) : (Node.command inv text).BuiltOf P :=
  .mk rfl (by simp [Kind.children])

theorem commandUpTo_builds (stop : Nat) : Builds P (commandUpTo inv stop) s i :=
  .step fun text _ _ => .pure (.single (builtOf_command text))

theorem commandLines_built (lines : List String) : AllBuilt P (commandLines inv lines) :=
  .single (builtOf_command _)

theorem raw_builds : Builds P (raw inv) s i := by
  refine .step fun stop _ _ => .ite (fun _ => .step fun _ _ _ => ?_) fun _ => commandUpTo_builds stop
  exact .ite (fun _ => .stop .fail) fun _ => commandUpTo_builds stop

/-- Where an argument turns out to be none, it is read again as text. -/
theorem seek_raw_builds (start : Nat) : Builds P (do Scan.seek start; raw inv) s i :=
  .step fun _ _ _ => raw_builds

theorem finish_builds : Builds P (finish blocks inv) s i :=
  raw_builds.bind fun _ _ known => .ite (fun _ => .step fun _ _ _ => .pure known) fun _ => .pure known

theorem window_builds : Builds P (window inv) s i := by
  have rest (j : Nat) : Builds P (do
      let stop ← Scan.tell
      Scan.skipWhite
      if !endsCommand (← Scan.peek) then
        Scan.failHere .invalidArgument
      commandUpTo inv stop) s j := by
    refine .step fun stop _ _ => .step fun _ _ _ => .step fun _ _ _ => ?_
    exact .ite (fun _ => .stop .failHere) fun _ => commandUpTo_builds stop
  refine .step fun _ _ _ => .ite (fun _ => .stop .failHere) fun _ => .step fun _ j _ => ?_
  refine .ite (fun _ => .step fun _ _ _ => .step fun _ k _ => ?_) fun _ => rest j
  exact .ite (fun _ => .stop .failHere) fun _ => rest k

theorem textLines_builds : Builds P (textLines inv) s i :=
  .step fun _ _ _ => .step fun _ _ _ => .step fun lines _ _ => .pure (commandLines_built lines)

theorem remainingLines_builds : Builds P (remainingLines inv) s i :=
  .step fun _ _ _ => .step fun _ _ _ => .step fun lines _ _ => .pure (commandLines_built lines)

theorem foreignCode_builds : Builds P (foreignCode inv) s i := by
  refine .step fun _ _ _ => .step fun _ _ _ => .ite (fun _ => ?_) fun _ => ?_
  · refine .step fun _ _ _ => .step fun _ _ _ => .step fun word j _ => .step fun _ _ _ => .step fun _ _ _ => ?_
    exact .step fun lines _ _ => .pure (commandLines_built lines)
  · exact .step fun _ _ _ => .step fun line _ _ => .pure (commandLines_built [line])

/-! ### Blocks and jumps without operands -/

theorem catchCommand_builds : Builds P (catchCommand blocks inv) s i := by
  refine .ite (fun _ => .stop .fail) fun _ => .ite (fun _ => .stop .fail) fun _ => ?_
  refine .step fun _ _ _ => .step fun _ _ _ => .step fun _ _ _ => .pure (.single (.mk rfl ?_))
  simp [Kind.children]

theorem closer_builds (block : BlockSort) : Builds P (closer blocks block inv) s i := by
  have built : AllBuilt P [.closeBlock (.mk inv.commandPos (.closer block inv))] :=
    .single (.mk rfl (by simp [Kind.children]))
  have close : Builds P (do
      if blocks.innermost.block? != some block then
        Scan.fail (.closerWithoutOpener block) inv.commandPos
      if block == .function then
        let _ ← Scan.takeLine
      return [.closeBlock (.mk inv.commandPos (.closer block inv))]) s i := by
    refine .ite (fun _ => .stop .fail) fun _ => .ite (fun _ => .step fun _ _ _ => ?_) fun _ => ?_
    · exact .pure built
    · exact .pure built
  refine .ite (fun _ => ?_) fun _ => close
  split
  · exact .stop .fail
  · exact close

theorem jump_builds (verb : Jump) : Builds P (jump blocks verb inv) s i := by
  refine .ite (fun _ => ?_) fun _ => .pure (.single (.mk rfl (by simp [Kind.children])))
  cases verb
  · exact .stop .fail
  · exact .stop .fail

/-! ### Assignments -/

theorem builtOf_assignment {left : Targets Node} {value : Node} (verb : AssignVerb) (op : String)
    (targets : TargetsIn P left) (known : P value) : (assignment verb inv op left value).node.BuiltOf P := by
  refine .mk rfl ?_
  simpa [Kind.children, or_imp, forall_and] using
    ⟨fun n place => targets.1 n place, targets.2.1, fun n place => targets.2.2 n place, known⟩

theorem operand_built {value : Node} (verb : OperandVerb) (known : P value) : AllBuilt P (operand verb inv value) :=
  .single (.mk rfl (by simpa [Kind.children] using known))

section Operands

variable (reads : Reads P s)

include reads

theorem heredoc_builds : (heredoc inv).Gives s i fun found _ => P found.1 ∧ AllBuilt P found.2 := by
  refine (reads.heredoc inv i).both (.step fun head j _ => .ite (fun _ => .stop .failHere) fun _ => ?_)
  exact trail_builds.bind fun edits _ known => .step fun lines _ _ => .pure known

theorem value_builds {left : Targets Node} (verb : AssignVerb) (n : Nat) (op : String)
    (targets : TargetsIn P left) (i : Nat) : Builds P (do
      let _ ← Scan.take n
      let value ← Expr.read
      return [assignment verb inv op left value]) s i :=
  .step fun _ k _ => (reads.expression k).bind fun _ _ known =>
    .pure (.single (builtOf_assignment verb op targets known))

theorem letCommand_builds : Builds P (letCommand inv) s i := by
  refine .after (tell_apply s i) (.step fun _ _ _ => .step fun _ k _ => .ite (fun _ => seek_raw_builds i) fun _ => ?_)
  refine (targets_give reads fun _ => target_gives reads).bind fun left _ targets => ?_
  refine .step fun _ _ _ => .step fun short _ _ => .step fun long k _ => ?_
  refine .ite (fun _ => value_builds reads _ _ _ targets k) fun _ => .ite (fun _ => ?_) fun _ => ?_
  · refine .step fun _ _ _ => .step fun _ _ _ => (heredoc_builds reads).bind ?_
    rintro ⟨value, edits⟩ _ ⟨known, more⟩
    exact .pure (more.append (.single (builtOf_assignment _ _ targets known)))
  · exact .ite (fun _ => value_builds reads _ _ _ targets k) fun _ => seek_raw_builds i

theorem constCommand_builds : Builds P (constCommand inv) s i := by
  refine .after (tell_apply s i) (.step fun _ _ _ => .step fun _ k _ => .ite (fun _ => seek_raw_builds i) fun _ => ?_)
  refine (targets_give reads fun _ => constantTarget_gives reads).bind fun left _ targets => ?_
  refine .step fun _ _ _ => .step fun _ k _ => ?_
  exact .ite (fun _ => value_builds reads _ _ _ targets k) fun _ => seek_raw_builds i

theorem lock_builds (verb : LockVerb) : Builds P (lock verb inv) s i :=
  .step fun _ _ _ => .step fun _ _ _ => (variableList_gives reads).bind fun _ _ all => .pure (.single (.mk rfl all))

/-! ### Evaluation -/

theorem call_builds : Builds P (call inv) s i := by
  refine .step fun _ _ _ => .step fun _ k _ => .ite (fun _ => .stop .failHere) fun _ => ?_
  refine (reads.expression k).bind fun value _ known => ?_
  exact .ite (fun _ => .stop .fail) fun _ => .pure (operand_built _ known)

theorem returnValue_builds : Builds P (returnValue blocks inv) s i := by
  refine .ite (fun _ => .stop .fail) fun _ => .step fun _ _ _ => .step fun _ k _ => ?_
  refine .bind (q := fun found _ => ∀ n ∈ found, P n) ?_ fun found _ known => .pure (.single (.mk rfl ?_))
  · refine .ite (fun _ => .map ((reads.expression k).mono fun n _ known => ?_)) fun _ => .pure (by simp)
    rintro _ ⟨⟩
    exact known
  · simpa [Kind.children] using known

/-! ### Blocks -/

theorem condition_builds {e : Node → Edit} (made : ∀ cond, P cond → (e cond).node.BuiltOf P) :
    Builds P (do
      let cond ← Expr.read
      return [e cond]) s i :=
  (reads.expression i).bind fun cond _ known => .pure (.single (made cond known))

theorem forCommand_builds : Builds P (forCommand inv) s i := by
  refine (targets_give reads fun _ => target_gives reads).bind fun left _ targets => ?_
  refine .step fun _ _ _ => .step fun _ _ _ => .step fun _ k _ => .ite (fun _ => .stop .fail) fun _ => ?_
  refine (reads.expression k).bind fun values _ known => .pure (.single (.mk rfl ?_))
  simpa [Kind.children, or_imp, forall_and] using
    ⟨fun n place => targets.1 n place, targets.2.1, fun n place => targets.2.2 n place, known⟩

theorem functionCommand_builds : Builds P (functionCommand inv) s i := by
  refine .after (tell_apply s i) (.step fun _ _ _ => .step fun _ k _ => .ite (fun _ => seek_raw_builds i) fun _ => ?_)
  refine (functionName_gives reads).bind fun name _ known => .step fun _ j _ => ?_
  have rest (j : Nat) : Builds P (do
      if (← Scan.peekInLine) != some '(' then
        Scan.seek i
        raw inv
      else
        let _ ← Scan.take 1
        let params ← functionParameters
        let flags ← functionFlags
        return [.openBlock (.mk inv.commandPos
          (.function inv name params.names params.defaults flags [] none))]) s j := by
    refine .step fun _ k _ => .ite (fun _ => seek_raw_builds i) fun _ => .step fun _ _ _ => ?_
    refine (functionParameters_give reads).bind fun params _ all => .step fun _ _ _ => .pure (.single (.mk rfl ?_))
    simpa [Kind.children, or_imp, forall_and] using ⟨known, all.1, all.2⟩
  dsimp only
  split
  · exact .ite (fun _ => .stop .fail) fun _ => rest j
  · exact rest j

/-! ### The command of a line -/

theorem body_builds (form : CommandForm) : Builds P (body blocks inv form) s i := by
  have evaluated (verb : OperandVerb) : Builds P (evaluate verb inv) s i :=
    (reads.expression i).bind fun _ _ known => .pure (operand_built verb known)
  have bare {kind : Kind Node} (type : kind.nodeType.isExpression = false) (none : kind.children = []) :
      (Node.mk inv.commandPos kind).BuiltOf P := .mk type (by simp [none])
  cases form with
  | append => exact textLines_builds
  | insert => exact textLines_builds
  | loadKeymap => exact remainingLines_builds
  | finish => exact finish_builds
  | foreign language => exact foreignCode_builds
  | call => exact call_builds reads
  | delFunction => exact (functionName_gives reads).bind fun _ _ known => .pure (operand_built _ known)
  | eval => exact evaluated _
  | throw => exact evaluated _
  | catchBranch => exact catchCommand_builds
  | elseBranch => exact .ite (fun _ => .stop .fail) fun _ => .pure (.single (bare rfl rfl))
  | elseIf =>
    refine .ite (fun _ => .stop .fail) fun _ => condition_builds reads fun _ known => .mk rfl ?_
    simpa [Kind.children] using known
  | finallyBranch => exact .ite (fun _ => .stop .fail) fun _ => .pure (.single (bare rfl rfl))
  | common => exact raw_builds
  | userCommand => exact raw_builds
  | assign verb =>
    cases verb with
    | letVar => exact letCommand_builds reads
    | const => exact constCommand_builds reads
  | echo verb => exact (expressions_give reads).bind fun _ _ all => .pure (.single (.mk rfl all))
  | echoHl => exact .step fun _ _ _ => .pure (.single (bare rfl rfl))
  | opener block =>
    cases block with
    | function => exact functionCommand_builds reads
    | ifBlock => exact condition_builds reads fun _ known => .mk rfl (by simpa [Kind.children] using known)
    | whileLoop => exact condition_builds reads fun _ known => .mk rfl (by simpa [Kind.children] using known)
    | forLoop => exact forCommand_builds reads
    | tryBlock => exact .pure (.single (bare rfl rfl))
  | closer block => exact closer_builds block
  | jump verb => exact jump_builds verb
  | lock verb => exact lock_builds reads verb
  | returnValue => exact returnValue_builds reads
  | highlighting => exact .step fun stop _ _ => commandUpTo_builds stop
  | unlet => exact (variableList_gives reads).bind fun _ _ all => .pure (.single (.mk rfl all))
  | window => exact window_builds

theorem commandPart_builds : (commandPart setting inv).Gives s i fun effect _ => AllBuilt P effect.edits := by
  refine .step fun _ _ _ => .step fun _ _ _ => .step fun c _ _ => .ite (fun _ => ?_) fun _ => ?_
  · refine .ite (fun _ => .pure .nil) fun _ => (commandUpTo_builds _).bind fun _ _ known => .pure known
  · refine .step fun found j _ => ?_
    obtain ⟨_ | command, names⟩ := found
    · exact .step fun _ _ _ => .step fun _ _ _ => .fail
    · refine .bind (q := fun edits _ => AllBuilt P edits) (.step fun _ k _ => ?_) fun _ _ known => .pure known
      have rest (k : Nat) (inv : Invocation) : Builds P (do
          let inv ← (do if command.has .argopt then fileOptions inv else return inv)
          let inv ← leadIn inv
          let inv ← (do if command.has .editcmd && !inv.filter then startCommand inv else return inv)
          body setting.blocks inv command.form) s k :=
        .step fun _ _ _ => .step fun _ _ _ => .step fun _ _ _ => body_builds reads _
      refine .ite (fun _ => .step fun _ _ _ => .step fun _ l _ => rest l _) fun _ => .step fun _ l _ => rest l _

/-- All that a statement hands over is built of what it reads. -/
theorem read_builds : (read setting).Gives s i fun effect _ => AllBuilt P effect.edits := by
  refine .step fun _ _ _ => .ite (fun _ => .step fun _ _ _ => .pure .nil) fun _ => ?_
  refine .step fun _ _ _ => .step fun _ j _ => ?_
  split
  · exact .step fun _ _ _ => .pure .nil
  · exact comment_builds.bind fun _ _ known => .step fun _ _ _ => .pure known
  · refine .step fun _ _ _ => .step fun _ _ _ => .step fun _ _ _ => ?_
    refine (commandPart_builds reads).bind fun _ _ known => ?_
    exact trail_builds.bind fun _ _ more => .pure (known.append more)

end Operands

end VimScript.Statement
