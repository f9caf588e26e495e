import VimScript.Proofs.Blocks.Edits
import VimScript.Proofs.Statement.Parts

/-!
What commands come to: statements, blocks, branches and closing commands that the open blocks admit. No command
finds the stack of open blocks empty.
-/

set_option autoImplicit false

namespace VimScript

def Cause.Genuine (cause : Cause) : Prop :=
  cause ≠ .stackUnderflow

@[simp] theorem Cause.genuine_iff {cause : Cause} : cause.Genuine ↔ cause ≠ .stackUnderflow := Iff.rfl

theorem Cause.Textual.genuine {cause : Cause} (h : cause.Textual) : cause.Genuine := by
  rintro rfl
  rcases h with lexical | grammar
  · cases lexical
  · cases grammar

/-- Statements that may stand anywhere. -/
def Blocks.AdmittedByAll (edits : List Edit) : Prop :=
  ∀ b : Blocks, b.AdmitsAll edits

namespace Statement

open Scan Blocks VimScript.Expr

theorem genuine {α : Type} {x : Scan α} {good : α → Prop} (h : x.Delivers good Cause.Textual) :
    x.Delivers good Cause.Genuine :=
  h.mono (fun _ kept => kept) fun _ => Cause.Textual.genuine

theorem admittedByAll_nil : AdmittedByAll [] :=
  fun _ => trivial

theorem admittedByAll_append {first second : List Edit} (one : AdmittedByAll first)
    (two : AdmittedByAll second) : AdmittedByAll (first ++ second) :=
  fun b => (one b).append (two _)

theorem admittedByAll_add {statement : Node} (simple : statement.IsSimple)
    (jump : ∀ verb, statement.type ≠ .jump verb) (returns : statement.type ≠ .returnValue) :
    AdmittedByAll [.add statement] :=
  fun _ => ⟨⟨simple, fun verb same => absurd same (jump verb), fun same => absurd same returns⟩, trivial⟩

abbrev Adds (x : Scan (List Edit)) : Prop :=
  x.Delivers AdmittedByAll Cause.Genuine

abbrev Edits (b : Blocks) (x : Scan (List Edit)) : Prop :=
  x.Delivers b.AdmitsAll Cause.Genuine

theorem Adds.edits {x : Scan (List Edit)} (h : Adds x) (b : Blocks) : Edits b x :=
  h.weaken fun _ admitted => admitted b

/-! ### Commands kept as text -/

theorem admittedByAll_command (inv : Invocation) (text : String) :
    AdmittedByAll [.add (.command inv text)] :=
  admittedByAll_add ⟨rfl, rfl, by simp [Node.command, Node.children, Kind.children]⟩ nofun nofun

theorem commandUpTo_adds (inv : Invocation) (stop : Nat) : Adds (commandUpTo inv stop) :=
  .skip fun _ => .pure (admittedByAll_command _ _)

theorem grepPattern_delivers : grepPattern.Delivers (fun _ => True) Cause.Genuine := by
  refine .skip fun c => ?_
  split
  · exact .pure trivial
  · refine .ite (fun _ => .skip fun _ => .pure trivial) fun _ => .skip fun _ => ?_
    refine (genuine (pattern_delivers _)).andThen fun found => ?_
    exact .ite (fun _ => .of_faultless) fun _ => .pure trivial

theorem argumentStep_delivers (inv : Invocation) (state : ArgumentScan) :
    (argumentStep inv state).Delivers (fun _ => True) Cause.Genuine := by
  refine .skip fun i => .skip fun c => ?_
  split
  · exact .pure trivial
  · exact .pure trivial
  · refine .skip fun _ => .skip fun j => .skip fun escaped => ?_
    split
    · exact .pure trivial
    · exact .skip fun _ => .pure trivial
  · refine .skip fun ahead => .ite (fun _ => .skip fun _ => ?_) fun _ => .skip fun _ => .pure trivial
    refine (genuine read_delivers).bind fun _ _ => .skip fun close => ?_
    refine .ite (fun _ => .stop (.failHere (by simp))) fun _ => .skip fun _ => .pure trivial
  · exact .ite (fun _ => .pure trivial) fun _ => .skip fun _ => .pure trivial
  · exact .ite (fun _ => .pure trivial) fun _ => .skip fun _ => .pure trivial
  · exact .skip fun _ => .pure trivial

theorem argumentEnd_delivers (inv : Invocation) : (argumentEnd inv).Delivers (fun _ => True) Cause.Genuine := by
  refine .ite (fun _ => grepPattern_delivers.andThen fun _ => ?_) fun _ => ?_
  -- With a pattern before it or without one, the argument is followed in the same way.
  all_goals
    refine .skip fun start => .andThen (.loop (fun _ => True) trivial fun state _ => ?_) fun _ => .pure trivial
    refine (argumentStep_delivers inv state).weaken fun turn _ => ?_
    cases turn <;> trivial

theorem raw_adds (inv : Invocation) : Adds (raw inv) := by
  have finish (stop : Nat) : Adds (do
      if inv.has .needarg then
        let argument ← Scan.textBetween inv.argumentPos.cursor stop
        if argument.toList.all isUnicodeSpace then
          Scan.fail .argumentRequired inv.argumentPos
      commandUpTo inv stop) := by
    refine .ite (fun _ => .skip fun argument => ?_) fun _ => commandUpTo_adds inv stop
    exact .ite (fun _ => .stop (.fail (by simp) _)) fun _ => commandUpTo_adds inv stop
  refine .andThen (.ite (fun _ => argumentEnd_delivers inv) fun _ => .skip fun _ => .of_faultless) finish

theorem finish_adds (blocks : Blocks) (inv : Invocation) : Adds (finish blocks inv) :=
  (raw_adds inv).bind fun _ added => .ite (fun _ => .skip fun _ => .pure added) fun _ => .pure added

theorem window_adds (inv : Invocation) : Adds (window inv) := by
  have rest : Adds (do
      let stop ← Scan.tell
      Scan.skipWhite
      if !endsCommand (← Scan.peek) then
        Scan.failHere .invalidArgument
      commandUpTo inv stop) := by
    refine .skip fun stop => .skip fun _ => .skip fun c => ?_
    exact .ite (fun _ => .stop (.failHere (by simp))) fun _ => commandUpTo_adds inv stop
  refine .skip fun c => .ite (fun _ => .stop (.failHere (by simp))) fun _ => .skip fun _ => ?_
  refine .ite (fun _ => .skip fun second => .skip fun _ => ?_) fun _ => rest
  exact .ite (fun _ => .stop (.failHere (by simp))) fun _ => rest

theorem highlighting_adds (inv : Invocation) : Adds (highlighting inv) := by
  refine .andThen (.loop (fun _ => True) trivial fun _ _ => ?_) fun stop => commandUpTo_adds inv stop
  refine .skip fun i => .skip fun c => ?_
  have unit (d : Char) : Delivers (do
      let _ ← Scan.take 1
      let _ ← pattern d
      let _ ← Scan.take 1
      return Turn.again ()) (Turn.Meets (fun _ => True) fun _ : Nat => True) Cause.Genuine :=
    .skip fun _ => (genuine (pattern_delivers d)).andThen fun _ => .skip fun _ => .pure trivial
  split
  · exact unit _
  · exact unit _
  · exact unit _
  · exact unit _
  · exact .ite (fun _ => .pure trivial) fun _ => .skip fun _ => .pure trivial

theorem linesUpTo_delivers (marker : String) (lines : List String) :
    (linesUpTo marker lines).Delivers (fun _ => True) Cause.Genuine := by
  refine .loop (fun _ => True) trivial fun lines _ => .skip fun c => .ite (fun _ => .pure trivial) fun _ => ?_
  exact .skip fun line => .ite (fun _ => .pure trivial) fun _ => .skip fun _ => .pure trivial

theorem textLines_adds (inv : Invocation) : Adds (textLines inv) :=
  .skip fun _ => .skip fun _ => (linesUpTo_delivers _ _).andThen fun _ => .pure (admittedByAll_command _ _)

theorem remainingLines_adds (inv : Invocation) : Adds (remainingLines inv) := by
  refine .skip fun _ => .skip fun first => .andThen (.loop (fun _ => True) trivial fun lines _ => ?_)
    fun lines => .pure (admittedByAll_command _ _)
  exact .skip fun c => .ite (fun _ => .pure trivial) fun _ => .skip fun _ => .pure trivial

theorem foreignCode_adds (inv : Invocation) : Adds (foreignCode inv) := by
  refine .skip fun _ => .skip fun ahead => .ite (fun _ => ?_) fun _ => ?_
  · refine .skip fun _ => .skip fun _ => .skip fun word => .skip fun _ => .skip fun first => ?_
    exact (linesUpTo_delivers _ _).andThen fun _ => .pure (admittedByAll_command _ _)
  · exact .skip fun _ => .skip fun line => .pure (admittedByAll_command _ _)

/-! ### Comments and the end of a command -/

theorem comment_adds : Adds comment := by
  refine .skip fun position => .skip fun _ => .skip fun text => .pure ?_
  exact admittedByAll_add ⟨rfl, rfl, by simp [Node.children, Kind.children]⟩ nofun nofun

theorem trail_adds : Adds trail := by
  refine .skip fun _ => .skip fun c => ?_
  split
  · exact .pure admittedByAll_nil
  · exact .skip fun _ => .pure admittedByAll_nil
  · exact .skip fun _ => .pure admittedByAll_nil
  · exact comment_adds.bind fun _ added => .skip fun _ => .pure added
  · exact .failHere (by simp)

/-! ### Variables -/

theorem target_delivers : target.Delivers Node.IsExpression Cause.Genuine := by
  refine (genuine Target.read_delivers).bind fun node known => ?_
  split
  · exact .ite (fun _ => .pure known) fun _ => .fail (by simp) _
  · exact .pure known

theorem constantTarget_delivers : constantTarget.Delivers Node.IsExpression Cause.Genuine := by
  refine target_delivers.bind fun node known => ?_
  split
  · exact .fail (by simp) _
  · exact .pure known

def AllTargets (left : Targets Node) : Prop :=
  AllExpressions (left.single.toList ++ left.items ++ left.rest.toList)

theorem genuine_next : Token.next.Delivers (fun _ => True) Cause.Genuine :=
  genuine token_next

theorem genuine_peek : Token.peek.Delivers (fun _ => True) Cause.Genuine :=
  genuine token_peek

theorem targets_delivers {single : Scan Node} (h : single.Delivers Node.IsExpression Cause.Genuine) :
    (targets single).Delivers AllTargets Cause.Genuine := by
  refine genuine_peek.andThen fun bracket => .ite (fun _ => ?_) fun _ => ?_
  · refine h.bind fun node known => .pure ?_
    simpa [AllTargets] using known
  refine genuine_next.andThen fun _ => .loop AllExpressions .nil fun items known => ?_
  refine target_delivers.bind fun item known' => genuine_next.andThen fun token => ?_
  have all := known.concat known'
  split
  · refine .pure ?_
    simpa [AllTargets] using all
  · exact .pure all
  · refine target_delivers.bind fun rest known'' => genuine_next.andThen fun close => ?_
    refine .ite (fun _ => .stop (.fail (by simp) _)) fun _ => .pure ?_
    simpa [AllTargets] using all.concat known''
  · exact .fail (by simp) _

theorem assignment_admitted {verb : AssignVerb} {inv : Invocation} {op : String} {left : Targets Node}
    {value : Node} (targets : AllTargets left) (known : value.IsExpression) :
    AdmittedByAll [assignment verb inv op left value] :=
  admittedByAll_add ⟨rfl, rfl, AllExpressions.concat targets known⟩ nofun nofun

theorem heredocHead_delivers : heredocHead.Delivers (fun _ => True) Cause.Genuine := by
  refine .loop (fun _ => True) trivial fun options _ => .skip fun _ => .skip fun word => ?_
  exact .ite (fun _ => .pure trivial) fun _ => .ite (fun _ => .pure trivial) fun _ => .pure trivial

theorem heredoc_delivers (inv : Invocation) :
    (heredoc inv).Delivers (fun found => found.1.IsExpression ∧ AdmittedByAll found.2) Cause.Genuine := by
  refine heredocHead_delivers.andThen fun head => .ite (fun _ => .stop (.failHere (by simp))) fun _ => ?_
  refine trail_adds.bind fun edits added => .andThen (.loop (fun _ => True) trivial fun lines _ => ?_)
    fun lines => .pure ⟨.heredoc _ _ _, added⟩
  refine .skip fun c => .ite (fun _ => .failHere (by simp)) fun _ => .skip fun line => ?_
  exact .ite (fun _ => .pure trivial) fun _ => .skip fun _ => .pure trivial

instance : Faultless longOperator where
  delivers := .skip fun _ => .ite (fun _ => .of_faultless) fun _ => .pure trivial

theorem letCommand_adds (inv : Invocation) : Adds (letCommand inv) := by
  refine .skip fun start => .skip fun _ => .skip fun c => .ite (fun _ => .skip fun _ => raw_adds inv) fun _ => ?_
  refine (targets_delivers target_delivers).bind fun left known => .skip fun _ => .skip fun short => ?_
  have value (op : String) : Adds (do return [assignment .letVar inv op left (← Expr.read)]) :=
    (genuine Expr.read_delivers).bind fun value known' => .pure (assignment_admitted known known')
  refine .skip fun long => .ite (fun _ => .skip fun _ => value long) fun _ => .ite (fun _ => ?_) fun _ => ?_
  · refine .skip fun _ => .skip fun _ => (heredoc_delivers inv).bind fun found known' => .pure ?_
    exact admittedByAll_append known'.2 (assignment_admitted known known'.1)
  · exact .ite (fun _ => .skip fun _ => value short) fun _ => .skip fun _ => raw_adds inv

theorem constCommand_adds (inv : Invocation) : Adds (constCommand inv) := by
  refine .skip fun start => .skip fun _ => .skip fun c => .ite (fun _ => .skip fun _ => raw_adds inv) fun _ => ?_
  refine (targets_delivers constantTarget_delivers).bind fun left known => .skip fun _ => .skip fun sign => ?_
  refine .ite (fun _ => .skip fun _ => ?_) fun _ => .skip fun _ => raw_adds inv
  exact (genuine Expr.read_delivers).bind fun value known' => .pure (assignment_admitted known known')

theorem variableList_delivers : variableList.Delivers AllExpressions Cause.Genuine := by
  refine (genuine Expr.read_delivers).bind fun first known => ?_
  refine .loop AllExpressions (by simpa using known) fun found all => .skip fun _ => .skip fun c => ?_
  exact .ite (fun _ => .pure all) fun _ => target_delivers.bind fun node known => .pure (all.concat known)

theorem unlet_adds (inv : Invocation) : Adds (unlet inv) :=
  variableList_delivers.bind fun _ all => .pure (admittedByAll_add ⟨rfl, rfl, all⟩ nofun nofun)

theorem lock_adds (verb : LockVerb) (inv : Invocation) : Adds (lock verb inv) :=
  .skip fun _ => .skip fun _ => variableList_delivers.bind fun _ all =>
    .pure (admittedByAll_add ⟨rfl, rfl, all⟩ nofun nofun)

/-! ### Evaluation -/

theorem functionName_delivers : functionName.Delivers Node.IsExpression Cause.Genuine :=
  (genuine Target.read_delivers).bind fun _ known =>
    .ite (fun _ => .stop (.fail (by simp) _)) fun _ => .pure known

theorem operand_admitted (verb : OperandVerb) (inv : Invocation) {value : Node} (known : value.IsExpression) :
    AdmittedByAll (operand verb inv value) :=
  admittedByAll_add ⟨rfl, rfl, by simpa [Node.children, Kind.children] using known⟩ nofun nofun

theorem deleteFunction_adds (inv : Invocation) : Adds (deleteFunction inv) :=
  functionName_delivers.bind fun _ known => .pure (operand_admitted _ _ known)

theorem call_adds (inv : Invocation) : Adds (call inv) := by
  refine .skip fun _ => .skip fun c => .ite (fun _ => .stop (.failHere (by simp))) fun _ => ?_
  refine (genuine Expr.read_delivers).bind fun value known => .ite (fun _ => .stop (.fail (by simp) _)) fun _ => ?_
  exact .pure (operand_admitted _ _ known)

theorem evaluate_adds (verb : OperandVerb) (inv : Invocation) : Adds (evaluate verb inv) :=
  (genuine Expr.read_delivers).bind fun _ known => .pure (operand_admitted _ _ known)

theorem returnValue_edits (b : Blocks) (inv : Invocation) : Edits b (returnValue b inv) := by
  by_cases inside : b.insideFunction = true
  · simp only [returnValue, inside, Bool.not_true, Bool.false_eq_true, if_false]
    refine .skip fun _ => .skip fun c => .through (fun found => ∀ n ∈ found, n.IsExpression) ?_
      fun value known => .pure ⟨⟨⟨rfl, rfl, ?_⟩, by simp [Node.type, Kind.nodeType], fun _ => inside⟩, trivial⟩
    · refine .ite (fun _ => .map ((genuine Expr.read_delivers).weaken fun value known => ?_)) fun _ => .pure (by simp)
      simpa using known
    · simpa [Node.children, Kind.children] using known
  · simp only [returnValue, inside, Bool.not_false, if_true]
    exact .stop (.fail (by simp) _)

theorem expressions_delivers : expressions.Delivers AllExpressions Cause.Genuine := by
  refine .loop AllExpressions .nil fun found all => .skip fun _ => .skip fun c => .ite (fun _ => .pure all) fun _ => ?_
  exact (genuine Expr.read_delivers).bind fun value known => .pure (all.concat known)

theorem echo_adds (verb : EchoVerb) (inv : Invocation) : Adds (echo verb inv) :=
  expressions_delivers.bind fun _ all => .pure (admittedByAll_add ⟨rfl, rfl, all⟩ nofun nofun)

theorem echoHighlight_adds (inv : Invocation) : Adds (echoHighlight inv) := by
  refine .skip fun text => .pure ?_
  exact admittedByAll_add ⟨rfl, rfl, by simp [Node.children, Kind.children]⟩ nofun nofun

end Statement

end VimScript
