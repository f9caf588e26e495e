import VimScript.Proofs.Statement.Commands

/-!
What a statement does to the open blocks. Commands that divide and close blocks look at the innermost one first, so
the blocks admit all edits a statement comes to.
-/

set_option autoImplicit false

namespace VimScript.Statement

open Scan Blocks VimScript.Expr

variable {b : Blocks} {inv : Invocation}

theorem edits_openBlock {position : Position} {kind : Kind Node} (sort : BlockSort)
    (type : kind.nodeType = .ofBlock sort) (slots : kind.slots = {}) (header : AllExpressions kind.header) :
    b.AdmitsAll [.openBlock (.mk position kind)] :=
  ⟨⟨⟨slots, header⟩, sort, type⟩, trivial⟩

theorem edits_openBranch {position : Position} {kind : Kind Node} (takes : b.TakesBranch kind.nodeType)
    (slots : kind.slots = {}) (header : AllExpressions kind.header) :
    b.AdmitsAll [.openBranch (.mk position kind)] :=
  ⟨⟨⟨slots, header⟩, takes⟩, trivial⟩

theorem ifCommand_edits : Edits b (ifCommand inv) := by
  refine (genuine Expr.read_delivers).bind fun cond known => .pure (edits_openBlock .ifBlock rfl rfl ?_)
  simpa [Kind.header] using known

theorem whileCommand_edits : Edits b (whileCommand inv) := by
  refine (genuine Expr.read_delivers).bind fun cond known => .pure (edits_openBlock .whileLoop rfl rfl ?_)
  simpa [Kind.header] using known

theorem forCommand_edits : Edits b (forCommand inv) := by
  refine (targets_delivers target_delivers).bind fun left known => .skip fun _ => .skip fun position => ?_
  refine .skip fun word => .ite (fun _ => .stop (.fail (by simp) _)) fun _ => ?_
  refine (genuine Expr.read_delivers).bind fun values known' => .pure (edits_openBlock .forLoop rfl rfl ?_)
  exact AllExpressions.concat known known'

theorem tryCommand_edits : Edits b (tryCommand inv) :=
  .pure (edits_openBlock .tryBlock rfl rfl .nil)

/-! ### Branches -/

theorem either_of_not_misplaced {type opening branch : NodeType}
    (placed : ¬(type != opening && type != branch) = true) : type = opening ∨ type = branch := by
  by_cases same : type = opening
  · exact .inl same
  · exact .inr (by simpa [same] using placed)

theorem elseIf_edits : Edits b (elseIf b inv) := by
  by_cases misplaced : (b.innermost != .ifBlock && b.innermost != .elseIf) = true
  · simp only [elseIf, misplaced, if_true]
    exact .stop (.fail (by simp) _)
  · have inner := either_of_not_misplaced misplaced
    simp only [elseIf, misplaced]
    refine (genuine Expr.read_delivers).bind fun cond known => .pure (edits_openBranch ?_ rfl ?_)
    · exact .inl ⟨.inl rfl, inner⟩
    · simpa [Kind.header] using known

theorem elseCommand_edits : Edits b (elseCommand b inv) := by
  by_cases misplaced : (b.innermost != .ifBlock && b.innermost != .elseIf) = true
  · simp only [elseCommand, misplaced, if_true]
    exact .stop (.fail (by simp) _)
  · have inner := either_of_not_misplaced misplaced
    simp only [elseCommand, misplaced]
    exact .pure (edits_openBranch (.inl ⟨.inr rfl, inner⟩) rfl .nil)

theorem catchCommand_edits : Edits b (catchCommand b inv) := by
  by_cases late : (b.innermost == .finallyBranch) = true
  · simp only [catchCommand, late, if_true]
    exact .stop (.fail (by simp) _)
  by_cases misplaced : (b.innermost != .tryBlock && b.innermost != .catchBranch) = true
  · simp only [catchCommand, late, misplaced, if_true]
    exact .stop (.fail (by simp) _)
  · have inner := either_of_not_misplaced misplaced
    simp only [catchCommand, late, misplaced]
    refine .skip fun _ => .skip fun c => .andThen ?_ fun text => .pure (edits_openBranch ?_ rfl .nil)
    · split
      · refine .ite (fun _ => .pure trivial) fun _ => .skip fun _ => ?_
        exact (genuine (pattern_delivers _)).andThen fun _ => .pure trivial
      · exact .pure trivial
    · exact .inr ⟨.inl rfl, inner⟩

theorem finallyCommand_edits : Edits b (finallyCommand b inv) := by
  by_cases misplaced : (b.innermost != .tryBlock && b.innermost != .catchBranch) = true
  · simp only [finallyCommand, misplaced, if_true]
    exact .stop (.fail (by simp) _)
  · have inner := either_of_not_misplaced misplaced
    simp only [finallyCommand, misplaced]
    exact .pure (edits_openBranch (.inr ⟨.inr rfl, inner⟩) rfl .nil)

/-! ### Closing commands and jumps -/

theorem closer_edits (block : BlockSort) : Edits b (closer b block inv) := by
  have close : Edits b (do
      if b.innermost.block? != some block then
        Scan.fail (.closerWithoutOpener block) inv.commandPos
      if block == .function then
        let _ ← Scan.takeLine
      return [.closeBlock (.mk inv.commandPos (.closer block inv))]) := by
    refine .ite (fun _ => .stop (.fail (by simp) _)) fun found => ?_
    have inner : b.innermost.block? = some block := by simpa using found
    have admitted : b.AdmitsAll [.closeBlock (.mk inv.commandPos (.closer block inv))] :=
      ⟨⟨block, rfl, inner⟩, trivial⟩
    exact .ite (fun _ => .skip fun _ => .pure admitted) fun _ => .pure admitted
  refine .ite (fun _ => ?_) fun _ => close
  split
  · exact .stop (.fail (by simp) _)
  · exact close

theorem jump_edits (verb : Jump) : Edits b (jump b verb inv) := by
  by_cases inside : b.insideLoop = true
  · simp only [jump, inside, Bool.not_true, Bool.false_eq_true, if_false]
    refine .pure ⟨⟨⟨rfl, rfl, ?_⟩, fun _ _ => inside, by simp [Node.type, Kind.nodeType]⟩, trivial⟩
    simp [Node.children, Kind.children]
  · simp only [jump, inside, Bool.not_false, if_true]
    cases verb
    · exact .stop (.fail (by simp) _)
    · exact .stop (.fail (by simp) _)

/-! ### Functions -/

def Parameters.Known (params : Parameters) : Prop :=
  AllExpressions params.names ∧ AllExpressions params.defaults

theorem functionParameter_delivers {found : Parameters} (known : found.Known) (token : Token) :
    (functionParameter found token).Delivers (fun next => next.1.Known) Cause.Genuine := by
  have names := known.1.concat (.identifier (p := token.position) token.value)
  refine .ite (fun _ => .stop (.fail (by simp) _)) fun _ => .ite (fun _ => .stop (.fail (by simp) _)) fun _ => ?_
  refine .through AllExpressions (genuine_peek.andThen fun sign => .ite (fun _ => ?_) fun _ => ?_)
    fun defaults all => .skip fun c => ?_
  · exact genuine_next.andThen fun _ => (genuine Expr.read_delivers).bind fun value known' =>
      .pure (known.2.concat known')
  · exact .ite (fun _ => .fail (by simp) _) fun _ => .pure known.2
  · have done : (do return (⟨found.names ++ [Node.identifier token.value token.position], defaults⟩, ← Token.next)
        : Scan (Parameters × Token)).Delivers (fun next => next.1.Known) Cause.Genuine :=
      genuine_next.andThen fun after => .pure ⟨names, all⟩
    refine .ite (fun _ => genuine_peek.andThen fun comma => ?_) fun _ => done
    exact .ite (fun _ => .stop (.failHere (by simp))) fun _ => done

theorem functionParameters_delivers : functionParameters.Delivers Parameters.Known Cause.Genuine := by
  refine genuine_peek.andThen fun close => .ite (fun _ => genuine_next.andThen fun _ => .pure ⟨.nil, .nil⟩) fun _ => ?_
  refine .loop Parameters.Known ⟨.nil, .nil⟩ fun found known => genuine_next.andThen fun token => ?_
  split
  · refine (functionParameter_delivers known token).bind fun next known => ?_
    obtain ⟨found, after⟩ := next
    dsimp only
    split
    · refine genuine_peek.andThen fun close => ?_
      exact .ite (fun _ => genuine_next.andThen fun _ => .pure known) fun _ => .pure known
    · exact .pure known
    · exact genuine (unexpected_delivers after)
  · have names := known.1.concat (.identifier (p := token.position) token.value)
    refine genuine_next.andThen fun after => ?_
    exact .ite (fun _ => .stop (genuine (unexpected_delivers after))) fun _ => .pure ⟨names, known.2⟩
  · exact genuine (unexpected_delivers token)

theorem functionFlags_delivers : functionFlags.Delivers (fun _ => True) Cause.Genuine := by
  refine .loop (fun _ => True) trivial fun flags _ => .skip fun _ => .skip fun position => .skip fun word => ?_
  split
  · exact .pure trivial
  · exact .pure trivial
  · exact .pure trivial
  · exact .pure trivial
  · exact .pure trivial
  · exact .fail (by simp) _

theorem functionCommand_edits : Edits b (functionCommand inv) := by
  refine .skip fun start => .skip fun _ => .skip fun c => .ite (fun _ => .skip fun _ => ?_) fun _ => ?_
  · exact (raw_adds inv).edits b
  refine functionName_delivers.bind fun name known => .skip fun _ => ?_
  have rest : Edits b (do
      if (← Scan.peekInLine) != some '(' then
        Scan.seek start
        raw inv
      else
        let _ ← Scan.take 1
        let params ← functionParameters
        let flags ← functionFlags
        return [.openBlock (.mk inv.commandPos
          (.function inv name params.names params.defaults flags [] none))]) := by
    refine .skip fun paren => .ite (fun _ => .skip fun _ => (raw_adds inv).edits b) fun _ => .skip fun _ => ?_
    refine functionParameters_delivers.bind fun params all => functionFlags_delivers.andThen fun flags => ?_
    refine .pure (edits_openBlock .function rfl rfl ?_)
    intro n inside
    rcases List.mem_append.mp inside with front | back
    · rcases List.mem_cons.mp front with rfl | param
      · exact known
      · exact all.1 n param
    · exact all.2 n back
  split
  · exact .ite (fun _ => .stop (.fail (by simp) _)) fun _ => rest
  · exact rest

/-! ### Statements -/

theorem body_edits (form : CommandForm) : Edits b (body b inv form) := by
  unfold body
  split
  · exact (textLines_adds inv).edits b
  · exact (textLines_adds inv).edits b
  · exact (call_adds inv).edits b
  · exact (deleteFunction_adds inv).edits b
  · exact (evaluate_adds _ inv).edits b
  · exact (evaluate_adds _ inv).edits b
  · exact catchCommand_edits
  · exact elseCommand_edits
  · exact elseIf_edits
  · exact finallyCommand_edits
  · exact (raw_adds inv).edits b
  · exact (raw_adds inv).edits b
  · exact (letCommand_adds inv).edits b
  · exact (constCommand_adds inv).edits b
  · exact (echo_adds _ inv).edits b
  · exact (echoHighlight_adds inv).edits b
  · exact functionCommand_edits
  · exact ifCommand_edits
  · exact whileCommand_edits
  · exact forCommand_edits
  · exact tryCommand_edits
  · exact closer_edits _
  · exact jump_edits _
  · exact (finish_adds b inv).edits b
  · exact (remainingLines_adds inv).edits b
  · exact (lock_adds _ inv).edits b
  · exact (foreignCode_adds inv).edits b
  · exact returnValue_edits b inv
  · exact (highlighting_adds inv).edits b
  · exact (unlet_adds inv).edits b
  · exact (window_adds inv).edits b

theorem leadIn_delivers : (leadIn inv).Delivers (fun _ => True) Cause.Genuine := by
  unfold leadIn
  split
  case h_1 | h_2 =>
    refine .skip fun c => .ite (fun _ => .skip fun second => ?_) fun _ => ?_
    · refine .ite (fun _ => .stop (.fail (by simp) _)) fun _ => ?_
      exact .skip fun _ => .skip fun _ => .pure trivial
    · exact .ite (fun _ => .skip fun _ => .pure trivial) fun _ => .pure trivial
  · refine .ite (fun _ => .pure trivial) fun _ => .skip fun c => ?_
    exact .ite (fun _ => .skip fun _ => .pure trivial) fun _ => .pure trivial
  · exact .skip fun more => .skip fun _ => .pure trivial
  · exact .skip fun more => .skip fun _ => .pure trivial
  · exact .pure trivial

theorem bang_delivers (command : Command) (position : Position) :
    (bang command position).Delivers (fun _ => True) Cause.Genuine := by
  refine .skip fun c => .ite (fun _ => .skip fun _ => ?_) fun _ => .pure trivial
  exact .ite (fun _ => .stop (.fail (by simp) _)) fun _ => .pure trivial

theorem invoked_edits (command : Command) : Edits b (invoked b inv command) := by
  refine (bang_delivers command inv.commandPos).andThen fun bang => ?_
  have rest (inv : Invocation) : Edits b (do
      let inv ← (do if command.has .argopt then fileOptions inv else return inv)
      let inv ← leadIn inv
      let inv ← (do if command.has .editcmd && !inv.filter then startCommand inv else return inv)
      body b inv command.form) := by
    refine .andThen (.ite (fun _ => genuine (fileOptions_delivers inv)) fun _ => .pure trivial) fun inv => ?_
    refine leadIn_delivers.andThen fun inv => .andThen ?_ fun inv => body_edits _
    exact .ite (fun _ => .of_faultless) fun _ => .pure trivial
  exact .ite (fun _ => .skip fun _ => .skip fun position => rest _) fun _ => .skip fun position => rest _

theorem commandPart_delivers (setting : Setting) :
    (commandPart setting inv).Delivers (fun effect => setting.blocks.AdmitsAll effect.edits)
      Cause.Genuine := by
  refine .skip fun _ => .skip fun position => .skip fun c => .ite (fun _ => .ite (fun _ => ?_) fun _ => ?_) fun _ => ?_
  · exact .pure trivial
  · exact (commandUpTo_adds _ _).bind fun edits added => .pure (added setting.blocks)
  · refine .skip fun found => ?_
    split
    · exact .skip fun _ => .skip fun text => .fail (by simp) _
    · exact (invoked_edits _).bind fun edits admitted => .pure admitted

theorem commandLine_delivers (setting : Setting) :
    (commandLine setting).Delivers (fun effect => setting.blocks.AdmitsAll effect.edits) Cause.Genuine := by
  refine .skip fun position => .skip fun modifiers => (genuine range_delivers).andThen fun range => ?_
  refine (commandPart_delivers setting).bind fun effect admitted => ?_
  exact trail_adds.bind fun edits added => .pure (admitted.append (added _))

theorem read_delivers (setting : Setting) :
    (read setting).Delivers (fun effect => setting.blocks.AdmitsAll effect.edits) Cause.Genuine := by
  refine .skip fun ahead => .ite (fun _ => .skip fun _ => .pure trivial) fun _ => .skip fun _ => .skip fun c => ?_
  split
  · exact .skip fun _ => .pure trivial
  · exact comment_adds.bind fun edits added => .skip fun _ => .pure (added _)
  · exact commandLine_delivers setting

end VimScript.Statement
