import VimScript.Proofs.Blocks.Outline
import VimScript.Proofs.Statement.Operands
import VimScript.Proofs.Statement.Text

/-!
Reading one line of the grammar of blocks. What is open decides whether it is taken, and the node it makes is that of
its type.
-/

set_option autoImplicit false

namespace VimScript

/-! ### Names of commands -/

namespace Statement

def editCommand : Command :=
  ⟨"edit", 1, [.bang, .file1, .editcmd, .argopt, .trlbar], .common⟩

def deleteCommand : Command :=
  ⟨"delete", 1, [.range, .wholefold, .regstr, .count, .trlbar, .cmdwin, .modify], .common⟩

def finishCommand : Command :=
  ⟨"finish", 4, [.trlbar, .sboxok, .cmdwin], .finish⟩

/-- The entry of `:let`. -/
def letEntry : Command :=
  ⟨"let", 3, [.extra, .notrlcom, .sboxok, .cmdwin], .assign .letVar⟩

/-- A name that is taken as it stands and stands for the same command in both editors. -/
structure NamesCommand (ws : List Char) (entry : Command) : Prop where
  isName : IsCommandName ws
  lookup : ∀ neovim, Command.lookup neovim ws = some entry

/-- What is typed for commands below, and their entries. -/
def typedEntries : List (String × Command) :=
  [("edit", editCommand), ("d", deleteCommand), ("finish", finishCommand), ("let", letEntry)]

theorem names_of_typed {typed : String} {entry : Command} (listed : (typed, entry) ∈ typedEntries) :
    NamesCommand typed.toList entry := by
  have table : ∀ p ∈ typedEntries, checksName p.1.toList = true ∧
      ∀ neovim, Command.lookup neovim p.1.toList = some p.2 := by
    rw [Command.lookup_eq_byInitial, ← charsOf_eq_toList]
    decide +kernel
  obtain ⟨checks, lookup⟩ := table _ listed
  exact ⟨.of_checks checks, lookup⟩

theorem names_edit : NamesCommand "edit".toList editCommand :=
  names_of_typed (by simp [typedEntries])

theorem names_delete : NamesCommand "d".toList deleteCommand :=
  names_of_typed (by simp [typedEntries])

theorem names_finish : NamesCommand "finish".toList finishCommand :=
  names_of_typed (by simp [typedEntries])

theorem names_let : NamesCommand "let".toList letEntry :=
  names_of_typed (by simp [typedEntries])

end Statement

namespace Line

open Statement (IsCommandName IsPlainCommand)

/-- The name of the command on a line. -/
def name : Line → List Char
  | .opener block => block.opener.toList
  | .closer block => block.closer.toList
  | .elseIf => "elseif".toList
  | .elseBranch => "else".toList
  | .catchBranch => "catch".toList
  | .finallyBranch => "finally".toList
  | .jump verb => verb.name.toList
  | .returnValue => "return".toList
  | .echo => "echo".toList

def argument : Line → List Char
  | .opener .ifBlock | .opener .whileLoop | .elseIf | .echo => ['1']
  | .opener .forLoop => "x in y".toList
  | .opener .function => "F()".toList
  | _ => []

def blanks (line : Line) : List Char :=
  if line.argument.isEmpty then [] else [' ']

def form : Line → CommandForm
  | .opener block => .opener block
  | .closer block => .closer block
  | .elseIf => .elseIf
  | .elseBranch => .elseBranch
  | .catchBranch => .catchBranch
  | .finallyBranch => .finallyBranch
  | .jump verb => .jump verb
  | .returnValue => .returnValue
  | .echo => .echo .echo

theorem name_echo : echo.name = "echo".toList :=
  rfl

/-- What the tables say of each line. -/
theorem forall_checks : ∀ line ∈ all, line.text.toList = line.name ++ (line.blanks ++ line.argument) ∧
    Statement.checksName line.name = true ∧ ∀ neovim, (Command.lookup neovim line.name).any (fun found =>
      found.name != "!" && !found.has .argopt && !found.has .editcmd &&
        !(["write", "update", "read", "<", ">"].contains found.name) && found.form == line.form) = true := by
  rw [Command.lookup_eq_byInitial, ← charsOf_eq_toList]
  decide +kernel

theorem toList_text (line : Line) : line.text.toList = line.name ++ (line.blanks ++ line.argument) :=
  (forall_checks line (mem_all line)).1

theorem isCommandName (line : Line) : IsCommandName line.name :=
  .of_checks (forall_checks line (mem_all line)).2.1

/-- Every line has a command of its own in both editors. -/
theorem exists_lookup (neovim : Bool) (line : Line) :
    ∃ found, Command.lookup neovim line.name = some found ∧ IsPlainCommand found ∧ found.form = line.form := by
  have known := (forall_checks line (mem_all line)).2.2 neovim
  cases lookup : Command.lookup neovim line.name with
  | none => simp [lookup] at known
  | some found =>
    simp only [lookup, Option.any_some, Bool.and_eq_true, Bool.not_eq_true', beq_iff_eq] at known
    obtain ⟨⟨⟨⟨noShell, noOptions⟩, noStart⟩, noLeadIn⟩, form⟩ := known
    exact ⟨found, rfl, ⟨noShell, noOptions, noStart, by simpa using noLeadIn⟩, form⟩

theorem white_blanks (line : Line) : ∀ c ∈ line.blanks, CharClass.white.has c = true := by
  have table : ∀ line ∈ all, line.blanks.all CharClass.white.has = true := by decide
  exact List.all_eq_true.mp (table line (mem_all line))

theorem head?_append_cons {α : Type} (xs ys : List α) (y : α) : (xs ++ y :: ys).head? = some (xs.headD y) := by
  cases xs <;> rfl

/-- No blank, letter or exclamation mark goes on with a part of a line. -/
theorem head_argument (line : Line) (cs : List Char) :
    CharClass.white.hasOpt (line.argument ++ '\n' :: cs).head? = false ∧
      CharClass.alpha.hasOpt (line.blanks ++ (line.argument ++ '\n' :: cs)).head? = false ∧
        (line.blanks ++ (line.argument ++ '\n' :: cs)).head? ≠ some '!' := by
  have table : ∀ line ∈ all, CharClass.white.has (line.argument.headD '\n') = false ∧
      CharClass.alpha.has ((line.blanks ++ line.argument).headD '\n') = false ∧
        (line.blanks ++ line.argument).headD '\n' ≠ '!' := by decide
  obtain ⟨solid, stop, noBang⟩ := table line (mem_all line)
  rw [← List.append_assoc, head?_append_cons, head?_append_cons]
  exact ⟨solid, stop, by simpa using noBang⟩

end Line

namespace Statement

variable {s : Source} {i k : Nat} {cs : List Char} {blocks : Blocks} {inv : Invocation} {line : Line}

/-! ### The bodies of the commands -/

/-- What is left of a line after its command is read comes to an edit with a node of the line's type. -/
def Makes (line : Line) (x : Scan (List Edit)) (s : Source) (k : Nat) (cs : List Char) : Prop :=
  ∃ n j, x s k = .ok [.ofType line.type n] j ∧ n.outline = .node line.type [] ∧ s.ahead j = '\n' :: cs

def Refuses (x : Scan (List Edit)) (inv : Invocation) (s : Source) (k : Nat) : Prop :=
  ∃ cause j, x s k = .fail ⟨cause, inv.commandPos⟩ j

theorem read_one (h : s.ahead k = '1' :: '\n' :: cs) : ∃ n j, Expr.read s k = .ok n j ∧ s.ahead j = '\n' :: cs := by
  have decimal : Token.IsDecimal "1".toList := .whole (by decide) (List.all_eq_true.mp rfl)
  have back : Expr.ReadsBack .one (.leaf .number "1" .unset) := Expr.readsBack_number decimal
  obtain ⟨n, j, read, -, after⟩ := Expr.read_of_readsBack back (by simpa using h)
    ⟨'\n', cs, rfl, .inr rfl⟩
  exact ⟨n, j, read, after⟩

theorem makes_if (h : s.ahead k = '1' :: '\n' :: cs) : Makes (.opener .ifBlock) (ifCommand inv) s k cs := by
  obtain ⟨cond, j, read, after⟩ := read_one h
  refine ⟨.mk inv.commandPos (.ifBlock inv cond [] [] none none), j, ?_, Node.outline_mk _ _, after⟩
  simp only [ifCommand, Scan.bind_of_ok read]
  rfl

theorem makes_while (h : s.ahead k = '1' :: '\n' :: cs) : Makes (.opener .whileLoop) (whileCommand inv) s k cs := by
  obtain ⟨cond, j, read, after⟩ := read_one h
  refine ⟨.mk inv.commandPos (.whileLoop inv cond [] none), j, ?_, Node.outline_mk _ _, after⟩
  simp only [whileCommand, Scan.bind_of_ok read]
  rfl

theorem makes_try (h : s.ahead k = '\n' :: cs) : Makes (.opener .tryBlock) (tryCommand inv) s k cs :=
  ⟨.mk inv.commandPos (.tryBlock inv [] [] none none), k, rfl, Node.outline_mk _ _, h⟩

/-- One expression up to the end of the line. -/
theorem expressions_of_single {c : Char} {rest : List Char} {value : Node} {j : Nat} (h : s.ahead k = c :: rest)
    (solid : CharClass.white.has c = false) (goes : (some c != some '"' && endsCommand (some c)) = false)
    (read : Expr.read s k = .ok value j) (after : s.ahead j = '\n' :: cs) : expressions s k = .ok [value] j := by
  refine Scan.loop_of_again (k := j) [value] ?_ ?_
  · simp only [Scan.bind_of_ok (Scan.skipWhite_of_solid h solid), Scan.bind_of_ok (Scan.peek_of_ahead h),
      List.head?_cons, goes, Bool.false_eq_true, if_false, Scan.bind_of_ok read]
    rfl
  · simp only [Scan.bind_of_ok (Scan.skipWhite_of_solid after rfl), Scan.bind_of_ok (Scan.peek_of_ahead after)]
    rfl

theorem makes_echo (h : s.ahead k = '1' :: '\n' :: cs) : Makes .echo (echo .echo inv) s k cs := by
  obtain ⟨value, j, read, after⟩ := read_one h
  refine ⟨.mk inv.commandPos (.echo .echo inv [value]), j, ?_, Node.outline_mk _ _, after⟩
  simp only [echo, Scan.bind_of_ok (expressions_of_single h rfl rfl read after)]
  rfl

theorem makes_for (h : s.ahead k = "x in y".toList ++ '\n' :: cs) : Makes (.opener .forLoop) (forCommand inv) s k cs := by
  have isName (c : Char) (letter : CharClass.nameStart.has c = true) (word : CharClass.word.has c = true) :
      Token.IsName [c] := ⟨letter, by simpa using word, by simp, by simp⟩
  have x : Token.IsName ['x'] := isName 'x' rfl rfl
  have whole : s.ahead k = ['x'] ++ ' ' :: 'i' :: 'n' :: ' ' :: 'y' :: '\n' :: cs := h
  have afterX : s.ahead (k + 1) = [' '] ++ (['i', 'n'] ++ ' ' :: 'y' :: '\n' :: cs) := Source.ahead_of_append whole
  have atIn : s.ahead (k + 1 + 1) = ['i', 'n'] ++ ' ' :: 'y' :: '\n' :: cs := Source.ahead_of_append afterX
  have afterIn : s.ahead (k + 1 + 1 + 2) = ' ' :: (['y'] ++ '\n' :: cs) := Source.ahead_of_append atIn
  have isIn : Token.IsName ['i', 'n'] := ⟨rfl, List.all_eq_true.mp rfl, by decide, by decide⟩
  have word : Token.Stands s (k + 1) .identifier (' ' :: 'y' :: '\n' :: cs) :=
    .blank afterX ⟨_, _, Token.next_of_name atIn isIn rfl, rfl, afterIn⟩
  have read := Target.read_of_name x whole rfl (by simp) word nofun nofun
  have first := Token.peek_of_next (Token.next_of_name whole x rfl)
  have left : targets target s k = .ok { single := some (.identifier "x" (s.position k)) } (k + 1) := by
    have single : target s k = .ok (.identifier "x" (s.position k)) (k + 1) := by
      simp only [target, Scan.bind_of_ok read]
      rfl
    simp only [targets, Scan.bind_of_ok first]
    exact Scan.bind_of_ok single
  obtain ⟨values, j, readValues, after⟩ := Expr.read_of_blank_name (isName 'y' rfl rfl) afterIn ⟨'\n', cs, rfl, .inr rfl⟩
  refine ⟨.mk inv.commandPos (.forLoop inv (some (.identifier "x" (s.position k))) [] none values [] none), j, ?_,
    Node.outline_mk _ _, after⟩
  have skipped : Scan.skipWhite s (k + 1) = .ok () (k + 1 + 1) := Scan.skipWhite_of_ahead [' '] afterX (List.all_eq_true.mp rfl) rfl
  have taken := Scan.takeClass_of_ahead .alpha atIn (List.all_eq_true.mp rfl) rfl
  have same : (String.ofList ['i', 'n'] != "in") = false := by decide
  simp only [forCommand, Scan.bind_of_ok left]
  rw [Scan.bind_of_ok skipped, Scan.bind_of_ok (Scan.here_apply s _), Scan.bind_of_ok taken]
  simp only [same, Bool.false_eq_true, if_false]
  exact Scan.bind_of_ok readValues

theorem functionParameters_of_close (h : s.ahead k = ')' :: cs) : functionParameters s k = .ok {} (k + 1) := by
  have close : Token.next s k = .ok ⟨.parenClose, ")", s.position k⟩ (k + 1) := Token.next_of_symbol h rfl
  simp only [functionParameters, Scan.bind_of_ok (Token.peek_of_next close), beq_self_eq_true, if_true,
    Scan.bind_of_ok close]
  rfl

theorem functionFlags_of_newline (h : s.ahead k = '\n' :: cs) : functionFlags s k = .ok {} k := by
  have empty : s.ahead k = [] ++ '\n' :: cs := h
  have none := Scan.takeClass_of_ahead .alpha empty (by simp) rfl
  refine Scan.loop_of_done ?_
  simp only [Scan.bind_of_ok (Scan.skipWhite_of_solid h rfl), Scan.bind_of_ok (Scan.here_apply s k),
    Scan.bind_of_ok none]
  rfl

/-- The name `F` and the parenthesis are read, and then the parameters. -/
theorem functionCommand_of_open (inv : Invocation) {rest : List Char} (h : s.ahead k = 'F' :: '(' :: rest) :
    functionCommand inv s k = (do
      let params ← functionParameters
      let flags ← functionFlags
      return [Edit.openBlock (.mk inv.commandPos
        (.function inv (.identifier "F" (s.position k)) params.names params.defaults flags [] none))]) s (k + 2) := by
  have isF : Token.IsName ['F'] := ⟨rfl, List.all_eq_true.mp rfl, by decide, by decide⟩
  have whole : s.ahead k = ['F'] ++ '(' :: rest := h
  have atParen : s.ahead (k + 1) = '(' :: rest := Source.ahead_of_append whole
  have target := Target.read_of_name isF whole rfl (by simp) (.symbol "(" atParen rfl rfl) nofun nofun
  have named : functionName s k = .ok (.identifier "F" (s.position k)) (k + 1) := by
    simp only [functionName, Scan.bind_of_ok target]
    rfl
  have paren : Scan.peekInLine s (k + 1) = .ok (some '(') (k + 1) := Scan.peekInLine_of_ahead atParen
  have taken : Scan.take 1 s (k + 1) = .ok "(" (k + 2) := Scan.take_of_ahead ['('] atParen (by decide)
  have goes : (endsCommand (some 'F') || some 'F' == some '/') = false := rfl
  have kind : (Node.identifier "F" (s.position k)).kind = .leaf .identifier "F" := rfl
  have valid : (!isFunctionName "F") = false := by decide
  simp only [functionCommand, Scan.bind_of_ok (Scan.tell_apply s k), Scan.bind_of_ok (Scan.skipWhite_of_solid whole rfl),
    Scan.bind_of_ok (Scan.peek_of_ahead whole), List.cons_append, List.head?_cons, goes, Bool.false_eq_true, if_false,
    Scan.bind_of_ok named, Scan.bind_of_ok (Scan.skipWhite_of_solid atParen rfl), kind, valid,
    Scan.bind_of_ok paren, bne_self_eq_false]
  exact Scan.bind_of_ok taken

/-- A function `F` with whatever parameters, on a line of its own. -/
theorem functionCommand_of_parameters (inv : Invocation) {params : Parameters} {rest : List Char} {j : Nat}
    (h : s.ahead k = 'F' :: '(' :: rest) (read : functionParameters s (k + 2) = .ok params j)
    (after : s.ahead j = '\n' :: cs) :
    functionCommand inv s k = .ok [.openBlock (.mk inv.commandPos
      (.function inv (.identifier "F" (s.position k)) params.names params.defaults {} [] none))] j := by
  rw [functionCommand_of_open inv h, Scan.bind_of_ok read, Scan.bind_of_ok (functionFlags_of_newline after)]
  rfl

theorem makes_function (h : s.ahead k = "F()".toList ++ '\n' :: cs) :
    Makes (.opener .function) (functionCommand inv) s k cs := by
  have atClose : s.ahead (k + 2) = ')' :: '\n' :: cs := Source.ahead_of_cons (Source.ahead_of_cons h)
  have after : s.ahead (k + 3) = '\n' :: cs := Source.ahead_of_cons atClose
  have read := functionCommand_of_parameters inv h (functionParameters_of_close atClose) after
  exact ⟨_, _, read, Node.outline_mk _ _, after⟩

/-! ### Commands that depend on what is open -/

/-- A command of the grammar is taken or refused by what is open. -/
def Obeys (line : Line) (blocks : Blocks) (inv : Invocation) (s : Source) (k : Nat) (cs : List Char) : Prop :=
  if blocks.frames.admits line.type then Makes line (body blocks inv line.form) s k cs
  else Refuses (body blocks inv line.form) inv s k

/-- The test before a branch is what the grammar asks for. -/
theorem test_branch (t : NodeType) (first other : NodeType) :
    (t != first && t != other) = !(t == first || t == other) := by
  simp [bne]

theorem obeys_of_test (x : Scan (List Edit)) (test : Bool) (same : body blocks inv line.form = x)
    (admits : blocks.frames.admits line.type = test) (makes : test = true → Makes line x s k cs)
    (refuses : test = false → Refuses x inv s k) : Obeys line blocks inv s k cs := by
  unfold Obeys
  rw [same, admits]
  split
  · exact makes ‹_›
  · exact refuses (by simpa using ‹¬test = true›)

theorem admits_if (branch : NodeType) (isBranch : branch = .elseIf ∨ branch = .elseBranch) :
    blocks.frames.admits branch = (blocks.innermost == .ifBlock || blocks.innermost == .elseIf) := by
  rcases isBranch with rfl | rfl <;> simp [Frames.admits, Blocks.innermost_frames]

theorem admits_try (branch : NodeType) (isBranch : branch = .catchBranch ∨ branch = .finallyBranch) :
    blocks.frames.admits branch = (blocks.innermost == .tryBlock || blocks.innermost == .catchBranch) := by
  rcases isBranch with rfl | rfl <;> simp [Frames.admits, Blocks.innermost_frames]

theorem obeys_elseIf (h : s.ahead k = '1' :: '\n' :: cs) : Obeys .elseIf blocks inv s k cs := by
  refine obeys_of_test (elseIf blocks inv) _ rfl (admits_if .elseIf (.inl rfl)) ?_ ?_
  · intro ok
    obtain ⟨cond, j, read, after⟩ := read_one h
    refine ⟨.mk inv.commandPos (.elseIf inv cond []), j, ?_, Node.outline_mk _ _, after⟩
    simp only [elseIf, test_branch, ok]
    exact Scan.bind_of_ok read
  · intro no
    refine ⟨.elseIfWithoutIf, k, ?_⟩
    simp only [elseIf, test_branch, no]
    rfl

theorem obeys_elseBranch (h : s.ahead k = '\n' :: cs) : Obeys .elseBranch blocks inv s k cs := by
  refine obeys_of_test (elseCommand blocks inv) _ rfl (admits_if .elseBranch (.inr rfl)) ?_ ?_
  · intro ok
    refine ⟨.mk inv.commandPos (.elseBranch inv []), k, ?_, Node.outline_mk _ _, h⟩
    simp only [elseCommand, test_branch, ok]
    rfl
  · intro no
    refine ⟨.elseWithoutIf, k, ?_⟩
    simp only [elseCommand, test_branch, no]
    rfl

theorem obeys_finallyBranch (h : s.ahead k = '\n' :: cs) : Obeys .finallyBranch blocks inv s k cs := by
  refine obeys_of_test (finallyCommand blocks inv) _ rfl (admits_try .finallyBranch (.inr rfl)) ?_ ?_
  · intro ok
    refine ⟨.mk inv.commandPos (.finallyBranch inv []), k, ?_, Node.outline_mk _ _, h⟩
    simp only [finallyCommand, test_branch, ok]
    rfl
  · intro no
    refine ⟨.finallyWithoutTry, k, ?_⟩
    simp only [finallyCommand, test_branch, no]
    rfl

/-- A `catch` after the last branch is refused with a cause of its own. -/
theorem obeys_catchBranch (h : s.ahead k = '\n' :: cs) : Obeys .catchBranch blocks inv s k cs := by
  refine obeys_of_test (catchCommand blocks inv) _ rfl (admits_try .catchBranch (.inl rfl)) ?_ ?_
  · intro ok
    have notLast : (blocks.innermost == .finallyBranch) = false := by
      rw [beq_eq_false_iff_ne]
      intro last
      simp [last] at ok
    refine ⟨.mk inv.commandPos (.catchBranch inv none []), k, ?_, Node.outline_mk _ _, h⟩
    simp only [catchCommand, notLast, test_branch, ok, Bool.not_true, Bool.false_eq_true, if_false,
      Scan.bind_of_ok (Scan.skipWhite_of_solid h rfl), Scan.bind_of_ok (Scan.peek_of_ahead h)]
    rfl
  · intro no
    by_cases last : (blocks.innermost == .finallyBranch) = true
    · refine ⟨.catchAfterFinally, k, ?_⟩
      simp only [catchCommand, last]
      rfl
    · refine ⟨.catchWithoutTry, k, ?_⟩
      simp only [catchCommand, last, test_branch, no]
      rfl

/-- The end of a function asks for other open blocks before it asks for its own. -/
theorem obeys_closer (sort : BlockSort) (h : s.ahead k = '\n' :: cs) : Obeys (.closer sort) blocks inv s k cs := by
  have admits : blocks.frames.admits (Line.closer sort).type = (blocks.innermost.block? == some sort) := by
    simp [Frames.admits, Line.type, Blocks.innermost_frames]
  refine obeys_of_test (closer blocks sort inv) _ rfl admits ?_ ?_
  · intro ok
    have inside : blocks.innermost.block? = some sort := eq_of_beq ok
    refine ⟨.mk inv.commandPos (.closer sort inv), k, ?_, Node.outline_mk _ _, h⟩
    have test : (blocks.innermost.block? != some sort) = false := by simp [inside]
    by_cases function : sort = .function
    · subst function
      have none : blocks.missing? .function = none := by simp [Blocks.missing?, inside]
      have empty : s.ahead k = [] ++ '\n' :: cs := h
      have line := Scan.takeWhile_of_ahead (fun _ => true) empty (by simp) (by simp)
      simp only [closer, beq_self_eq_true, if_true, none, test]
      exact Scan.bind_of_ok line
    · have other : (sort == .function) = false := by simpa using function
      simp only [closer, other, test]
      rfl
  · intro no
    have test : (blocks.innermost.block? != some sort) = true := by simpa [bne] using no
    by_cases function : sort = .function
    · subst function
      cases missing : blocks.missing? .function with
      | some sort =>
        refine ⟨.missingCloser sort .function, k, ?_⟩
        simp only [closer, beq_self_eq_true, if_true, missing]
        rfl
      | none =>
        refine ⟨.closerWithoutOpener .function, k, ?_⟩
        simp only [closer, beq_self_eq_true, if_true, missing, test]
        rfl
    · have other : (sort == .function) = false := by simpa using function
      refine ⟨.closerWithoutOpener sort, k, ?_⟩
      simp only [closer, other, test]
      rfl

theorem obeys_jump (verb : Jump) (h : s.ahead k = '\n' :: cs) : Obeys (.jump verb) blocks inv s k cs := by
  have admits : blocks.frames.admits (Line.jump verb).type = blocks.insideLoop := by
    simp [Frames.admits, Line.type, Blocks.scope_frames]
  refine obeys_of_test (jump blocks verb inv) _ rfl admits ?_ ?_
  · intro ok
    refine ⟨.mk inv.commandPos (.jump verb inv), k, ?_, Node.outline_mk _ _, h⟩
    simp only [jump, ok]
    rfl
  · intro no
    cases verb with
    | leave =>
      refine ⟨.breakOutsideLoop, k, ?_⟩
      simp only [jump, no]
      rfl
    | restart =>
      refine ⟨.continueOutsideLoop, k, ?_⟩
      simp only [jump, no]
      rfl

theorem obeys_returnValue (h : s.ahead k = '\n' :: cs) : Obeys .returnValue blocks inv s k cs := by
  have admits : blocks.frames.admits Line.returnValue.type = blocks.insideFunction := by
    simp [Frames.admits, Line.type, Blocks.scope_frames]
  refine obeys_of_test (returnValue blocks inv) _ rfl admits ?_ ?_
  · intro ok
    refine ⟨.mk inv.commandPos (.returnValue inv none), k, ?_, Node.outline_mk _ _, h⟩
    simp only [returnValue, ok, Bool.not_true, Bool.false_eq_true, if_false,
      Scan.bind_of_ok (Scan.skipWhite_of_solid h rfl), Scan.bind_of_ok (Scan.peek_of_ahead h)]
    rfl
  · intro no
    refine ⟨.returnOutsideFunction, k, ?_⟩
    simp only [returnValue, no]
    rfl

theorem obeys_of_makes (always : blocks.frames.admits line.type = true)
    (makes : Makes line (body blocks inv line.form) s k cs) : Obeys line blocks inv s k cs := by
  simpa [Obeys, always] using makes

theorem obeys (line : Line) (h : s.ahead k = line.argument ++ '\n' :: cs) : Obeys line blocks inv s k cs := by
  cases line with
  | opener block =>
    cases block with
    | function => exact obeys_of_makes rfl (makes_function h)
    | ifBlock => exact obeys_of_makes rfl (makes_if h)
    | whileLoop => exact obeys_of_makes rfl (makes_while h)
    | forLoop => exact obeys_of_makes rfl (makes_for h)
    | tryBlock => exact obeys_of_makes rfl (makes_try h)
  | closer block => exact obeys_closer block h
  | elseIf => exact obeys_elseIf h
  | elseBranch => exact obeys_elseBranch h
  | catchBranch => exact obeys_catchBranch h
  | finallyBranch => exact obeys_finallyBranch h
  | jump verb => exact obeys_jump verb h
  | returnValue => exact obeys_returnValue h
  | echo => exact obeys_of_makes rfl (makes_echo h)

/-! ### Whole lines -/

/-- A line is taken, with one edit, if the grammar admits it where it stands, and otherwise refused at its start. -/
theorem read_line (neovim : Bool) (known : UserNames) (blocks : Blocks) (line : Line)
    (h : s.ahead i = line.text.toList ++ '\n' :: cs) :
    if blocks.frames.admits line.type then
      ∃ n, read ⟨neovim, known, blocks⟩ s i =
        .ok ⟨[.ofType line.type n], known⟩ (i + (line.text.toList ++ ['\n']).length) ∧ n.outline = .node line.type []
    else ∃ cause j, read ⟨neovim, known, blocks⟩ s i = .fail ⟨cause, s.position i⟩ j := by
  obtain ⟨found, lookup, plain, form⟩ := line.exists_lookup neovim
  obtain ⟨solid, stop, noBang⟩ := line.head_argument cs
  have whole : s.ahead i = line.name ++ (line.blanks ++ (line.argument ++ '\n' :: cs)) := by
    rw [h, line.toList_text]
    simp
  have result := read_of_name ⟨neovim, known, blocks⟩ line.isCommandName plain lookup line.blanks line.white_blanks
    solid stop noBang whole
  rw [form] at result
  have atArgument : s.ahead (i + line.name.length + line.blanks.length) = line.argument ++ '\n' :: cs :=
    Source.ahead_of_append (Source.ahead_of_append whole)
  have made : Obeys line blocks (plainInvocation s i (i + line.name.length + line.blanks.length) found) s
      (i + line.name.length + line.blanks.length) cs := obeys line atArgument
  unfold Obeys at made
  split
  · rename_i ok
    rw [if_pos ok] at made
    obtain ⟨n, j, body, outline, after⟩ := made
    have last : i + (line.text.toList ++ ['\n']).length = j + 1 := by
      have before := Source.length_ahead s i
      have behind := Source.length_ahead s j
      rw [h] at before
      rw [after] at behind
      simp only [List.length_append, List.length_cons, List.length_nil] at before behind ⊢
      omega
    refine ⟨n, ?_, outline⟩
    rw [result, Scan.bind_of_ok body, Scan.bind_of_ok (trail_of_stop (.inl rfl) after), last]
    rfl
  · rename_i no
    rw [if_neg no] at made
    obtain ⟨cause, j, body⟩ := made
    refine ⟨cause, j, ?_⟩
    rw [result, Scan.bind_apply, body]
    rfl

end Statement

end VimScript
