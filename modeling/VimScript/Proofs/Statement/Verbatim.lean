import VimScript.Proofs.Blocks.Labels
import VimScript.Proofs.Expr.Verbatim
import VimScript.Proofs.Statement.Reads
import VimScript.Proofs.Statement.Text

/-!
What a statement hands over is verbatim. The text of a command is cut out of the buffer, or put together from whole
lines that stand there one after another; the highlighting that is echoed starts where the argument does, because no
option of the command line is taken before it.
-/

set_option autoImplicit false

namespace VimScript.Statement

open Scan Node Source

variable {s : Source} {i : Nat} {setting : Setting} {blocks : Blocks} {inv : Invocation} {edits : List Edit}
  {lines : List String} {token : Token} {command : Command}

/-- The nodes that are handed over are verbatim. -/
def Records (s : Source) (edits : List Edit) : Prop :=
  ∀ e ∈ edits, e.node.Verbatim s

/-- What a scan hands over is verbatim. -/
abbrev WritesRecords (x : Scan (List Edit)) (s : Source) (i : Nat) : Prop :=
  x.Gives s i fun edits _ => Records s edits

theorem Records.nil : Records s [] := by
  simp [Records]

theorem Records.single {e : Edit} (h : e.node.Verbatim s) : Records s [e] := by
  simpa [Records] using h

theorem Records.append {more : List Edit} (first : Records s edits) (second : Records s more) :
    Records s (edits ++ more) := by
  simpa [Records, or_imp, forall_and] using ⟨first, second⟩

/-! ### Comments -/

theorem comment_records : WritesRecords comment s i := by
  refine .after (here_apply s i) (.after (skip_apply 1 s i) ((gives_takeLine s (i + 1)).bind ?_))
  rintro text j ⟨-, whole⟩
  exact .pure (.single (.mk whole .nil))

theorem trail_records : WritesRecords trail s i := by
  refine .step fun _ j _ => .step fun c k _ => ?_
  split
  · exact .pure .nil
  · exact .step fun _ _ _ => .pure .nil
  · exact .step fun _ _ _ => .pure .nil
  · exact comment_records.bind fun _ _ known => .step fun _ _ _ => .pure known
  · exact .failHere

/-! ### Commands with a text -/

theorem verbatim_command {text : String} (shows : s.Shows inv.linePos.cursor text) :
    (Node.command inv text).Verbatim s :=
  .mk shows .nil

theorem commandUpTo_records (stop : Nat) : WritesRecords (commandUpTo inv stop) s i :=
  .after (a := s.text inv.linePos.cursor stop) (j := i) rfl (.pure (.single (verbatim_command (s.shows_text _ stop))))

theorem raw_records : WritesRecords (raw inv) s i := by
  refine .step fun stop _ _ => .ite (fun _ => .step fun _ _ _ => ?_) fun _ => commandUpTo_records stop
  exact .ite (fun _ => .stop .fail) fun _ => commandUpTo_records stop

theorem finish_records : WritesRecords (finish blocks inv) s i :=
  raw_records.bind fun _ _ known => .ite (fun _ => .step fun _ _ _ => .pure known) fun _ => .pure known

theorem window_records : WritesRecords (window inv) s i := by
  have rest (j : Nat) : WritesRecords (do
      let stop ← Scan.tell
      Scan.skipWhite
      if !endsCommand (← Scan.peek) then
        Scan.failHere .invalidArgument
      commandUpTo inv stop) s j := by
    refine .step fun stop _ _ => .step fun _ _ _ => .step fun _ _ _ => ?_
    exact .ite (fun _ => .stop .failHere) fun _ => commandUpTo_records stop
  refine .step fun _ _ _ => .ite (fun _ => .stop .failHere) fun _ => .step fun _ j _ => ?_
  refine .ite (fun _ => .step fun _ _ _ => .step fun _ k _ => ?_) fun _ => rest j
  exact .ite (fun _ => .stop .failHere) fun _ => rest k

theorem commandLines_records (shows : s.Shows inv.linePos.cursor ("\n".intercalate lines)) :
    Records s (commandLines inv lines) :=
  .single (verbatim_command shows)

theorem linesUpTo_shows {start : Nat} (marker : String) (read : LinesRead s start lines i) :
    (linesUpTo marker lines).Gives s i fun found _ => s.Shows start ("\n".intercalate found) := by
  refine .loop (fun found j => LinesRead s start found j) read fun found j read => .step fun c j' peeked => ?_
  obtain rfl : j = j' := (Reply.ok.inj peeked).2
  refine .ite (fun _ => .pure read.shows) fun some => (gives_takeLine s j).bind ?_
  rintro line k ⟨spans, whole⟩
  have more := (ahead_ne_nil_of_peek peeked some).2
  refine .ite (fun _ => .pure (read.spans_concat more spans).shows) fun _ => ?_
  exact (read.gives_next more spans whole).bind fun _ _ read => .pure read

theorem textLines_records : WritesRecords (textLines inv) s i :=
  .after (seek_apply _ s i) ((gives_readLine s _).bind fun _ _ read =>
    (linesUpTo_shows "." read).bind fun _ _ shows => .pure (commandLines_records shows))

theorem remainingLines_records : WritesRecords (remainingLines inv) s i := by
  refine .after (seek_apply _ s i) ((gives_readLine s _).bind fun first j read => ?_)
  refine .bind (q := fun found _ => s.Shows inv.linePos.cursor ("\n".intercalate found)) ?_
    fun _ _ shows => .pure (commandLines_records shows)
  refine .loop (fun found j => LinesRead s inv.linePos.cursor found j) read fun found j read => ?_
  refine .step fun c j' peeked => ?_
  obtain rfl : j = j' := (Reply.ok.inj peeked).2
  refine .ite (fun _ => .pure read.shows) fun some => ?_
  exact (read.gives_readLine (ahead_ne_nil_of_peek peeked some).2).bind fun _ _ read => .pure read

theorem foreignCode_records : WritesRecords (foreignCode inv) s i := by
  refine .step fun _ _ _ => .step fun _ _ _ => .ite (fun _ => ?_) fun _ => ?_
  · refine .step fun _ _ _ => .step fun _ _ _ => .step fun word j _ => .after (seek_apply _ s j) ?_
    refine (gives_readLine s _).bind fun _ _ read => ?_
    exact (linesUpTo_shows _ read).bind fun _ _ shows => .pure (commandLines_records shows)
  · refine .step fun _ j seeks => (gives_takeLine s j).bind ?_
    obtain ⟨-, rfl⟩ := Reply.ok.inj seeks
    rintro line k ⟨-, whole⟩
    exact .pure (commandLines_records (by simpa using whole.shows))

/-! ### Operands -/

theorem heredoc_verbatim : (heredoc inv).Gives s i fun found _ => found.1.Verbatim s ∧ Records s found.2 := by
  refine .step fun _ j _ => .ite (fun _ => .stop .failHere) fun _ => trail_records.bind fun edits _ known => ?_
  exact .step fun _ _ _ => .pure ⟨.mk trivial .nil, known⟩

theorem reads_verbatim (s : Source) : Reads (Node.Verbatim s) s where
  expression := Expr.read_verbatim s
  target := Target.read_verbatim s
  parameter i token j run known := by
    refine .leaf (Token.shown_of_next run ?_)
    rcases known with word | dots
    · rw [word]; rfl
    · rw [dots]; rfl
  heredoc inv i := heredoc_verbatim.mono fun _ _ known => known.1

/-! ### Assignments -/

theorem verbatim_assignment {left : Targets Node} {value : Node} (verb : AssignVerb) (op : String)
    (targets : TargetsIn (Node.Verbatim s) left) (verbatim : value.Verbatim s) :
    (assignment verb inv op left value).node.Verbatim s := by
  refine .mk trivial ?_
  simpa [AllVerbatim, Kind.children, or_imp, forall_and] using
    ⟨fun n place => targets.1 n place, targets.2.1, fun n place => targets.2.2 n place, verbatim⟩

theorem value_records {left : Targets Node} (verb : AssignVerb) (n : Nat) (op : String)
    (targets : TargetsIn (Node.Verbatim s) left) (i : Nat) : WritesRecords (do
      let _ ← Scan.take n
      let value ← Expr.read
      return [assignment verb inv op left value]) s i :=
  .step fun _ k _ => (Expr.read_verbatim s k).bind fun _ _ verbatim =>
    .pure (.single (verbatim_assignment verb op targets verbatim))

theorem letCommand_records : WritesRecords (letCommand inv) s i := by
  have reads := reads_verbatim s
  have listed (k : Nat) : WritesRecords (do Scan.seek i; raw inv) s k := .step fun _ _ _ => raw_records
  refine .after (tell_apply s i) (.step fun _ _ _ => .step fun _ k _ => .ite (fun _ => listed k) fun _ => ?_)
  refine (targets_give reads fun _ => target_gives reads).bind fun left _ targets => ?_
  refine .step fun _ _ _ => .step fun short _ _ => .step fun long k _ => ?_
  refine .ite (fun _ => value_records _ _ _ targets k) fun _ => .ite (fun _ => ?_) fun _ => ?_
  · refine .step fun _ _ _ => .step fun _ _ _ => heredoc_verbatim.bind ?_
    rintro ⟨value, edits⟩ _ ⟨verbatim, known⟩
    exact .pure (known.append (.single (verbatim_assignment _ _ targets verbatim)))
  · exact .ite (fun _ => value_records _ _ _ targets k) fun _ => listed k

theorem constCommand_records : WritesRecords (constCommand inv) s i := by
  have reads := reads_verbatim s
  have listed (k : Nat) : WritesRecords (do Scan.seek i; raw inv) s k := .step fun _ _ _ => raw_records
  refine .after (tell_apply s i) (.step fun _ _ _ => .step fun _ k _ => .ite (fun _ => listed k) fun _ => ?_)
  refine (targets_give reads fun _ => constantTarget_gives reads).bind fun left _ targets => ?_
  refine .step fun _ _ _ => .step fun _ k _ => ?_
  exact .ite (fun _ => value_records _ _ _ targets k) fun _ => listed k

theorem lock_records (verb : LockVerb) : WritesRecords (lock verb inv) s i :=
  .step fun _ _ _ => .step fun _ _ _ => (variableList_gives (reads_verbatim s)).bind fun _ _ all =>
    .pure (.single (.mk trivial all))

/-! ### Evaluation -/

theorem operand_records {value : Node} (verb : OperandVerb) (verbatim : value.Verbatim s) :
    Records s (operand verb inv value) :=
  .single (.mk trivial (.single verbatim))

theorem call_records : WritesRecords (call inv) s i := by
  refine .step fun _ _ _ => .step fun _ k _ => .ite (fun _ => .stop .failHere) fun _ => ?_
  refine (Expr.read_verbatim s k).bind fun value _ verbatim => ?_
  exact .ite (fun _ => .stop .fail) fun _ => .pure (operand_records _ verbatim)

theorem returnValue_records : WritesRecords (returnValue blocks inv) s i := by
  refine .ite (fun _ => .stop .fail) fun _ => .step fun _ _ _ => .step fun _ k _ => ?_
  refine .bind (q := fun found _ => ∀ n ∈ found, n.Verbatim s) ?_ fun found _ known => .pure (.single (.mk trivial ?_))
  · refine .ite (fun _ => .map ((Expr.read_verbatim s k).mono fun n _ verbatim => ?_)) fun _ => .pure (by simp)
    rintro _ ⟨⟩
    exact verbatim
  · simpa [AllVerbatim, Kind.children] using known

/-- The text starts where the argument does. -/
theorem echoHighlight_records (place : inv.argumentPos.cursor = i) : WritesRecords (echoHighlight inv) s i := by
  refine .step fun text _ run => .pure (.single (.mk ?_ .nil))
  rw [ShowsText, place]
  exact shows_of_takeWhile run

/-! ### Blocks -/

theorem condition_records {e : Node → Edit} (made : ∀ cond, cond.Verbatim s → (e cond).node.Verbatim s) :
    WritesRecords (do
      let cond ← Expr.read
      return [e cond]) s i :=
  (Expr.read_verbatim s i).bind fun cond _ verbatim => .pure (.single (made cond verbatim))

theorem forCommand_records : WritesRecords (forCommand inv) s i := by
  have reads := reads_verbatim s
  refine (targets_give reads fun _ => target_gives reads).bind fun left _ targets => ?_
  refine .step fun _ _ _ => .step fun _ _ _ => .step fun _ k _ => .ite (fun _ => .stop .fail) fun _ => ?_
  refine (Expr.read_verbatim s k).bind fun values _ verbatim => .pure (.single (.mk trivial ?_))
  simpa [AllVerbatim, Kind.children, or_imp, forall_and] using
    ⟨fun n place => targets.1 n place, targets.2.1, fun n place => targets.2.2 n place, verbatim⟩

theorem catchCommand_records : WritesRecords (catchCommand blocks inv) s i := by
  refine .ite (fun _ => .stop .fail) fun _ => .ite (fun _ => .stop .fail) fun _ => ?_
  refine .step fun _ _ _ => .step fun _ _ _ => .step fun _ _ _ => .pure (.single (.mk trivial .nil))

theorem closer_records (block : BlockSort) : WritesRecords (closer blocks block inv) s i := by
  have verbatim : (Node.mk inv.commandPos (.closer block inv)).Verbatim s :=
    .mk trivial .nil
  have close : WritesRecords (do
      if blocks.innermost.block? != some block then
        Scan.fail (.closerWithoutOpener block) inv.commandPos
      if block == .function then
        let _ ← Scan.takeLine
      return [.closeBlock (.mk inv.commandPos (.closer block inv))]) s i := by
    refine .ite (fun _ => .stop .fail) fun _ => .ite (fun _ => .step fun _ _ _ => ?_) fun _ => ?_
    · exact .pure (.single verbatim)
    · exact .pure (.single verbatim)
  refine .ite (fun _ => ?_) fun _ => close
  split
  · exact .stop .fail
  · exact close

theorem jump_records (verb : Jump) : WritesRecords (jump blocks verb inv) s i := by
  refine .ite (fun _ => ?_) fun _ => .pure (.single (.mk trivial .nil))
  cases verb
  · exact .stop .fail
  · exact .stop .fail

theorem functionCommand_records : WritesRecords (functionCommand inv) s i := by
  have reads := reads_verbatim s
  have listed (k : Nat) : WritesRecords (do Scan.seek i; raw inv) s k := .step fun _ _ _ => raw_records
  refine .after (tell_apply s i) (.step fun _ _ _ => .step fun _ k _ => .ite (fun _ => listed k) fun _ => ?_)
  refine (functionName_gives reads).bind fun name _ verbatim => .step fun _ j _ => ?_
  have rest (j : Nat) : WritesRecords (do
      if (← Scan.peekInLine) != some '(' then
        Scan.seek i
        raw inv
      else
        let _ ← Scan.take 1
        let params ← functionParameters
        let flags ← functionFlags
        return [.openBlock (.mk inv.commandPos
          (.function inv name params.names params.defaults flags [] none))]) s j := by
    refine .step fun _ k _ => .ite (fun _ => listed k) fun _ => .step fun _ _ _ => ?_
    refine (functionParameters_give reads).bind fun params _ known => .step fun _ _ _ => ?_
    refine .pure (.single (.mk trivial ?_))
    simpa [AllVerbatim, Kind.children, or_imp, forall_and] using ⟨verbatim, known.1, known.2⟩
  dsimp only
  split
  · exact .ite (fun _ => .stop .fail) fun _ => rest j
  · exact rest j

/-! ### The command of a line -/

theorem body_records (form : CommandForm) (argument : form = .echoHl → inv.argumentPos.cursor = i) :
    WritesRecords (body blocks inv form) s i := by
  cases form with
  | append => exact textLines_records
  | insert => exact textLines_records
  | loadKeymap => exact remainingLines_records
  | finish => exact finish_records
  | foreign language => exact foreignCode_records
  | call => exact call_records
  | delFunction =>
    exact (functionName_gives (reads_verbatim s)).bind fun _ _ verbatim => .pure (operand_records _ verbatim)
  | eval => exact (Expr.read_verbatim s i).bind fun _ _ verbatim => .pure (operand_records _ verbatim)
  | throw => exact (Expr.read_verbatim s i).bind fun _ _ verbatim => .pure (operand_records _ verbatim)
  | catchBranch => exact catchCommand_records
  | elseBranch => exact .ite (fun _ => .stop .fail) fun _ => .pure (.single (.mk trivial .nil))
  | elseIf =>
    exact .ite (fun _ => .stop .fail) fun _ => condition_records fun _ verbatim => .mk trivial (.single verbatim)
  | finallyBranch => exact .ite (fun _ => .stop .fail) fun _ => .pure (.single (.mk trivial .nil))
  | common => exact raw_records
  | userCommand => exact raw_records
  | assign verb =>
    cases verb with
    | letVar => exact letCommand_records
    | const => exact constCommand_records
  | echo verb => exact (expressions_give (reads_verbatim s)).bind fun _ _ all => .pure (.single (.mk trivial all))
  | echoHl => exact echoHighlight_records (argument rfl)
  | opener block =>
    cases block with
    | function => exact functionCommand_records
    | ifBlock => exact condition_records fun _ verbatim => .mk trivial (.single verbatim)
    | whileLoop => exact condition_records fun _ verbatim => .mk trivial (.single verbatim)
    | forLoop => exact forCommand_records
    | tryBlock => exact .pure (.single (.mk trivial .nil))
  | closer block => exact closer_records block
  | jump verb => exact jump_records verb
  | lock verb => exact lock_records verb
  | returnValue => exact returnValue_records
  | highlighting => exact .step fun stop _ _ => commandUpTo_records stop
  | unlet => exact (variableList_gives (reads_verbatim s)).bind fun _ _ all => .pure (.single (.mk trivial all))
  | window => exact window_records

/-- Before an argument of `:echohl` or `:let` nothing is taken. -/
def PlainArgument (command : Command) : Prop :=
  command.form = .echoHl ∨ command.form = .assign .letVar → IsPlainCommand command

theorem invoked_records (plain : PlainArgument command) : WritesRecords (invoked blocks inv command) s i := by
  have rest {inv : Invocation} {i : Nat} (place : inv.argumentPos.cursor = i) (same : inv.command = some command) :
      WritesRecords (do
        let inv ← (do if command.has .argopt then fileOptions inv else return inv)
        let inv ← leadIn inv
        let inv ← (do if command.has .editcmd && !inv.filter then startCommand inv else return inv)
        body blocks inv command.form) s i := by
    by_cases highlight : command.form = .echoHl
    · have plain := plain (.inl highlight)
      simp only [plain.noOptions, plain.noStart, Bool.false_and, Bool.false_eq_true, if_false, pure_bind]
      exact .after (leadIn_of_plain inv plain same) (body_records _ fun _ => place)
    · refine .step fun _ _ _ => .step fun _ _ _ => .step fun _ _ _ => body_records _ fun same => absurd same highlight
  refine .step fun bang j _ => ?_
  refine .ite (fun _ => .step fun _ k _ => .after (here_apply s k) (rest rfl rfl)) fun _ => ?_
  exact .after (here_apply s j) (rest rfl rfl)

theorem plainArgument_of_listed (listed : command ∈ Command.builtin ++ Command.neovimAdded) :
    PlainArgument command := by
  have table : ∀ command ∈ Command.builtin ++ Command.neovimAdded,
      command.form = .echoHl ∨ command.form = .assign .letVar →
        (command.name != "!") = true ∧ command.has .argopt = false ∧ command.has .editcmd = false ∧
          command.name ∉ ["write", "update", "read", "<", ">"] := by
    decide +kernel
  intro form
  obtain ⟨noShell, noOptions, noStart, noLeadIn⟩ := table command listed form
  exact ⟨noShell, noOptions, noStart, noLeadIn⟩

/-- A name that stands for a command of the tables is an accepted abbreviation of it. -/
theorem listed_of_lookup {neovim : Bool} {typed : List Char} (found : Command.lookup neovim typed = some command) :
    command ∈ Command.builtin ++ Command.neovimAdded ∧ command.accepts typed = true := by
  have listed {commands : List Command} (found : commands.find? (·.accepts typed) = some command) :
      command ∈ commands ∧ command.accepts typed = true := by
    have accepted := List.find?_some found
    exact ⟨List.mem_of_find?_eq_some found, accepted⟩
  rw [List.mem_append]
  simp only [Command.lookup] at found
  split at found
  · split at found
    · cases found
    · rcases Option.or_eq_some_iff.mp found with added | ⟨-, shared⟩
      · exact (listed added).imp_left .inr
      · exact (listed shared).imp_left .inl
  · exact (listed found).imp_left .inl

/-- A name stands for a command of the tables, or for one that a user defined. -/
theorem command_listed (neovim : Bool) (known : UserNames) :
    (Statement.command neovim known).Gives s i fun found _ =>
      ∀ command ∈ found.1, command ∈ Command.builtin ++ Command.neovimAdded ∨ ∃ name, command = .user name := by
  have user (name : String) : ∀ command ∈ some (Command.user name),
      command ∈ Command.builtin ++ Command.neovimAdded ∨ ∃ name, command = .user name := by
    rintro _ ⟨⟩
    exact .inr ⟨name, rfl⟩
  refine .step fun typed _ _ => .ite (fun _ => .pure (by simp)) fun _ => ?_
  refine .ite (fun _ => .ite (fun _ => ?_) fun _ => ?_) fun _ => ?_
  · exact .pure (user typed)
  · exact .step fun digits _ _ => .pure (user _)
  · exact .pure fun command found => .inl (listed_of_lookup found).1

theorem plainArgument_of_known (known : command ∈ Command.builtin ++ Command.neovimAdded ∨ ∃ name, command = .user name) :
    PlainArgument command := by
  rcases known with table | ⟨name, rfl⟩
  · exact plainArgument_of_listed table
  · exact fun form => by rcases form with form | form <;> cases form

theorem command_plainArgument (neovim : Bool) (known : UserNames) :
    (Statement.command neovim known).Gives s i fun found _ => ∀ command ∈ found.1, PlainArgument command :=
  (command_listed neovim known).mono fun _ _ listed command same => plainArgument_of_known (listed command same)

/-! ### The line -/

theorem commandPart_records : (commandPart setting inv).Gives s i fun effect _ => Records s effect.edits := by
  refine .step fun _ _ _ => .step fun _ _ _ => .step fun c _ _ => .ite (fun _ => ?_) fun _ => ?_
  · refine .ite (fun _ => .pure .nil) fun _ => (commandUpTo_records _).bind fun _ _ known => .pure known
  · refine (command_plainArgument setting.neovim setting.known).bind ?_
    rintro ⟨_ | command, names⟩ j plain
    · exact .step fun _ _ _ => .step fun _ _ _ => .fail
    · exact (invoked_records (plain command rfl)).bind fun _ _ known => .pure known

/-- All that a statement hands over is verbatim. -/
theorem read_records : (read setting).Gives s i fun effect _ => Records s effect.edits := by
  refine .step fun _ _ _ => .ite (fun _ => .step fun _ _ _ => .pure .nil) fun _ => ?_
  refine .step fun _ _ _ => .step fun _ j _ => ?_
  split
  · exact .step fun _ _ _ => .pure .nil
  · exact comment_records.bind fun _ _ known => .step fun _ _ _ => .pure known
  · refine .step fun _ _ _ => .step fun _ _ _ => .step fun _ _ _ => commandPart_records.bind fun _ _ known => ?_
    exact trail_records.bind fun _ _ more => .pure (known.append more)

end VimScript.Statement
