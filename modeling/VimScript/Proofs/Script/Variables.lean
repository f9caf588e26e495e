import VimScript.Proofs.Script.Initials
import VimScript.Proofs.Script.Modified
import VimScript.Proofs.Statement.Variables

/-!
A valid name is a name everywhere: in an expression, as a target, as a parameter of a lambda and as one of a function.
Only the words of the identity tests are names in an expression alone.
-/

set_option autoImplicit false

namespace VimScript

namespace Statement

theorem isPlainCommand_let : IsPlainCommand letEntry where
  noShell := by decide
  noOptions := by decide
  noStart := by decide
  noLeadIn := by decide

end Statement

namespace Reply

variable {α : Type}

def fails : Reply α → Bool
  | .fail _ _ => true
  | _ => false

theorem exists_of_fails {r : Reply α} (h : r.fails = true) : ∃ fault j, r = .fail fault j := by
  cases r with
  | fail fault j => exact ⟨fault, j, rfl⟩
  | ok | spent => simp [fails] at h

end Reply

namespace Script

open Statement (IsCommandName IsPlainCommand plainInvocation)

variable {neovim : Bool} {s : Source} {v : String} {i j : Nat}

/-- Lines that are read as one statement with a given property. -/
def ReadsAs (neovim : Bool) (lines : List String) (known : Kind Node → Prop) : Prop :=
  ∃ root j n, ofLines neovim lines = .ok root j ∧ root.type = .script ∧ root.children = [n] ∧ known n.kind

/-- What a command makes of its argument on the last line. -/
def Makes (found : Command) (argument : List Char) (known : Kind Node → Prop) : Prop :=
  ∀ {blocks : Blocks} {inv : Invocation} {s : Source} {k : Nat}, s.ahead k = argument ++ ['\n'] →
    ∃ n j, Statement.body blocks inv found.form s k = .ok [.add n] j ∧ s.ahead j = ['\n'] ∧ known n.kind

theorem readsAs_of_makes {line : String} {ws argument : List Char} {found : Command} {known : Kind Node → Prop}
    (name : IsCommandName ws) (plain : IsPlainCommand found) (lookup : Command.lookup neovim ws = some found)
    (text : line.toList = ws ++ ' ' :: argument) (solid : CharClass.white.hasOpt (argument ++ ['\n']).head? = false)
    (makes : Makes found argument known) : ReadsAs neovim [line] known := by
  have whole : (Source.ofLines [line]).ahead 0 = ws ++ ' ' :: (argument ++ ['\n']) := by
    rw [Expr.ahead_ofLines, text, List.append_assoc]
    rfl
  obtain ⟨n, j, body, after, holds⟩ := makes (Source.ahead_of_cons (Source.ahead_of_append whole))
  have read := Statement.read_of_body ⟨neovim, [], .start ((Source.ofLines [line]).position 0)⟩ name plain lookup whole
    solid body after
  have more := Source.lt_size_of_cons after
  have last := Source.length_ahead (Source.ofLines [line]) j
  rw [after, List.length_singleton] at last
  exact ⟨_, _, n, read_of_single (by omega) (by omega) read, rfl, rfl, holds⟩

theorem front_of_name (name : isArgumentName v = true) (cs : List Char) :
    ∃ c tail, v.toList ++ cs = c :: tail ∧ CharClass.white.has c = false ∧
      (some c != some '"' && endsCommand (some c)) = false := by
  obtain ⟨head, -⟩ := Token.isArgumentName_iff.mp name
  cases written : v.toList with
  | nil => simp [written] at head
  | cons c tail =>
    have letter : CharClass.nameStart.has c = true := by simpa [written] using head
    obtain ⟨solid, goes⟩ := CharClass.forall_of_table
      (p := fun c => CharClass.white.has c = false ∧ (some c != some '"' && endsCommand (some c)) = false) (by decide) letter
    exact ⟨c, tail ++ cs, rfl, solid, goes⟩

theorem solid_of_name (name : isArgumentName v = true) (cs : List Char) :
    CharClass.white.hasOpt (v.toList ++ cs).head? = false := by
  obtain ⟨c, tail, written, solid, -⟩ := front_of_name name cs
  rw [written]
  exact solid

theorem makes_echo_name {found : Command} (form : found.form = .echo .echo) (name : isArgumentName v = true) :
    Makes found v.toList fun kind => ∃ inv p, kind = .echo .echo inv [.identifier v p] := by
  intro blocks inv s k h
  have read := Expr.read_of_variable name h
  have after := Source.ahead_of_append h
  obtain ⟨c, tail, written, solid, goes⟩ := front_of_name name ['\n']
  have values := Statement.expressions_of_single (h.trans written) solid goes read after
  refine ⟨.mk inv.commandPos (.echo .echo inv [.identifier v (s.position k)]), _, ?_, after, inv, _, rfl⟩
  rw [form]
  exact Scan.bind_of_ok values

theorem makes_let_name (name : Token.IsName v.toList) :
    Makes Statement.letEntry (v.toList ++ " = 1".toList) fun kind =>
      ∃ inv p q, kind = .assign .letVar inv "=" (some (.identifier v p)) [] none (.leaf .number "1" q) := by
  intro blocks inv s k h
  obtain ⟨q, j, read, after⟩ := Statement.letCommand_of_name inv name h
  exact ⟨_, j, read, after, inv, _, q, rfl⟩

theorem makes_echo_lambda {found : Command} (form : found.form = .echo .echo) (name : Token.IsName v.toList) :
    Makes found ('\x7b' :: (v.toList ++ " -> 1\x7d".toList)) fun kind =>
      ∃ inv p q r, kind = .echo .echo inv [.mk p (.lambda [.identifier v q] (.leaf .number "1" r))] := by
  intro blocks inv s k h
  obtain ⟨p, q, r, j, read, after⟩ := Expr.read_of_lambda name h
  have values := Statement.expressions_of_single h rfl rfl read after
  refine ⟨.mk inv.commandPos (.echo .echo inv [_]), j, ?_, after, inv, p, q, r, rfl⟩
  rw [form]
  exact Scan.bind_of_ok values

theorem readsAs_echo_name (neovim : Bool) (name : isArgumentName v = true) :
    ReadsAs neovim ["echo " ++ v] fun kind => ∃ inv p, kind = .echo .echo inv [.identifier v p] := by
  obtain ⟨found, lookup, plain, form⟩ := Line.exists_lookup neovim .echo
  have text : ("echo " ++ v).toList = Line.echo.name ++ ' ' :: v.toList := by
    simp [Line.name_echo]
  exact readsAs_of_makes Line.echo.isCommandName plain lookup text (solid_of_name name ['\n']) (makes_echo_name form name)

theorem readsAs_let_name (neovim : Bool) (name : isArgumentName v = true) (isName : Token.IsName v.toList) :
    ReadsAs neovim ["let " ++ v ++ " = 1"] fun kind =>
      ∃ inv p q, kind = .assign .letVar inv "=" (some (.identifier v p)) [] none (.leaf .number "1" q) := by
  have text : ("let " ++ v ++ " = 1").toList = "let".toList ++ ' ' :: (v.toList ++ " = 1".toList) := by simp
  have solid : CharClass.white.hasOpt (v.toList ++ " = 1".toList ++ ['\n']).head? = false := by
    rw [List.append_assoc]
    exact solid_of_name name _
  exact readsAs_of_makes Statement.names_let.isName Statement.isPlainCommand_let (Statement.names_let.lookup neovim) text solid
    (makes_let_name isName)

theorem readsAs_lambda (neovim : Bool) (name : Token.IsName v.toList) :
    ReadsAs neovim ["echo \x7b" ++ v ++ " -> 1\x7d"] fun kind =>
      ∃ inv p q r, kind = .echo .echo inv [.mk p (.lambda [.identifier v q] (.leaf .number "1" r))] := by
  obtain ⟨found, lookup, plain, form⟩ := Line.exists_lookup neovim .echo
  have text : ("echo \x7b" ++ v ++ " -> 1\x7d").toList =
      Line.echo.name ++ ' ' :: '\x7b' :: (v.toList ++ " -> 1\x7d".toList) := by simp [Line.name_echo]
  exact readsAs_of_makes Line.echo.isCommandName plain lookup text rfl (makes_echo_lambda form name)

/-! ### Functions -/

theorem statements_of_end (last : s.size ≤ i) (names : Statement.UserNames) (blocks : Blocks) {n : Nat} (more : 0 < n) :
    statements neovim s n names blocks i = (finish blocks s i, names) := by
  obtain ⟨n, rfl⟩ : ∃ m, n = m + 1 := ⟨n - 1, by omega⟩
  simp only [statements, last, if_true]

/-- A script of one block without statements. -/
theorem read_of_block {block closer : Node}
    (opens : Statement.read ⟨neovim, [], .start (s.position 0)⟩ s 0 = .ok ⟨[.openBlock block], []⟩ i)
    (closes : Statement.read ⟨neovim, [], (Blocks.start (s.position 0)).push block⟩ s i = .ok ⟨[.closeBlock closer], []⟩ j)
    (isBlock : block.type.isBranch = false) (more : i < s.size) (last : s.size ≤ j) :
    Script.read neovim s = .ok (.mk .origin (.script [.mk block.position (block.kind.closeWith closer)])) j := by
  have start : ¬s.size ≤ 0 ∧ ¬s.size ≤ i := by omega
  have opened : (Blocks.start (s.position 0)).editAll [.openBlock block] = (Blocks.start (s.position 0)).push block := rfl
  have closed : ((Blocks.start (s.position 0)).push block).editAll [.closeBlock closer] =
      ⟨[.mk (s.position 0) (.script [.mk block.position (block.kind.closeWith closer)])]⟩ := by
    obtain ⟨position, kind⟩ := block
    have stays : ((Blocks.start (s.position 0)).push (.mk position kind)).leaveBranch =
        (Blocks.start (s.position 0)).push (.mk position kind) := by
      simp only [Blocks.leaveBranch, Blocks.push, Blocks.innermost, isBlock, Bool.false_eq_true, if_false]
    simp only [Blocks.editAll_cons, Blocks.editAll_nil, Blocks.edit, stays]
    rfl
  simp only [Script.read, readWith, statements, start, if_false, opens, opened, closes, closed]
  rw [statements_of_end last _ _ (by omega), finish_eq]
  rfl

/-- The end of a function right after its start. -/
theorem read_endfunction (neovim : Bool) (block : Node) (type : block.type = .function) (h : s.ahead i = "endfunction".toList ++ ['\n']) :
    ∃ closer, Statement.read ⟨neovim, [], (Blocks.start (s.position 0)).push block⟩ s i =
      .ok ⟨[.closeBlock closer], []⟩ (i + 12) := by
  have read := Statement.read_line neovim [] ((Blocks.start (s.position 0)).push block) (.closer .function) h
  have admitted : ((Blocks.start (s.position 0)).push block).frames.admits (Line.closer .function).type = true := by
    simp [Frames.admits, Line.type, Blocks.innermost_frames, Blocks.innermost, Blocks.push, type, NodeType.block?]
  rw [if_pos admitted] at read
  obtain ⟨closer, read, -⟩ := read
  exact ⟨closer, read⟩

theorem ahead_function (v : String) :
    (Source.ofLines ["function F(" ++ v ++ ")", "endfunction"]).ahead 0 = "function".toList ++ ' ' ::
      ('F' :: '(' :: (v.toList ++ [')']) ++ '\n' :: ("endfunction".toList ++ ['\n'])) := by
  have plain : Source.Plain [("function F(" ++ v ++ ")").toList, "endfunction".toList] := by
    intro text place
    rcases List.mem_cons.mp place with rfl | last
    · simp [isAsciiSpace]
    · obtain rfl := List.mem_singleton.mp last
      decide
  have laid := Source.ahead_ofChars plain
  rw [Source.ofLines]
  simpa [Source.layout] using laid

theorem ahead_argument (v : String) :
    (Source.ofLines ["function F(" ++ v ++ ")", "endfunction"]).ahead 9 =
      'F' :: '(' :: (v.toList ++ ')' :: '\n' :: ("endfunction".toList ++ ['\n'])) := by
  have argument := Source.ahead_of_cons (Source.ahead_of_append (ahead_function v))
  simpa using argument

/-- A function is read as it is where its parameters are. -/
theorem ofLines_function (neovim : Bool) {params : Statement.Parameters}
    (reads : Statement.functionParameters (Source.ofLines ["function F(" ++ v ++ ")", "endfunction"]) 11 =
      .ok params (11 + v.toList.length + 1)) :
    ∃ inv p q close j, ofLines neovim ["function F(" ++ v ++ ")", "endfunction"] = .ok (.mk .origin (.script
      [.mk p (.function inv (.identifier "F" q) params.names params.defaults {} [] (some close))])) j := by
  let s := Source.ofLines ["function F(" ++ v ++ ")", "endfunction"]
  obtain ⟨found, lookup, plain, form⟩ := Line.exists_lookup neovim (.opener .function)
  -- The first line.
  have atF : s.ahead 9 = 'F' :: '(' :: (v.toList ++ ')' :: '\n' :: ("endfunction".toList ++ ['\n'])) := ahead_argument v
  have after := Source.ahead_of_cons (Source.ahead_of_append (Source.ahead_of_cons (Source.ahead_of_cons atF)))
  have body := Statement.functionCommand_of_parameters (plainInvocation s 0 9 found) atF reads after
  have opens := Statement.read_of_body (s := s) ⟨neovim, [], .start (s.position 0)⟩ (Line.opener .function).isCommandName
    plain lookup (ahead_function v) rfl (by rw [form]; exact body) after
  -- The second line.
  have second : s.ahead _ = "endfunction".toList ++ ['\n'] := Source.ahead_of_cons after
  obtain ⟨closer, closes⟩ := read_endfunction neovim (.mk _ (.function _ _ _ _ _ _ _)) rfl second
  have length := Source.length_ahead s (9 + 1 + 1 + v.toList.length + 1 + 1)
  rw [second, List.length_append, List.length_singleton] at length
  have letters : "endfunction".toList.length = 11 := rfl
  have read := read_of_block (s := s) opens closes rfl (by omega) (by omega)
  exact ⟨_, _, _, _, _, read⟩

theorem readsAs_function (name : Token.IsName v.toList) (notFirst : v ≠ "firstline") (notLast : v ≠ "lastline") :
    ReadsAs neovim ["function F(" ++ v ++ ")", "endfunction"] fun kind =>
      ∃ inv q p close, kind = .function inv (.identifier "F" q) [.identifier v p] [] {} [] (some close) := by
  have atName := Source.ahead_of_cons (Source.ahead_of_cons (ahead_argument v))
  have one := Statement.functionParameters_of_name name notFirst notLast atName
  obtain ⟨inv, p, q, close, j, read⟩ := ofLines_function neovim one
  exact ⟨_, _, _, read, rfl, rfl, _, _, _, _, rfl⟩

/-! ### All four -/

/-- The three places where a name is bound. -/
def bindings (v : String) : List (List String) :=
  [["let " ++ v ++ " = 1"], ["echo \x7b" ++ v ++ " -> 1\x7d"], ["function F(" ++ v ++ ")", "endfunction"]]

theorem fails_of_word (neovim : Bool) {v : String} (word : v ∈ ["is", "isnot"]) {lines : List String}
    (binds : lines ∈ bindings v) : ∃ fault j, ofLines neovim lines = .fail fault j := by
  have table : ∀ neovim : Bool, ∀ v ∈ ["is", "isnot"], ∀ lines ∈ bindings v, (ofLines neovim lines).fails = true := by
    rw [ofLines_eq_byInitial]
    decide +kernel
  exact Reply.exists_of_fails (table neovim v word lines binds)

/-- A name that is no word of an identity test is one wherever a name is expected. The two words are names in an
expression, and unexpected everywhere else. -/
theorem readsAs_name (neovim : Bool) (v : String) (name : isArgumentName v = true) (notFirst : v ≠ "firstline")
    (notLast : v ≠ "lastline") :
    (ReadsAs neovim ["echo " ++ v] fun kind => ∃ inv p, kind = .echo .echo inv [.identifier v p]) ∧
      (v ∉ ["is", "isnot"] →
        (ReadsAs neovim ["let " ++ v ++ " = 1"] fun kind =>
          ∃ inv p q, kind = .assign .letVar inv "=" (some (.identifier v p)) [] none (.leaf .number "1" q)) ∧
        (ReadsAs neovim ["echo \x7b" ++ v ++ " -> 1\x7d"] fun kind =>
          ∃ inv p q r, kind = .echo .echo inv [.mk p (.lambda [.identifier v q] (.leaf .number "1" r))]) ∧
        (ReadsAs neovim ["function F(" ++ v ++ ")", "endfunction"] fun kind =>
          ∃ inv q p close, kind = .function inv (.identifier "F" q) [.identifier v p] [] {} [] (some close))) ∧
      (v ∈ ["is", "isnot"] →
        ∀ lines ∈ bindings v, ∃ fault j, ofLines neovim lines = .fail fault j) := by
  refine ⟨readsAs_echo_name neovim name, fun other => ?_, fun word lines binds => fails_of_word neovim word binds⟩
  have isName := Token.isName_of_isArgumentName name other
  exact ⟨readsAs_let_name neovim name isName, readsAs_lambda neovim isName, readsAs_function isName notFirst notLast⟩

/-- A name that only starts with the word of a test. -/
theorem readsAs_name_isnt :
    isArgumentName "isnt" = true ∧ "isnt" ≠ "firstline" ∧ "isnt" ≠ "lastline" ∧ "isnt" ∉ ["is", "isnot"] ∧
      ReadsAs true ["function F(isnt)", "endfunction"] fun kind =>
        ∃ inv q p close, kind = .function inv (.identifier "F" q) [.identifier "isnt" p] [] {} [] (some close) := by
  have other : "isnt" ∉ ["is", "isnot"] := by decide
  have read := readsAs_name true "isnt" (by decide) (by decide) (by decide)
  exact ⟨by decide, by decide, by decide, other, (read.2.1 other).2.2⟩

/-- `let is = 1` is refused. -/
theorem not_forall_readsAs_name :
    ¬∀ (neovim : Bool) (v : String), isArgumentName v = true → v ≠ "firstline" → v ≠ "lastline" →
      ReadsAs neovim ["let " ++ v ++ " = 1"] fun kind =>
        ∃ inv p q, kind = .assign .letVar inv "=" (some (.identifier v p)) [] none (.leaf .number "1" q) := by
  intro all
  obtain ⟨root, j, n, ok, -⟩ := all false "is" (by decide) (by decide) (by decide)
  obtain ⟨fault, k, refused⟩ := fails_of_word false (v := "is") (by decide) (.head _)
  rw [ok] at refused
  cases refused

end Script

end VimScript
