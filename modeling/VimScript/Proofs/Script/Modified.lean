import VimScript.Proofs.Script.Initials
import VimScript.Proofs.Script.Structure
import VimScript.Proofs.Source.Layout
import VimScript.Proofs.Statement.Lines
import VimScript.Proofs.Statement.Modifiers

/-!
A line that edits a file under modifiers. The modifiers are those written, as long as only the last one has a bang.
-/

set_option autoImplicit false

namespace VimScript.Statement

variable {s : Source} {i j : Nat} {xs cs rest : List Char} {inv : Invocation} {neovim : Bool}

/-! ### A word as an argument -/

theorem argumentStep_of_letter {c : Char} (state : ArgumentScan) (h : s.ahead i = c :: cs)
    (letter : CharClass.alpha.has c = true) :
    argumentStep inv state s i =
      .ok (.again ⟨some c, if CharClass.white.hasOpt state.before then state.solid else i⟩) (i + 1) := by
  simp only [argumentStep, Scan.bind_of_ok (Scan.tell_apply s i), Scan.bind_of_ok (Scan.peek_of_ahead h),
    List.head?_cons, Option.some.injEq, ne_of_alpha '\n' letter rfl, ne_of_alpha '\x16' letter rfl,
    ne_of_alpha '\x60' letter rfl, ne_of_alpha '|' letter rfl, ne_of_alpha '"' letter rfl, imp_self]
  rfl

theorem argumentStep_of_newline (state : ArgumentScan) (h : s.ahead i = '\n' :: cs)
    (solid : CharClass.white.hasOpt state.before = false) : argumentStep inv state s i = .ok (.done (i, i)) i := by
  simp only [argumentStep, Scan.bind_of_ok (Scan.tell_apply s i), Scan.bind_of_ok (Scan.peek_of_ahead h), solid]
  rfl

theorem rounds_of_word (state : ArgumentScan) (h : s.ahead i = xs ++ '\n' :: cs)
    (letters : ∀ c ∈ xs, CharClass.alpha.has c = true) (solid : CharClass.white.hasOpt state.before = false) :
    Scan.Rounds (argumentStep inv) s state i (i + xs.length, i + xs.length) (i + xs.length) := by
  induction xs generalizing i state with
  | nil => exact .last (argumentStep_of_newline state h solid)
  | cons c xs ih =>
    have letter : CharClass.alpha.has c = true := letters c (by simp)
    have within := Source.lt_size_of_cons h
    have others : ∀ d ∈ xs, CharClass.alpha.has d = true := fun d place => letters d (by simp [place])
    apply Scan.Rounds.turn (argumentStep_of_letter state h letter) (by omega) (by omega)
    have rounds := ih ⟨some c, if CharClass.white.hasOpt state.before then state.solid else i⟩ (Source.ahead_of_cons h)
      others (not_white_of_alpha letter)
    rwa [Nat.add_assoc, Nat.add_comm 1] at rounds

theorem argumentEnd_of_word (h : s.ahead i = xs ++ '\n' :: cs) (letters : ∀ c ∈ xs, CharClass.alpha.has c = true)
    (noGrep : inv.name ∉ ["vimgrep", "vimgrepadd", "lvimgrep", "lvimgrepadd"]) :
    argumentEnd inv s i = .ok (i + xs.length) (i + xs.length) := by
  have plain : ["vimgrep", "vimgrepadd", "lvimgrep", "lvimgrepadd"].contains inv.name = false := by simpa using noGrep
  have rounds : Scan.Rounds (argumentStep inv) s ⟨none, i⟩ i (i + xs.length, i + xs.length) (i + xs.length) :=
    rounds_of_word ⟨none, i⟩ h letters rfl
  have followed := rounds.loop
  simp only [argumentEnd, plain, Bool.false_eq_true, if_false, Scan.bind_of_ok (Scan.tell_apply s i), Scan.bind_of_ok followed,
    ite_self]
  rfl

theorem raw_of_word (inv : Invocation) (h : s.ahead i = xs ++ '\n' :: cs) (letters : ∀ c ∈ xs, CharClass.alpha.has c = true)
    (bar : inv.has .trlbar = true) (noNeed : inv.has .needarg = false) (noFilter : inv.filter = false)
    (noGrep : inv.name ∉ ["vimgrep", "vimgrepadd", "lvimgrep", "lvimgrepadd"]) :
    raw inv s i = .ok [.add (.command inv (s.text inv.linePos.cursor (i + xs.length)))] (i + xs.length) := by
  have ended := argumentEnd_of_word h letters noGrep
  simp only [raw, bar, noNeed, noFilter, Bool.not_false, Bool.and_self, if_true, Bool.false_eq_true, if_false,
    Scan.bind_of_ok ended]
  rfl

/-! ### The command -/

/-- A file name made of letters is the whole argument of `:edit`. -/
theorem invoked_edit (blocks : Blocks) (inv : Invocation) (h : s.ahead i = ' ' :: (xs ++ '\n' :: cs))
    (letters : ∀ c ∈ xs, CharClass.alpha.has c = true) (nonempty : xs ≠ []) (noFilter : inv.filter = false) :
    ∃ inv', invoked blocks inv editCommand s i =
        .ok [.add (.command inv' (s.text inv.linePos.cursor (i + 1 + xs.length)))] (i + 1 + xs.length) ∧
      inv'.name = "edit" ∧ inv'.modifiers = inv.modifiers := by
  obtain ⟨c, word, rfl⟩ := List.exists_cons_of_ne_nil nonempty
  have letter : CharClass.alpha.has c = true := letters c (by simp)
  have atWord := Source.ahead_of_cons h
  have noBang := bang_of_other editCommand inv.commandPos (s := s) (i := i) (by simp [h])
  have skipped : Scan.skipWhite s i = .ok () (i + 1) :=
    Scan.skipWhite_of_ahead [' '] h (by simp [CharClass.has]) (not_white_of_alpha letter)
  let inv' : Invocation := { inv with bang := false, argumentPos := s.position (i + 1), command := some editCommand }
  have name : inv'.name = "edit" := rfl
  have mark : (some c == some '+') = false := by simpa using ne_of_alpha '+' letter rfl
  have noOptions : fileOptions inv' s (i + 1) = .ok inv' (i + 1) := by
    apply Scan.loop_of_done
    simp only [Scan.bind_of_ok (Scan.peek_of_ahead atWord), List.cons_append, List.head?_cons, mark, Bool.false_and]
    rfl
  have noLeadIn : leadIn inv' s (i + 1) = .ok inv' (i + 1) := by
    simp only [leadIn, name]
    rfl
  have noStart : startCommand inv' s (i + 1) = .ok inv' (i + 1) := by
    simp only [startCommand, Scan.bind_of_ok (peekInLine_of_letter atWord letter), mark]
    rfl
  have noGrep : inv'.name ∉ ["vimgrep", "vimgrepadd", "lvimgrep", "lvimgrepadd"] := by
    rw [name]
    decide
  have noShell : inv'.filter = false := noFilter
  have taken := raw_of_word inv' atWord letters rfl rfl noShell noGrep
  have shell : (editCommand.name != "!") = true := by decide
  have options : editCommand.has .argopt = true := by decide
  have starts : editCommand.has .editcmd = true := by decide
  refine ⟨inv', ?_, rfl, rfl⟩
  simp only [invoked, Scan.bind_of_ok noBang, shell, if_true, Scan.bind_of_ok skipped,
    Scan.bind_of_ok (Scan.here_apply s _), options, starts]
  apply (Scan.bind_of_ok noOptions).trans
  apply (Scan.bind_of_ok noLeadIn).trans
  simp only [noShell, Bool.not_false, Bool.and_self, if_true]
  exact (Scan.bind_of_ok noStart).trans taken

/-! ### The line -/

/-- A line that starts with none of these characters is neither skipped nor a comment. -/
theorem read_of_other {c : Char} (setting : Setting) (h : s.ahead i = c :: cs)
    (other : c ≠ '\n' ∧ c ≠ '#' ∧ c ≠ ':' ∧ c ≠ '"' ∧ CharClass.white.has c = false) :
    read setting s i = commandLine setting s i := by
  have noShebang : (String.ofList (((c :: cs).take 2).takeWhile (· != '\n')) == "#!") = false := by
    rw [beq_eq_false_iff_ne]
    intro same
    have first := congrArg (·.toList.head?) same
    simp [other.1, other.2.1] at first
  have skipped : Scan.skipWhiteAndColons s i = .ok () i := by
    have empty : s.ahead i = [] ++ c :: cs := h
    apply Scan.skipWhile_of_ahead _ empty (by simp)
    intro d front
    obtain rfl : c = d := by simpa using front
    simp [other.2.2]
  have peeked : Scan.peekInLine s i = .ok (some c) i := by
    rw [Scan.peekInLine_of_ahead h]
    simp [other.1]
  simp only [read, Scan.bind_of_ok (Scan.peekRun_of_ahead 2 h), noShebang, Bool.false_eq_true, if_false,
    Scan.bind_of_ok skipped, Scan.bind_of_ok peeked, Option.some.injEq, other.2.2.2.1, imp_self]

theorem read_of_alnum {c : Char} (setting : Setting) (h : s.ahead i = c :: cs) (alnum : CharClass.alnum.has c = true) :
    read setting s i = commandLine setting s i := by
  apply read_of_other setting h
  exact CharClass.forall_of_table
    (p := fun c => c ≠ '\n' ∧ c ≠ '#' ∧ c ≠ ':' ∧ c ≠ '"' ∧ CharClass.white.has c = false) (by decide) alnum

theorem range_of_blank (h : s.ahead i = ' ' :: cs) : range s i = range s (i + 1) := by
  have blank : s.ahead i = [' '] ++ cs := h
  have skipped := Scan.skipWhite_blanks blank (by simp [CharClass.has])
  simp only [range, address, Scan.loop, Scan.repeatUpTo, Scan.bind_apply, skipped]
  rfl

theorem commandPart_edit (setting : Setting) (inv : Invocation) (h : s.ahead i = "edit".toList ++ ' ' :: (xs ++ '\n' :: cs))
    (letters : ∀ c ∈ xs, CharClass.alpha.has c = true) (nonempty : xs ≠ []) (noFilter : inv.filter = false) :
    ∃ inv', commandPart setting inv s i = .ok ⟨[.add (.command inv' (s.text inv.linePos.cursor (i + 5 + xs.length)))],
        setting.known⟩ (i + 5 + xs.length) ∧
      inv'.name = "edit" ∧ inv'.modifiers = inv.modifiers := by
  have letter : CharClass.alpha.has 'e' = true := by decide
  have skipped := skipWhiteAndColons_of_letter (w := 'e') h letter
  have peeked := peekInLine_of_letter (w := 'e') h letter
  have named := command_of_name names_edit.isName h rfl setting.known (names_edit.lookup setting.neovim)
  have atBlank := Source.ahead_of_append h
  obtain ⟨inv', invoked, name, modifiers⟩ :=
    invoked_edit setting.blocks { inv with commandPos := s.position i } atBlank letters nonempty noFilter
  refine ⟨inv', ?_, name, modifiers⟩
  have noComment : (some 'e' == some '"') = false := by decide
  simp only [commandPart, Scan.bind_of_ok skipped, Scan.bind_of_ok (Scan.here_apply s i), Scan.bind_of_ok peeked,
    Option.isNone_some, noComment, Bool.false_or, Bool.false_eq_true, if_false, Scan.bind_of_ok named]
  exact Scan.bind_of_ok invoked

open WrittenModifier (spaced)

/-- The list ends at the command's name, or at the blank before it if the last modifier has a bang. -/
theorem modifiers_of_list (written : List WrittenModifier) (bangLast : ∀ w ∈ written.dropLast, w.bang = false)
    (h : s.ahead i = spaced written ++ ("edit".toList ++ ' ' :: cs)) :
    ∃ j, modifiers s i = .ok (written.map WrittenModifier.modifier) j ∧
      (j = i + (spaced written).length ∨ j + 1 = i + (spaced written).length ∧ (s.ahead j).head? = some ' ') := by
  by_cases quiet : ∀ w ∈ written, w.bang = false
  · exact ⟨_, WrittenModifier.modifiers_of_quiet written quiet names_edit.isName h rfl, .inl rfl⟩
  -- Some modifier has a bang, so the last one has.
  cases written using List.reverseRecOn with
  | nil => simp at quiet
  | append_singleton written w _ =>
    rw [List.dropLast_concat] at bangLast
    have mark : w.bang = true := by
      rw [← Bool.not_eq_false]
      intro none
      apply quiet
      intro other place
      rcases List.mem_append.mp place with inside | last
      · exact bangLast other inside
      · obtain rfl : other = w := by simpa using last
        exact none
    have whole : s.ahead i = spaced written ++ (w.text ++ ' ' :: ("edit".toList ++ ' ' :: cs)) := by
      rw [h]
      simp [spaced]
    have atBlank := Source.ahead_of_append (Source.ahead_of_append whole)
    refine ⟨_, WrittenModifier.modifiers_of_bang written w bangLast mark whole, .inr ⟨?_, ?_⟩⟩
    · simp [spaced]
      omega
    · rw [atBlank]
      rfl

theorem alnum_of_alpha {c : Char} (letter : CharClass.alpha.has c = true) : CharClass.alnum.has c = true :=
  CharClass.forall_of_table (p := fun c => CharClass.alnum.has c = true) (by decide) letter

theorem alnum_of_digit {c : Char} (digit : CharClass.digit.has c = true) : CharClass.alnum.has c = true :=
  CharClass.forall_of_table (p := fun c => CharClass.alnum.has c = true) (by decide) digit

theorem head_spaced (written : List WrittenModifier) (cs : List Char) :
    ∃ c, (spaced written ++ ("edit".toList ++ cs)).head? = some c ∧ CharClass.alnum.has c = true := by
  cases written with
  | nil => exact ⟨'e', rfl, by decide⟩
  | cons w written =>
    obtain ⟨c, typed, named⟩ := List.exists_cons_of_ne_nil w.typed_ne_nil
    cases digits : w.digits with
    | nil => exact ⟨c, by simp [spaced, WrittenModifier.text, digits, named], alnum_of_alpha (w.alpha_typed c (by simp [named]))⟩
    | cons d ds => exact ⟨d, by simp [spaced, WrittenModifier.text, digits], alnum_of_digit (w.decimal d (by simp [digits]))⟩

theorem read_modified (setting : Setting) (written : List WrittenModifier)
    (bangLast : ∀ w ∈ written.dropLast, w.bang = false)
    (h : s.ahead i = spaced written ++ ("edit".toList ++ ' ' :: (xs ++ '\n' :: cs)))
    (letters : ∀ c ∈ xs, CharClass.alpha.has c = true) (nonempty : xs ≠ []) :
    ∃ inv j, read setting s i = .ok ⟨[.add (.command inv (s.text i j))], setting.known⟩ (j + 1) ∧ s.ahead j = '\n' :: cs ∧
      inv.name = "edit" ∧ inv.modifiers = written.map WrittenModifier.modifier := by
  obtain ⟨c, first, alnum⟩ := head_spaced written (' ' :: (xs ++ '\n' :: cs))
  obtain ⟨rest, front⟩ := List.head?_eq_some_iff.mp first
  have atName := Source.ahead_of_append h
  have letter : CharClass.alpha.has 'e' = true := by decide
  have noRange := range_of_letter (w := 'e') atName letter
  obtain ⟨j, listed, place⟩ := modifiers_of_list written bangLast h
  have ranged : range s j = .ok [] (i + (spaced written).length) := by
    rcases place with rfl | ⟨next, blank⟩
    · exact noRange
    · obtain ⟨more, ahead⟩ := List.head?_eq_some_iff.mp blank
      rw [range_of_blank ahead, next]
      exact noRange
  obtain ⟨inv, part, name, modifiers⟩ := commandPart_edit setting
    { linePos := s.position i, modifiers := written.map WrittenModifier.modifier, range := [] } atName letters nonempty rfl
  have ended : s.ahead (i + (spaced written).length + 5 + xs.length) = '\n' :: cs :=
    Source.ahead_of_append (Source.ahead_of_cons (Source.ahead_of_append atName))
  refine ⟨inv, _, ?_, ended, name, modifiers⟩
  rw [read_of_alnum setting (h.trans front) alnum]
  simp only [commandLine, Scan.bind_of_ok (Scan.here_apply s i), Scan.bind_of_ok listed, Scan.bind_of_ok ranged]
  rw [Scan.bind_of_ok part, Scan.bind_of_ok (trail_of_stop (.inl rfl) ended)]
  rfl

end VimScript.Statement

namespace VimScript.Script

open Statement (WrittenModifier)

/-- The command `:edit foo` under a list of modifiers. -/
def editLine (written : List WrittenModifier) : String :=
  String.ofList (WrittenModifier.spaced written ++ "edit foo".toList)

theorem toList_editLine (written : List WrittenModifier) :
    (editLine written).toList = WrittenModifier.spaced written ++ ("edit".toList ++ ' ' :: "foo".toList) := by
  rw [editLine, String.toList_ofList]
  rfl

theorem ahead_editLine (written : List WrittenModifier) :
    (Source.ofLines [editLine written]).ahead 0 = (editLine written).toList ++ ['\n'] := by
  have plain : Source.Plain [(editLine written).toList] := by
    obtain ⟨c, first, alnum⟩ := Statement.head_spaced written (' ' :: "foo".toList)
    obtain ⟨rest, front⟩ := List.head?_eq_some_iff.mp first
    have solid : isAsciiSpace c = false ∧ c ≠ '\\' :=
      CharClass.forall_of_table (p := fun c => isAsciiSpace c = false ∧ c ≠ '\\') (by decide) alnum
    intro text place
    obtain rfl := List.mem_singleton.mp place
    rw [toList_editLine, front]
    simp [solid]
  simpa [Source.ofLines, Source.layout] using Source.ahead_ofChars plain

/-- A script of one statement. -/
theorem read_of_single {neovim : Bool} {s : Source} {node : Node} {j : Nat} (some : 0 < s.size) (last : s.size ≤ j)
    (read : Statement.read ⟨neovim, [], .start (s.position 0)⟩ s 0 = .ok ⟨[.add node], []⟩ j) :
    Script.read neovim s = .ok (.mk .origin (.script [node])) j := by
  have start : ¬s.size ≤ 0 := by omega
  have blocks : (Blocks.start (s.position 0)).editAll [.add node] = ⟨[.mk (s.position 0) (.script [node])]⟩ := rfl
  simp only [Script.read, readWith, statements, start, if_false, read, last, if_true, blocks, finish_eq]
  rfl

/-- The modifiers of a line are read back as they were meant, if none but the last has a bang. -/
theorem ofLines_editLine (neovim : Bool) (written : List WrittenModifier)
    (bangLast : ∀ w ∈ written.dropLast, w.bang = false) :
    ∃ root j inv, ofLines neovim [editLine written] = .ok root j ∧ root.type = .script ∧
      root.children = [.command inv (editLine written)] ∧ inv.name = "edit" ∧
      inv.modifiers = written.map WrittenModifier.modifier := by
  have whole := ahead_editLine written
  have listed : (Source.ofLines [editLine written]).ahead 0 =
      WrittenModifier.spaced written ++ ("edit".toList ++ ' ' :: ("foo".toList ++ ['\n'])) := by
    rw [whole, toList_editLine]
    simp
  obtain ⟨inv, j, read, ended, name, modifiers⟩ := Statement.read_modified
    ⟨neovim, [], .start ((Source.ofLines [editLine written]).position 0)⟩ written bangLast listed
    (List.all_eq_true.mp (by decide)) (by simp)
  have size := Source.length_ahead (Source.ofLines [editLine written]) 0
  have last := Source.length_ahead (Source.ofLines [editLine written]) j
  rw [whole, List.length_append, List.length_singleton] at size
  rw [ended, List.length_singleton] at last
  obtain rfl : j = 0 + (editLine written).toList.length := by omega
  rw [Source.text_of_append whole, String.ofList_toList] at read
  exact ⟨_, _, inv, read_of_single (by omega) (by omega) read, rfl, rfl, name, modifiers⟩

/-- `3tab` -/
def threeTabs : WrittenModifier where
  name := "tab"
  least := 3
  listed := by decide
  typed := "tab".toList
  shortened := by decide
  enough := by decide
  bang := false
  silent := by decide
  digits := ['3']
  decimal := List.all_eq_true.mp (by decide)
  small := by decide
  counted := by decide

/-- `verb` -/
def verbosely : WrittenModifier where
  name := "verbose"
  least := 4
  listed := by decide
  typed := "verb".toList
  shortened := by decide
  enough := by decide
  bang := false
  silent := by decide
  digits := []
  decimal := List.all_eq_true.mp (by decide)
  small := by decide
  counted := by decide

/-- `silent!` -/
def silently : WrittenModifier where
  name := "silent"
  least := 3
  listed := by decide
  typed := "silent".toList
  shortened := by decide
  enough := by decide
  bang := true
  silent := by decide
  digits := []
  decimal := List.all_eq_true.mp (by decide)
  small := by decide
  counted := by decide

theorem ofLines_editLine_three :
    (∀ w ∈ [threeTabs, verbosely, silently].dropLast, w.bang = false) ∧
      ∃ root j inv, ofLines false ["3tab verb silent! edit foo"] = .ok root j ∧ root.type = .script ∧
        root.children = [.command inv "3tab verb silent! edit foo"] ∧ inv.name = "edit" ∧
        inv.modifiers = [⟨"tab", false, some 3⟩, ⟨"verbose", false, some 1⟩, ⟨"silent", true, none⟩] := by
  have bangLast : ∀ w ∈ [threeTabs, verbosely, silently].dropLast, w.bang = false := by decide
  have line : editLine [threeTabs, verbosely, silently] = "3tab verb silent! edit foo" := by decide
  have meant : [threeTabs, verbosely, silently].map WrittenModifier.modifier =
      [⟨"tab", false, some 3⟩, ⟨"verbose", false, some 1⟩, ⟨"silent", true, none⟩] := by decide
  have read := ofLines_editLine false [threeTabs, verbosely, silently] bangLast
  rw [line, meant] at read
  exact ⟨bangLast, read⟩

/-- In `silent! verb edit foo` the command is `verbose`. -/
theorem not_forall_ofLines_editLine :
    ¬∀ (neovim : Bool) (written : List WrittenModifier), written ≠ [] →
      ∃ root j inv, ofLines neovim [editLine written] = .ok root j ∧ root.type = .script ∧
        root.children = [.command inv (editLine written)] ∧ inv.name = "edit" ∧
        inv.modifiers = written.map WrittenModifier.modifier := by
  intro all
  obtain ⟨root, j, inv, ok, -, children, name, -⟩ := all false [silently, verbosely] (by simp)
  have other : (ofLines false [editLine [silently, verbosely]]).passes
      (fun root => root.children.all fun n => n.invocation?.any (·.name == "verbose")) = true := by
    rw [ofLines_eq_byInitial]
    decide +kernel
  rw [ok, Reply.passes, children] at other
  simp [Node.command, Node.invocation?, Kind.invocation?, name] at other

end VimScript.Script
