import VimScript.Proofs.Script.Modified
import VimScript.Proofs.Statement.Ranges

/-!
A line with a range. What the command is given is the range piece by piece, as it was written.
-/

set_option autoImplicit false

namespace VimScript.Statement

variable {s : Source} {i : Nat} {cs : List Char} {inv : Invocation}

/-! ### The command -/

theorem isPlainCommand_delete : IsPlainCommand deleteCommand where
  noShell := by decide
  noOptions := by decide
  noStart := by decide
  noLeadIn := by decide

theorem invoked_delete (blocks : Blocks) (inv : Invocation) (h : s.ahead i = '\n' :: cs) (noFilter : inv.filter = false) :
    ∃ inv', invoked blocks inv deleteCommand s i =
        .ok [.add (.command inv' (s.text inv.linePos.cursor i))] i ∧
      inv'.name = "delete" ∧ inv'.range = inv.range := by
  have noBang := bang_of_other deleteCommand inv.commandPos (s := s) (i := i) (by simp [h])
  have skipped := Scan.skipWhite_of_solid h rfl
  let inv' : Invocation :=
    { inv with bang := false, argumentPos := s.position i, command := some deleteCommand }
  have noLeadIn : leadIn inv' s i = .ok inv' i := leadIn_of_plain inv' isPlainCommand_delete rfl
  have name : inv'.name = "delete" := rfl
  have noGrep : inv'.name ∉ ["vimgrep", "vimgrepadd", "lvimgrep", "lvimgrepadd"] := by
    rw [name]
    decide
  have empty : s.ahead i = [] ++ '\n' :: cs := h
  have taken := raw_of_word inv' empty (by simp) rfl rfl noFilter noGrep
  refine ⟨inv', ?_, rfl, rfl⟩
  simp only [invoked, Scan.bind_of_ok noBang, isPlainCommand_delete.noShell, if_true, Scan.bind_of_ok skipped,
    Scan.bind_of_ok (Scan.here_apply s _), isPlainCommand_delete.noOptions, isPlainCommand_delete.noStart]
  exact (Scan.bind_of_ok noLeadIn).trans taken

theorem commandPart_delete (setting : Setting) (inv : Invocation) (h : s.ahead i = 'd' :: '\n' :: cs)
    (noFilter : inv.filter = false) :
    ∃ inv', commandPart setting inv s i =
        .ok ⟨[.add (.command inv' (s.text inv.linePos.cursor (i + 1)))], setting.known⟩ (i + 1) ∧
      inv'.name = "delete" ∧ inv'.range = inv.range := by
  have letter : CharClass.alpha.has 'd' = true := by decide
  have skipped := skipWhiteAndColons_of_letter h letter
  have peeked := peekInLine_of_letter h letter
  have front : s.ahead i = "d".toList ++ '\n' :: cs := h
  have named := command_of_name names_delete.isName front rfl setting.known (names_delete.lookup setting.neovim)
  obtain ⟨inv', invoked, name, range⟩ := invoked_delete setting.blocks { inv with commandPos := s.position i }
    (Source.ahead_of_cons h) noFilter
  refine ⟨inv', ?_, name, range⟩
  have noComment : (some 'd' == some '"') = false := by decide
  simp only [commandPart, Scan.bind_of_ok skipped, Scan.bind_of_ok (Scan.here_apply s i), Scan.bind_of_ok peeked,
    Option.isNone_some, noComment, Bool.false_or, Bool.false_eq_true, if_false, Scan.bind_of_ok named]
  exact Scan.bind_of_ok invoked

/-! ### The line -/

theorem read_ranged (setting : Setting) (r : WrittenRange) (h : s.ahead i = r.text ++ 'd' :: '\n' :: cs) :
    ∃ inv, read setting s i =
        .ok ⟨[.add (.command inv (s.text i (i + r.text.length + 1)))], setting.known⟩ (i + r.text.length + 1 + 1) ∧
      inv.name = "delete" ∧ inv.range = r.pieces := by
  obtain ⟨rest, split, offset⟩ := r.exists_rest cs
  have base := h.trans split
  obtain ⟨c, tail, front, other⟩ := opens_base r.first.base offset
  have noModifiers := modifiers_of_base r.first.base base offset
  have ranged := range_of_written r h
  have atCommand := Source.ahead_of_append h
  obtain ⟨inv, part, name, range⟩ := commandPart_delete setting
    { linePos := s.position i, modifiers := [], range := r.pieces } atCommand rfl
  have ended : s.ahead (i + r.text.length + 1) = '\n' :: cs := Source.ahead_of_cons atCommand
  refine ⟨inv, ?_, name, range⟩
  rw [read_of_other setting (base.trans front) other]
  simp only [commandLine, Scan.bind_of_ok (Scan.here_apply s i), Scan.bind_of_ok noModifiers, Scan.bind_of_ok ranged]
  rw [Scan.bind_of_ok part, Scan.bind_of_ok (trail_of_stop (.inl rfl) ended)]
  rfl

end VimScript.Statement

namespace VimScript.Script

open Statement (WrittenRange)

/-- The command `:d` with a range. -/
def rangedLine (r : WrittenRange) : String :=
  String.ofList (r.text ++ ['d'])

theorem ahead_rangedLine (r : WrittenRange) : (Source.ofLines [rangedLine r]).ahead 0 = r.text ++ 'd' :: ['\n'] := by
  rw [Expr.ahead_ofLines, rangedLine, String.toList_ofList, List.append_assoc]
  rfl

/-- A range is read back as it was written: what every address starts from, a pattern without its delimiters, every
offset and every separator. -/
theorem ofLines_rangedLine (neovim : Bool) (r : WrittenRange) :
    ∃ root j inv, ofLines neovim [rangedLine r] = .ok root j ∧ root.type = .script ∧
      root.children = [.command inv (rangedLine r)] ∧ inv.name = "delete" ∧ inv.range = r.pieces := by
  have whole := ahead_rangedLine r
  obtain ⟨inv, read, name, range⟩ := Statement.read_ranged
    ⟨neovim, [], .start ((Source.ofLines [rangedLine r]).position 0)⟩ r whole
  have size := Source.length_ahead (Source.ofLines [rangedLine r]) 0
  rw [whole, List.length_append, List.length_cons, List.length_singleton] at size
  have line : (Source.ofLines [rangedLine r]).ahead 0 = (r.text ++ ['d']) ++ ['\n'] := by
    rw [whole]
    simp
  have text := Source.text_of_append line
  rw [List.length_append, List.length_singleton, ← Nat.add_assoc] at text
  rw [text] at read
  exact ⟨_, _, inv, read_of_single (by omega) (by omega) read, rfl, rfl, name, range⟩

end VimScript.Script
