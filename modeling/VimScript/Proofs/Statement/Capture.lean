import Mathlib.Data.List.Infix
import VimScript.Proofs.Source.Layout
import VimScript.Proofs.Statement.UserCommand
import VimScript.Proofs.Statement.Verbatim

/-!
Commands that take the lines after their own as text, up to a line that ends them. Nothing of these lines is read as
anything but a line, so that it does not matter what they hold.
-/

set_option autoImplicit false

namespace VimScript

/-- Whether the command takes text of the lines after its own. -/
def CommandForm.takesText : CommandForm → Bool
  | .append | .insert | .foreign _ => true
  | _ => false

/-- A line whose command takes the lines after it, and the line that ends them. The name may be abbreviated. -/
inductive TakesUpTo (neovim : Bool) (command : Command) : String → String → Prop where
  | text {name : String} (found : Command.lookup neovim name.toList = some command)
      (form : command.form = .append ∨ command.form = .insert) : TakesUpTo neovim command name "."
  | unmarked {name : String} {language : Language} (found : Command.lookup neovim name.toList = some command)
      (form : command.form = .foreign language) : TakesUpTo neovim command (name ++ " <<") "."
  | marked {name marker : String} {language : Language} (found : Command.lookup neovim name.toList = some command)
      (form : command.form = .foreign language) (some : marker ≠ "")
      (solid : CharClass.white.hasOpt marker.toList.head? = false) (line : '\n' ∉ marker.toList) :
      TakesUpTo neovim command (name ++ " << " ++ marker) marker

namespace Statement

open Scan

variable {s : Source} {i j k : Nat} {cs ws : List Char} {neovim : Bool} {command : Command} {marker first : String}
  {lines b : List String} {setting : Setting} {inv : Invocation}

/-! ### Names -/

/-- A name that is read as it stands. After `py` the name may go on with digits. -/
structure IsTextName (ws : List Char) : Prop where
  head : ∀ w ∈ ws.head?, CharClass.alpha.has w = true ∧ w.isUpper = false ∧ w ≠ 'k' ∧ w ≠ 's'
  some : ws ≠ []
  chars : ∀ c ∈ ws, CharClass.alnum.has c = true
  letters : ¬['p', 'y'] <+: ws → ∀ c ∈ ws, CharClass.alpha.has c = true
  noModifier : modifierName? (String.ofList (ws.takeWhile CharClass.alpha.has)) = none
  noFlag : isFlaggedDelete (String.ofList ws) = false

theorem IsTextName.cons (name : IsTextName ws) :
    ∃ w rest, ws = w :: rest ∧ CharClass.alpha.has w = true ∧ w.isUpper = false ∧ w ≠ 'k' ∧ w ≠ 's' := by
  obtain ⟨w, rest, rfl⟩ := List.exists_cons_of_ne_nil name.some
  exact ⟨w, rest, rfl, name.head w rfl⟩

theorem textName_of_lookup (found : Command.lookup neovim ws = some command) (text : command.form.takesText = true) :
    IsPlainCommand command ∧ IsTextName ws := by
  have table : ∀ command ∈ Command.builtin ++ Command.neovimAdded, command.form.takesText = true →
      (command.name != "!") = true ∧ command.has .argopt = false ∧ command.has .editcmd = false ∧
        command.name ∉ ["write", "update", "read", "<", ">"] ∧
          ∀ name ∈ command.name.toList.inits, command.least ≤ name.length →
            (name.head?.all fun w => CharClass.alpha.has w && !w.isUpper && w != 'k' && w != 's') = true ∧ name ≠ [] ∧
              name.all CharClass.alnum.has = true ∧ (¬['p', 'y'] <+: name → name.all CharClass.alpha.has = true) ∧
              modifierName? (String.ofList (name.takeWhile CharClass.alpha.has)) = none ∧
              isFlaggedDelete (String.ofList name) = false := by
    rw [modifierName?_eq_byInitial, ← charsOf_eq_toList]
    decide +kernel
  obtain ⟨listed, accepted⟩ := listed_of_lookup found
  obtain ⟨noShell, noOptions, noStart, noLeadIn, names⟩ := table _ listed text
  obtain ⟨starts, least⟩ : ws.isPrefixOf command.name.toList = true ∧ command.least ≤ ws.length := by
    simpa [Command.accepts] using accepted
  obtain ⟨head, some, chars, letters, noModifier, noFlag⟩ :=
    names ws ((List.mem_inits _ _).mpr (List.isPrefixOf_iff_prefix.mp starts)) least
  refine ⟨⟨noShell, noOptions, noStart, noLeadIn⟩, ⟨?_, some, List.all_eq_true.mp chars,
    fun other => List.all_eq_true.mp (letters other), noModifier, noFlag⟩⟩
  intro w front
  rw [Option.mem_def.mp front] at head
  simpa [and_assoc] using head

theorem not_alpha_of_not_alnum (stop : CharClass.alnum.hasOpt cs.head? = false) :
    CharClass.alpha.hasOpt cs.head? = false := by
  cases cs with
  | nil => rfl
  | cons c cs =>
    simp only [List.head?_cons, CharClass.hasOpt_some, CharClass.has, Char.isAlphanum, Bool.or_eq_false_iff] at stop ⊢
    exact stop.1

/-- A `py` ahead of the cursor is part of the name that ends there. -/
theorem python_of_two (some : ws ≠ []) (stop : CharClass.alnum.hasOpt cs.head? = false)
    (two : ((ws ++ cs).take 2).takeWhile (· != '\n') = ['p', 'y']) : ['p', 'y'] <+: ws := by
  have starts : ['p', 'y'] <+: ws ++ cs := two ▸ (List.takeWhile_prefix _).trans (List.take_prefix 2 _)
  obtain ⟨w, rest, rfl⟩ := List.exists_cons_of_ne_nil some
  obtain ⟨rfl, behind⟩ : 'p' = w ∧ ['y'] <+: rest ++ cs := List.cons_prefix_cons.mp starts
  cases rest with
  | nil =>
    obtain ⟨more, rfl⟩ : ['y'] <+: cs := behind
    cases stop
  | cons v rest =>
    obtain ⟨rfl, -⟩ : 'y' = v ∧ [] <+: rest ++ cs := List.cons_prefix_cons.mp behind
    exact ⟨rest, rfl⟩

section Name

variable (name : IsTextName ws) (h : s.ahead i = ws ++ cs) (stop : CharClass.alnum.hasOpt cs.head? = false)

include name h stop

theorem modifiers_of_textName : modifiers s i = .ok [] i := by
  have split : s.ahead i = ws.takeWhile CharClass.alpha.has ++ (ws.dropWhile CharClass.alpha.has ++ cs) := by
    rw [h, ← List.append_assoc, List.takeWhile_append_dropWhile]
  refine modifiers_of_letters (fun c place => List.mem_takeWhile_imp place) ?_ name.noModifier split ?_
  · obtain ⟨w, rest, rfl, letter, -⟩ := name.cons
    simp [letter]
  · have next := List.head?_dropWhile_not CharClass.alpha.has ws
    cases left : ws.dropWhile CharClass.alpha.has with
    | nil => exact not_alpha_of_not_alnum stop
    | cons c rest => simpa [left] using next

/-- Only after `py` are digits read as part of a name, and there the name goes on with them. -/
theorem typedName_of_textName : typedName s i = .ok (String.ofList ws) (i + ws.length) := by
  have peekTwo := Scan.peekRun_of_ahead 2 h
  obtain ⟨w, rest, same, letter, -, noMark, noSubstitute⟩ := name.cons
  have front : s.ahead i = w :: (rest ++ cs) := by rw [h, same, List.cons_append]
  rw [typedName_of_letter front letter noMark noSubstitute, Scan.bind_of_ok peekTwo]
  by_cases python : ['p', 'y'] <+: ws
  · have two : ((ws ++ cs).take 2).takeWhile (· != '\n') = ['p', 'y'] := by
      obtain ⟨more, rfl⟩ := python
      rfl
    rw [two]
    exact Scan.takeClass_of_ahead .alnum h name.chars stop
  · have other : (String.ofList (((ws ++ cs).take 2).takeWhile (· != '\n')) == "py") = false := by
      rw [beq_eq_false_iff_ne]
      intro equal
      have two := congrArg String.toList equal
      rw [String.toList_ofList] at two
      exact python (python_of_two name.some stop two)
    have taken := Scan.takeClass_of_ahead .alpha h (name.letters python) (not_alpha_of_not_alnum stop)
    have noFlag := name.noFlag
    simp only [other, Bool.false_eq_true, if_false, Scan.bind_of_ok (Scan.tell_apply s i), Scan.bind_of_ok taken,
      noFlag]
    rfl

theorem command_of_textName (known : UserNames) (found : Command.lookup neovim ws = some command) :
    Statement.command neovim known s i = .ok (some command, known) (i + ws.length) := by
  have typed := typedName_of_textName name h stop
  obtain ⟨w, rest, rfl, -, small, -⟩ := name.cons
  exact command_of_typed typed small known found

end Name

/-! ### The lines -/

/-- A line end is in no class. -/
theorem hasOpt_head_line {kind : CharClass} {xs : List Char} (other : kind.hasOpt xs.head? = false) (cs : List Char) :
    kind.hasOpt (xs ++ '\n' :: cs).head? = false := by
  cases xs with
  | nil => exact kind.has_newline
  | cons x xs => exact other

/-- What `linesUpTo` does with one line. -/
def lineTurn (marker : String) (lines : List String) : Scan (Turn (List String) (List String)) := do
  if (← Scan.peek).isNone then return .done lines
  else
    let line ← Scan.takeLine
    if line == marker then return .done (lines ++ [line])
    else
      let _ ← Scan.next
      return .again (lines ++ [line])

theorem linesUpTo_eq (marker : String) (lines : List String) : linesUpTo marker lines = loop lines (lineTurn marker) :=
  rfl

variable {l : String}

theorem lineTurn_of_line (marker : String) (h : s.ahead i = l.toList ++ '\n' :: cs) (line : '\n' ∉ l.toList)
    (taken : List String) :
    lineTurn marker taken s i =
      if l = marker then .ok (.done (taken ++ [l])) (i + l.toList.length)
      else .ok (.again (taken ++ [l])) (i + l.toList.length + 1) := by
  have some : (l.toList ++ '\n' :: cs).head?.isNone = false := by simp
  have whole := takeLine_of_ahead h line (by simp)
  have next := Scan.next_of_cons (Source.ahead_of_append h)
  simp only [lineTurn, Scan.bind_of_ok (Scan.peek_of_ahead h), some, Bool.false_eq_true, if_false,
    Scan.bind_of_ok whole, String.ofList_toList, beq_iff_eq]
  by_cases same : l = marker
  · rw [if_pos same, if_pos same]
    rfl
  · rw [if_neg same, if_neg same, Scan.bind_of_ok next]
    rfl

theorem lineTurn_of_end (marker : String) (h : s.ahead i = []) (taken : List String) :
    lineTurn marker taken s i = .ok (.done taken) i := by
  rw [lineTurn, Scan.bind_of_ok (Scan.peek_of_ahead h)]
  rfl

open Source (layout)

/-- Lines other than the marker are taken one after the other, whatever they hold. -/
theorem rounds_of_lines {taken found : List String} (whole : ∀ l ∈ b, '\n' ∉ l.toList) (others : marker ∉ b)
    (h : s.ahead i = layout (b.map String.toList) ++ cs)
    (rest : Rounds (lineTurn marker) s (taken ++ b) (i + (layout (b.map String.toList)).length) found j) :
    Rounds (lineTurn marker) s taken i found j := by
  induction b generalizing taken i with
  | nil => simpa [layout] using rest
  | cons l b ih =>
    rw [List.map_cons, Source.layout_cons] at h rest
    have front : s.ahead i = l.toList ++ '\n' :: (layout (b.map String.toList) ++ cs) := by simpa using h
    have behind := Source.ahead_of_cons (Source.ahead_of_append front)
    have first : l ≠ marker := (List.ne_of_not_mem_cons others).symm
    have later : marker ∉ b := List.not_mem_of_not_mem_cons others
    have turn := lineTurn_of_line marker front (whole l (by simp)) taken
    rw [if_neg first] at turn
    -- Every line moves the cursor on, an empty one past its end, so that the bound of the repetition is not met.
    have within := Source.lt_size_of_cons (Source.ahead_of_append front)
    refine .turn turn (by omega) (by omega) (ih (fun l place => whole l (by simp [place])) later behind ?_)
    simpa [Nat.add_assoc, Nat.add_comm, Nat.add_left_comm] using rest

variable {tail : List String}

/-- The lines are taken up to the marker's line, or to the end of the buffer where there is none, and nothing is left of
the last line but its end. -/
theorem linesUpTo_of_lines (whole : ∀ l ∈ b, '\n' ∉ l.toList) (others : marker ∉ b) (line : '\n' ∉ marker.toList)
    (h : s.ahead i = layout ((b ++ tail).map String.toList) ++ cs) (ends : tail = [marker] ∨ tail = [] ∧ cs = [])
    (taken : List String) :
    ∃ k, linesUpTo marker taken s i = .ok (taken ++ b ++ tail) k ∧
      trail s k = .ok [] (i + (layout ((b ++ tail).map String.toList)).length) := by
  rw [List.map_append, Source.layout_append, List.append_assoc] at h
  rw [List.map_append, Source.layout_append, List.length_append, ← Nat.add_assoc, linesUpTo_eq]
  have behind := Source.ahead_of_append h
  -- The end of the marker's line is left for what follows the command; that of a last line without marker is not.
  rcases ends with rfl | ⟨rfl, rfl⟩
  · have front : s.ahead (i + (layout (b.map String.toList)).length) = marker.toList ++ '\n' :: cs := by
      simpa [layout] using behind
    have turn := lineTurn_of_line marker front line (taken ++ b)
    rw [if_pos rfl] at turn
    refine ⟨_, (rounds_of_lines whole others h (.last turn)).loop, ?_⟩
    rw [trail_of_stop (.inl rfl) (Source.ahead_of_append front)]
    simp [layout, Nat.add_assoc]
  · have turn := lineTurn_of_end marker behind (taken ++ b)
    refine ⟨_, by rw [List.append_nil]; exact (rounds_of_lines whole others h (.last turn)).loop, ?_⟩
    rw [trail_of_end behind]
    rfl

/-! ### The statement -/

/-- Lines from that of the command on, up to a marker. -/
def capture (marker : String) (inv : Invocation) : Scan (List Edit) := do
  Scan.seek inv.linePos.cursor
  let first ← Scan.readLine
  return commandLines inv (← linesUpTo marker [first])

theorem textLines_eq (inv : Invocation) : textLines inv = capture "." inv :=
  rfl

/-- The marker is what stands behind `<<` and blanks, or else a dot. -/
theorem foreignCode_eq {blanks word : List Char} (white : ∀ c ∈ blanks, CharClass.white.has c = true)
    (solid : CharClass.white.hasOpt word.head? = false) (line : '\n' ∉ word)
    (h : s.ahead i = '<' :: '<' :: (blanks ++ (word ++ '\n' :: cs))) (inv : Invocation) :
    ∃ k, foreignCode inv s i = capture (if word = [] then "." else String.ofList word) inv s k := by
  have operator : Scan.take 2 s i = .ok "<<" (i + 2) := Scan.take_of_ahead ['<', '<'] h (by decide)
  have split : s.ahead i = ['<', '<'] ++ (blanks ++ (word ++ '\n' :: cs)) := h
  have behind : s.ahead (i + 2) = blanks ++ (word ++ '\n' :: cs) := Source.ahead_of_append split
  have skipped := Scan.skipWhite_of_ahead blanks behind white (hasOpt_head_line solid cs)
  have marker := readLine_of_ahead (Source.ahead_of_append behind) line
  have peeked : Scan.peekRun 2 s i = .ok "<<" i := Scan.peeking_of_ok operator
  refine ⟨i + 2 + blanks.length + word.length + 1, ?_⟩
  simp only [foreignCode, Scan.bind_of_ok (Scan.skipWhite_of_solid h rfl), Scan.bind_of_ok peeked, beq_self_eq_true,
    if_true, Scan.bind_of_ok operator, Scan.bind_of_ok skipped, Scan.bind_of_ok marker]
  cases word with
  | nil => rfl
  | cons c word =>
    simp only [isEmpty_ofList_cons, Bool.false_eq_true, if_false, reduceCtorEq]
    rfl

theorem capture_of_lines (start : inv.linePos.cursor = i) (line : '\n' ∉ first.toList)
    (whole : ∀ l ∈ b, '\n' ∉ l.toList) (others : marker ∉ b) (markerLine : '\n' ∉ marker.toList)
    (h : s.ahead i = layout ((first :: (b ++ tail)).map String.toList) ++ cs)
    (ends : tail = [marker] ∨ tail = [] ∧ cs = []) (m : Nat) :
    ∃ k, capture marker inv s m = .ok (commandLines inv (first :: (b ++ tail))) k ∧
      trail s k = .ok [] (i + (layout ((first :: (b ++ tail)).map String.toList)).length) := by
  have front : s.ahead i = first.toList ++ '\n' :: (layout ((b ++ tail).map String.toList) ++ cs) := by
    rw [h, List.map_cons, Source.layout_cons, List.append_assoc, List.cons_append]
  have behind := Source.ahead_of_cons (Source.ahead_of_append front)
  have head := readLine_of_ahead front line
  rw [String.ofList_toList] at head
  obtain ⟨k, lines, ended⟩ := linesUpTo_of_lines whole others markerLine behind ends [first]
  refine ⟨k, ?_, ?_⟩
  · rw [capture, start, Scan.bind_of_ok (Scan.seek_apply i s m), Scan.bind_of_ok head, Scan.bind_of_ok lines]
    rfl
  · rw [ended, List.map_cons, Source.layout_cons, List.length_append, List.length_cons]
    congr 1
    omega

/-- The lines at the cursor are read as one command, whatever is open and on record. -/
def ReadsAsText (neovim : Bool) (command : Command) (s : Source) (i : Nat) (lines : List String) : Prop :=
  ∀ known blocks, ∃ inv, inv.placed (fun _ => .unset) = { command := some command } ∧
    read ⟨neovim, known, blocks⟩ s i = .ok ⟨commandLines inv lines, known⟩
      (i + (layout (lines.map String.toList)).length)

section Body

variable {blanks argument : List Char} (whole : ∀ l ∈ b, '\n' ∉ l.toList)
  (others : marker ∉ b) (h : s.ahead i = layout ((first :: (b ++ tail)).map String.toList) ++ cs)
  (ends : tail = [marker] ∨ tail = [] ∧ cs = [])

include whole others h ends

/-- A line whose command goes on with a capture is read along with the lines after it. -/
theorem read_of_capture (found : Command.lookup neovim ws = some command) (text : command.form.takesText = true)
    (named : first.toList = ws ++ (blanks ++ argument)) (white : ∀ c ∈ blanks, CharClass.white.has c = true)
    (solid : CharClass.white.hasOpt argument.head? = false)
    (stop : CharClass.alnum.hasOpt (blanks ++ argument).head? = false) (noBang : (blanks ++ argument).head? ≠ some '!')
    (line : '\n' ∉ argument) (markerLine : '\n' ∉ marker.toList)
    (captures : ∀ blocks inv m cs, s.ahead m = argument ++ '\n' :: cs →
      ∃ k, body blocks inv command.form s m = capture marker inv s k) :
    ReadsAsText neovim command s i (first :: (b ++ tail)) := by
  intro known blocks
  obtain ⟨plain, name⟩ := textName_of_lookup found text
  let rest := layout ((b ++ tail).map String.toList) ++ cs
  have front : s.ahead i = ws ++ (blanks ++ (argument ++ '\n' :: rest)) := by
    rw [h, List.map_cons, Source.layout_cons, named]
    simp [rest]
  have behind := Source.ahead_of_append front
  have oneLine : '\n' ∉ first.toList := by
    rw [named, List.mem_append, List.mem_append]
    rintro (place | place | place)
    · exact Scan.ne_newline_of_has (name.chars _ place) rfl
    · exact Scan.ne_newline_of_has (white _ place) rfl
    · exact line place
  let inv := plainInvocation s i (i + ws.length + blanks.length) command
  -- Wherever the argument has led the cursor, the capture goes back to the start of the line.
  obtain ⟨m, goes⟩ := captures blocks inv _ _ (Source.ahead_of_append behind)
  have start : inv.linePos.cursor = i := rfl
  obtain ⟨k, taken, ended⟩ := capture_of_lines start oneLine whole others markerLine h ends m
  have stopLine := hasOpt_head_line stop rest
  rw [List.append_assoc] at stopLine
  have noBangLine : (blanks ++ (argument ++ '\n' :: rest)).head? ≠ some '!' := by
    rw [← List.append_assoc]
    cases front : blanks ++ argument with
    | nil => simp
    | cons c rest => simpa [front] using noBang
  have noModifiers := modifiers_of_textName name front stopLine
  have typed := command_of_textName name front stopLine known found
  obtain ⟨w, more, rfl, letter, -⟩ := name.cons
  have result := read_of_command ⟨neovim, known, blocks⟩ letter front noModifiers typed plain blanks white
    (hasOpt_head_line solid rest) noBangLine behind
  refine ⟨inv, rfl, ?_⟩
  rw [result, Scan.bind_of_ok (goes.trans taken), Scan.bind_of_ok ended, List.append_nil]
  rfl

theorem read_of_foreign {language : Language} {word : List Char} (found : Command.lookup neovim ws = some command)
    (form : command.form = .foreign language) (named : first.toList = ws ++ ([' '] ++ '<' :: '<' :: (blanks ++ word)))
    (white : ∀ c ∈ blanks, CharClass.white.has c = true) (solid : CharClass.white.hasOpt word.head? = false)
    (line : '\n' ∉ word) (same : marker = if word = [] then "." else String.ofList word) :
    ReadsAsText neovim command s i (first :: (b ++ tail)) := by
  have text : command.form.takesText = true := by rw [form]; rfl
  have blank : ∀ c ∈ [' '], CharClass.white.has c = true := List.forall_mem_singleton.mpr rfl
  have oneLine : '\n' ∉ blanks ++ word := by
    rw [List.mem_append]
    rintro (place | place)
    · exact Scan.ne_newline_of_has (white _ place) rfl
    · exact line place
  have markerLine : '\n' ∉ marker.toList := by
    rw [same]
    split
    · decide
    · rwa [String.toList_ofList]
  have argument : '\n' ∉ '<' :: '<' :: (blanks ++ word) := by simpa using oneLine
  refine read_of_capture whole others h ends found text named blank rfl rfl (by simp) argument markerLine ?_
  intro blocks inv m cs ahead
  rw [form, same]
  exact foreignCode_eq white solid line (by simpa using ahead) inv

end Body

/-- A line that takes others is read along with them, whatever they hold. -/
theorem read_of_takes (takes : TakesUpTo neovim command first marker) (whole : ∀ l ∈ b, '\n' ∉ l.toList)
    (others : marker ∉ b) (h : s.ahead i = layout ((first :: (b ++ tail)).map String.toList) ++ cs)
    (ends : tail = [marker] ∨ tail = [] ∧ cs = []) : ReadsAsText neovim command s i (first :: (b ++ tail)) := by
  cases takes with
  | text found form =>
    have text : command.form.takesText = true := by
      rcases form with same | same <;> rw [same] <;> rfl
    have named : first.toList = first.toList ++ ([] ++ []) := by simp
    refine read_of_capture whole others h ends found text named (by simp) rfl rfl (by simp) (by simp) (by decide) ?_
    intro blocks inv m _ _
    have lines : body blocks inv command.form = textLines inv := by
      rcases form with same | same <;> rw [same] <;> rfl
    rw [lines, textLines_eq]
    exact ⟨m, rfl⟩
  | @unmarked name _ found form =>
    have named : (name ++ " <<").toList = name.toList ++ ([' '] ++ '<' :: '<' :: ([] ++ [])) := String.toList_append
    exact read_of_foreign whole others h ends found form named (by simp) rfl (by simp) rfl
  | @marked name marker _ found form some solid line =>
    have blank : ∀ c ∈ [' '], CharClass.white.has c = true := List.forall_mem_singleton.mpr rfl
    exact read_of_foreign whole others h ends found form (by simp) blank solid line (by simp [some])

end Statement

end VimScript
