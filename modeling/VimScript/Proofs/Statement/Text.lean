import VimScript.Proofs.Scan.Text
import VimScript.Proofs.Script.Initials

/-!
Reading a line with a command on it: what stands before the command's name is found missing, and the name and the
blanks after it lead to the form of the command.
-/

set_option autoImplicit false

namespace VimScript.Statement

variable {s : Source} {i k : Nat} {w c : Char} {ws cs : List Char} {neovim : Bool}

/-! ### The first letter -/

theorem ne_of_alpha (x : Char) (letter : CharClass.alpha.has w = true) (other : CharClass.alpha.has x = false) :
    w ≠ x := by
  rintro rfl
  simp [letter] at other

theorem not_white_of_alpha (letter : CharClass.alpha.has w = true) : CharClass.white.has w = false :=
  CharClass.forall_of_table (p := fun c => CharClass.white.has c = false) (by decide) letter

theorem not_digit_of_alpha (letter : CharClass.alpha.has w = true) : CharClass.digit.has w = false :=
  CharClass.forall_of_table (p := fun c => CharClass.digit.has c = false) (by decide) letter

section Letter

variable (h : s.ahead i = w :: cs) (letter : CharClass.alpha.has w = true)

include h letter

theorem peekInLine_of_letter : Scan.peekInLine s i = .ok (some w) i := by
  rw [Scan.peekInLine_of_ahead h]
  simp [ne_of_alpha '\n' letter rfl]

theorem skipWhite_of_letter : Scan.skipWhite s i = .ok () i :=
  Scan.skipWhite_of_solid h (not_white_of_alpha letter)

theorem skipWhiteAndColons_of_letter : Scan.skipWhiteAndColons s i = .ok () i := by
  have empty : s.ahead i = [] ++ w :: cs := h
  refine Scan.skipWhile_of_ahead _ empty (by simp) ?_
  intro c front
  obtain rfl : w = c := by simpa using front
  simp [not_white_of_alpha letter, ne_of_alpha ':' letter rfl]

/-- What is compared with the text at a letter but opens with another character is found to differ. -/
theorem peekRun_of_letter (n : Nat) (text : String) (other : text.toList.head? ≠ some w) :
    ∃ found, Scan.peekRun (n + 1) s i = .ok found i ∧ (found == text) = false := by
  refine ⟨_, Scan.peekRun_of_ahead (n + 1) h, ?_⟩
  have line : w ≠ '\n' := ne_of_alpha '\n' letter rfl
  rw [beq_eq_false_iff_ne]
  intro same
  rw [← same] at other
  simp [line] at other

theorem offsets_of_letter (found : List String) : offsets found s i = .ok found i := by
  refine Scan.loop_of_done ?_
  have noSign : Scan.takeInteger s i = .ok "" i := by
    have empty : s.ahead i = [] ++ w :: cs := h
    have taken := Scan.takeClass_of_ahead .digit empty (by simp) (not_digit_of_alpha letter)
    simp only [Scan.takeInteger, bind_assoc, Scan.bind_of_ok (peekInLine_of_letter h letter), Option.some.injEq,
      ne_of_alpha '-' letter rfl, ne_of_alpha '+' letter rfl, imp_self, pure_bind]
    exact Scan.bind_of_ok taken
  simp only [Scan.bind_of_ok (skipWhite_of_letter h letter), Scan.bind_of_ok noSign]
  rfl

theorem addressBase_of_letter : addressBase s i = .ok [] i := by
  simp only [addressBase, Scan.bind_of_ok (peekInLine_of_letter h letter), Option.some.injEq,
    ne_of_alpha '.' letter rfl, ne_of_alpha '$' letter rfl, ne_of_alpha '\'' letter rfl,
    ne_of_alpha '/' letter rfl, ne_of_alpha '?' letter rfl, ne_of_alpha '\\' letter rfl,
    imp_self, CharClass.hasOpt_some, not_digit_of_alpha letter]
  rfl

theorem range_of_letter : range s i = .ok [] i := by
  have noAddress : address [] s i = .ok [] i := by
    refine Scan.loop_of_done ?_
    simp only [Scan.bind_of_ok (skipWhite_of_letter h letter), Scan.bind_of_ok (addressBase_of_letter h letter),
      List.append_nil, Scan.bind_of_ok (offsets_of_letter h letter []), Scan.bind_of_ok (Scan.peek_of_ahead h), List.head?_cons]
    simp [ne_of_alpha '/' letter rfl, ne_of_alpha '?' letter rfl, Scan.pure_apply]
  refine Scan.loop_of_done ?_
  simp only [Scan.bind_of_ok noAddress, bind_assoc, Scan.bind_of_ok (peekInLine_of_letter h letter), Option.some.injEq,
    ne_of_alpha '%' letter rfl, ne_of_alpha '*' letter rfl, ne_of_alpha ';' letter rfl,
    ne_of_alpha ',' letter rfl, imp_self, pure_bind]
  rfl

end Letter

/-! ### The name of a command -/

/-- A name that is taken as it stands, letter by letter. -/
structure IsCommandName (ws : List Char) : Prop where
  letters : ∀ c ∈ ws, CharClass.alpha.has c = true
  head : ∀ w ∈ ws.head?, w.isUpper = false ∧ w ≠ 'k' ∧ w ≠ 's' ∧ w ≠ 'p'
  some : ws ≠ []
  noModifier : modifierName? (String.ofList ws) = none
  noFlag : isFlaggedDelete (String.ofList ws) = false

/-- Whether a name is one that is taken as it stands, computed. -/
def checksName (ws : List Char) : Bool :=
  ws.all CharClass.alpha.has && (ws.head?.all fun w => !w.isUpper && w != 'k' && w != 's' && w != 'p') && !ws.isEmpty &&
    modifierByInitial? (String.ofList ws) == none && !isFlaggedDelete (String.ofList ws)

theorem IsCommandName.of_checks (checks : checksName ws = true) : IsCommandName ws := by
  simp only [checksName, Bool.and_eq_true, beq_iff_eq, Bool.not_eq_true'] at checks
  obtain ⟨⟨⟨⟨letters, head⟩, some⟩, noModifier⟩, noFlag⟩ := checks
  have unmodified : modifierName? (String.ofList ws) = none := modifierName?_eq_byInitial ▸ noModifier
  refine ⟨List.all_eq_true.mp letters, ?_, List.isEmpty_eq_false_iff.mp some, unmodified, noFlag⟩
  intro w first
  rw [Option.mem_def.mp first] at head
  simpa [and_assoc] using head

theorem isShortSubstitute_of_cons (ws : List Char) (other : w ≠ 's') : isShortSubstitute (w :: ws) = false := by
  unfold isShortSubstitute
  split <;> simp_all

theorem IsCommandName.cons (name : IsCommandName ws) :
    ∃ w rest, ws = w :: rest ∧ CharClass.alpha.has w = true ∧ w.isUpper = false ∧ w ≠ 'k' ∧ w ≠ 's' ∧ w ≠ 'p' := by
  obtain ⟨w, rest, rfl⟩ := List.exists_cons_of_ne_nil name.some
  exact ⟨w, rest, rfl, name.letters w (by simp), name.head w rfl⟩

/-- What is looked at before the letters of a name are taken. -/
theorem typedName_of_letter (h : s.ahead i = w :: cs) (letter : CharClass.alpha.has w = true) (noMark : w ≠ 'k')
    (noSubstitute : w ≠ 's') :
    typedName s i = (do
      if (← Scan.peekRun 2) == "py" then Scan.takeClass .alnum
      else
        let start ← Scan.tell
        let name ← Scan.takeClass .alpha
        if isFlaggedDelete name then
          Scan.seek start
          Scan.take (name.length - 1)
        else return name) s i := by
  have line : w ≠ '\n' := ne_of_alpha '\n' letter rfl
  have noKeep : (w == 'k') = false := by simpa using noMark
  have short : isShortSubstitute (String.ofList (((w :: cs).take 5).takeWhile (· != '\n'))).toList = false := by
    rw [String.toList_ofList]
    simpa [line] using isShortSubstitute_of_cons _ noSubstitute
  have noSign : "@*!=><&~#".toList.contains w = false :=
    CharClass.forall_of_table (p := fun c => "@*!=><&~#".toList.contains c = false) (by decide) letter
  simp only [typedName, Scan.bind_of_ok (peekInLine_of_letter h letter), noKeep, if_false,
    Scan.bind_of_ok (Scan.peekRun_of_ahead 5 h), short, noSign, Bool.false_eq_true]

theorem isEmpty_ofList_cons (w : Char) (ws : List Char) : (String.ofList (w :: ws)).isEmpty = false := by
  rw [Bool.eq_false_iff, ne_eq, String.isEmpty_iff]
  intro none
  simpa using congrArg String.toList none

theorem command_of_typed (typed : typedName s i = .ok (String.ofList (w :: ws)) k) (small : w.isUpper = false)
    (known : UserNames) {found : Command} (lookup : Command.lookup neovim (w :: ws) = some found) :
    command neovim known s i = .ok (some found, known) k := by
  have user : Command.isUserName neovim (w :: ws) = false := by simp [Command.isUserName, small]
  simp only [command, Scan.bind_of_ok typed, isEmpty_ofList_cons, String.toList_ofList, user, lookup]
  rfl

/-- Letters that start no modifier are left where they are. -/
theorem modifiers_of_letters (letters : ∀ c ∈ ws, CharClass.alpha.has c = true) (some : ws ≠ [])
    (noModifier : modifierName? (String.ofList ws) = none) (h : s.ahead i = ws ++ cs)
    (stop : CharClass.alpha.hasOpt cs.head? = false) : modifiers s i = .ok [] i := by
  have taken := Scan.takeClass_of_ahead .alpha h letters stop
  obtain ⟨w, rest, rfl⟩ := List.exists_cons_of_ne_nil some
  have letter := letters w (by simp)
  refine Scan.loop_of_done ?_
  simp only [Scan.bind_of_ok (Scan.tell_apply s i), bind_assoc, Scan.bind_of_ok (peekInLine_of_letter h letter),
    CharClass.hasOpt_some, not_digit_of_alpha letter, Bool.false_eq_true, if_false, pure_bind, Scan.bind_of_ok taken,
    noModifier]
  rfl

section Name

variable (name : IsCommandName ws) (h : s.ahead i = ws ++ cs) (stop : CharClass.alpha.hasOpt cs.head? = false)

include name h stop

theorem modifiers_of_name : modifiers s i = .ok [] i :=
  modifiers_of_letters name.letters name.some name.noModifier h stop

theorem typedName_of_name : typedName s i = .ok (String.ofList ws) (i + ws.length) := by
  have taken := Scan.takeClass_of_ahead .alpha h name.letters stop
  have noFlag := name.noFlag
  obtain ⟨w, rest, rfl, letter, -, noMark, noSubstitute, noPython⟩ := name.cons
  obtain ⟨two, peekTwo, other⟩ := peekRun_of_letter h letter 1 "py" (by simpa using Ne.symm noPython)
  rw [typedName_of_letter h letter noMark noSubstitute, Scan.bind_of_ok peekTwo]
  simp only [other, Bool.false_eq_true, if_false, Scan.bind_of_ok (Scan.tell_apply s i), Scan.bind_of_ok taken, noFlag]
  rfl

theorem command_of_name (known : UserNames) {found : Command} (lookup : Command.lookup neovim ws = some found) :
    command neovim known s i = .ok (some found, known) (i + ws.length) := by
  have typed := typedName_of_name name h stop
  obtain ⟨w, rest, rfl, -, small, -⟩ := name.cons
  exact command_of_typed typed small known lookup

end Name

/-! ### From the name on -/

/-- A command that takes nothing between its name and its argument. -/
structure IsPlainCommand (command : Command) : Prop where
  noShell : (command.name != "!") = true
  noOptions : command.has .argopt = false
  noStart : command.has .editcmd = false
  noLeadIn : command.name ∉ ["write", "update", "read", "<", ">"]

/-- What is known of a plain command when its argument is read. -/
def plainInvocation (s : Source) (start argument : Nat) (command : Command) : Invocation where
  linePos := s.position start
  commandPos := s.position start
  argumentPos := s.position argument
  command := some command

theorem leadIn_of_plain {found : Command} (inv : Invocation) (plain : IsPlainCommand found)
    (same : inv.command = some found) : leadIn inv s i = .ok inv i := by
  have noLeadIn := plain.noLeadIn
  have name : inv.name = found.name := by simp [Invocation.name, same]
  unfold leadIn
  rw [name]
  split <;> simp_all [Scan.pure_apply]

section Line

variable {blanks rest : List Char} {found : Command} (setting : Setting)

theorem bang_of_other (command : Command) (position : Position) (noBang : (s.ahead i).head? ≠ some '!') :
    bang command position s i = .ok false i := by
  have other : ((s.ahead i).head?.filter (· != '\n') == some '!') = false := by
    rw [beq_eq_false_iff_ne]
    intro same
    exact noBang (Option.filter_eq_some_iff.mp same).1
  simp only [bang, Scan.bind_of_ok (Scan.peekInLine_of_ahead rfl), other]
  rfl

theorem invoked_of_plain (blocks : Blocks) (plain : IsPlainCommand found) (start : Nat) (blanks : List Char)
    (white : ∀ c ∈ blanks, CharClass.white.has c = true) (solid : CharClass.white.hasOpt rest.head? = false)
    (noBang : (blanks ++ rest).head? ≠ some '!') (h : s.ahead i = blanks ++ rest) :
    invoked blocks { linePos := s.position start, commandPos := s.position start } found s i =
      body blocks (plainInvocation s start (i + blanks.length) found) found.form s (i + blanks.length) := by
  have noMark := bang_of_other (i := i) found (s.position start) (h.symm ▸ noBang)
  have skipped := Scan.skipWhite_of_ahead blanks h white solid
  have noLeadIn := leadIn_of_plain (s := s) (i := i + blanks.length)
    (plainInvocation s start (i + blanks.length) found) plain rfl
  simp only [invoked, Scan.bind_of_ok noMark, plain.noShell, if_true, Scan.bind_of_ok skipped,
    Scan.bind_of_ok (Scan.here_apply s (i + blanks.length)), plain.noOptions, plain.noStart, Bool.false_and,
    Bool.false_eq_true, if_false, pure_bind]
  exact Scan.bind_of_ok noLeadIn

/-- A line comes to what its command does from the blanks after its name on. -/
theorem commandPart_of_command (letter : CharClass.alpha.has w = true) (front : s.ahead i = w :: cs)
    (named : command setting.neovim setting.known s i = .ok (some found, setting.known) k)
    (plain : IsPlainCommand found) (blanks : List Char) (white : ∀ c ∈ blanks, CharClass.white.has c = true)
    (solid : CharClass.white.hasOpt rest.head? = false) (noBang : (blanks ++ rest).head? ≠ some '!')
    (h : s.ahead k = blanks ++ rest) :
    commandPart setting { linePos := s.position i } s i = (do
      let edits ← body setting.blocks (plainInvocation s i (k + blanks.length) found) found.form
      return (⟨edits, setting.known⟩ : Effect)) s (k + blanks.length) := by
  have run := invoked_of_plain setting.blocks plain i blanks white solid noBang h
  have noComment : (some w == some '"') = false := by simpa using ne_of_alpha '"' letter rfl
  simp only [commandPart, Scan.bind_of_ok (skipWhiteAndColons_of_letter front letter),
    Scan.bind_of_ok (Scan.here_apply s i), Scan.bind_of_ok (peekInLine_of_letter front letter), Option.isNone_some,
    noComment, Bool.false_or, Bool.false_eq_true, if_false, Scan.bind_of_ok named]
  rw [Scan.bind_apply, run, Scan.bind_apply]

theorem read_of_command (letter : CharClass.alpha.has w = true) (front : s.ahead i = w :: cs)
    (noModifiers : modifiers s i = .ok [] i)
    (named : command setting.neovim setting.known s i = .ok (some found, setting.known) k)
    (plain : IsPlainCommand found) (blanks : List Char) (white : ∀ c ∈ blanks, CharClass.white.has c = true)
    (solid : CharClass.white.hasOpt rest.head? = false) (noBang : (blanks ++ rest).head? ≠ some '!')
    (h : s.ahead k = blanks ++ rest) :
    read setting s i = (do
      let edits ← body setting.blocks (plainInvocation s i (k + blanks.length) found) found.form
      let more ← trail
      return (⟨edits ++ more, setting.known⟩ : Effect)) s (k + blanks.length) := by
  have part := commandPart_of_command setting letter front named plain blanks white solid noBang h
  obtain ⟨two, peekTwo, noShebang⟩ := peekRun_of_letter front letter 1 "#!" (by
    simpa using (ne_of_alpha '#' letter rfl).symm)
  have noComment : w ≠ '"' := ne_of_alpha '"' letter rfl
  simp only [read, Scan.bind_of_ok peekTwo, noShebang, Bool.false_eq_true, if_false,
    Scan.bind_of_ok (skipWhiteAndColons_of_letter front letter), Scan.bind_of_ok (peekInLine_of_letter front letter),
    Option.some.injEq, noComment, imp_self, commandLine, Scan.bind_of_ok (Scan.here_apply s i),
    Scan.bind_of_ok noModifiers, Scan.bind_of_ok (range_of_letter front letter)]
  rw [Scan.bind_apply, part, Scan.bind_apply, Scan.bind_apply]
  cases body setting.blocks (plainInvocation s i (k + blanks.length) found) found.form s (k + blanks.length) <;> rfl

/-- What a line comes to is up to the form of its command. -/
theorem read_of_name (name : IsCommandName ws) (plain : IsPlainCommand found)
    (lookup : Command.lookup setting.neovim ws = some found) (blanks : List Char)
    (white : ∀ c ∈ blanks, CharClass.white.has c = true) (solid : CharClass.white.hasOpt rest.head? = false)
    (stop : CharClass.alpha.hasOpt (blanks ++ rest).head? = false) (noBang : (blanks ++ rest).head? ≠ some '!')
    (h : s.ahead i = ws ++ (blanks ++ rest)) :
    read setting s i = (do
      let edits ← body setting.blocks (plainInvocation s i (i + ws.length + blanks.length) found) found.form
      let more ← trail
      return (⟨edits ++ more, setting.known⟩ : Effect)) s (i + ws.length + blanks.length) := by
  have noModifiers := modifiers_of_name name h stop
  have named := command_of_name name h stop setting.known lookup
  have behind := Source.ahead_of_append h
  obtain ⟨w, ws, rfl, letter, -⟩ := name.cons
  exact read_of_command setting letter h noModifiers named plain blanks white solid noBang behind

end Line

/-! ### What follows the command -/

theorem trail_of_stop (stop : c = '\n' ∨ c = '|') (h : s.ahead i = c :: cs) : trail s i = .ok [] (i + 1) := by
  have solid : CharClass.white.hasOpt (c :: cs).head? = false := by
    rcases stop with rfl | rfl <;> rfl
  rw [trail, Scan.bind_of_ok (Scan.skipWhite_of_solid h solid), Scan.bind_of_ok (Scan.peek_of_ahead h)]
  rcases stop with rfl | rfl <;> rfl

theorem trail_of_end (h : s.ahead i = []) : trail s i = .ok [] i := by
  rw [trail, Scan.bind_of_ok (Scan.skipWhite_of_solid h rfl), Scan.bind_of_ok (Scan.peek_of_ahead h)]
  rfl

/-- Where a command may end, nothing is wrong with what follows it, and a bar or a line end is passed over. -/
theorem trail_of_stops (ends : ∀ c ∈ (s.ahead i).head?, c = '\n' ∨ c = '|') :
    trail s i = .ok [] (if i < s.size then i + 1 else i) := by
  have length := Source.length_ahead s i
  cases front : s.ahead i with
  | nil =>
    rw [front, List.length_nil] at length
    rw [if_neg (by omega), trail_of_end front]
  | cons c cs =>
    have stop := ends c (by rw [front]; rfl)
    rw [front, List.length_cons] at length
    rw [if_pos (by omega), trail_of_stop stop front]

theorem trail_of_lineEnd (ends : ∀ c ∈ (s.ahead i).head?, c = '\n') :
    trail s i = .ok [] (if i < s.size then i + 1 else i) :=
  trail_of_stops fun c first => .inl (ends c first)

end VimScript.Statement
