import VimScript.Proofs.Statement.Accounts

/-!
How a heredoc is read: the words of its head, what ends the line of its head, and the lines up to the marker. What ends
a command is looked for after the marker's first mention, so that a bar there ends the head before its line does.
-/

set_option autoImplicit false

namespace VimScript

/-- Words behind blanks, one after another. -/
inductive WordsIn : List Char → List String → Prop where
  | nil : WordsIn [] []
  | concat {xs ws : List Char} {word : String} {words : List String} (before : WordsIn xs words)
      (blank : ∀ c ∈ ws, CharClass.white.has c = true) (apart : words = [] ∨ ws ≠ []) :
      WordsIn (xs ++ ws ++ word.toList) (words ++ [word])

/-- Blanks may be added before the first word. -/
theorem WordsIn.behind {ws xs : List Char} {words : List String} (blank : ∀ c ∈ ws, CharClass.white.has c = true)
    (h : WordsIn xs words) (some : words ≠ []) : WordsIn (ws ++ xs) words := by
  induction h with
  | nil => contradiction
  | @concat xs gap word words before white apart ih =>
    by_cases first : words = []
    · subst first
      obtain rfl : xs = [] := by
        generalize none : ([] : List String) = ns at before
        cases before with
        | nil => rfl
        | concat => simp at none
      have all : ∀ c ∈ ws ++ gap, CharClass.white.has c = true := List.forall_mem_append.mpr ⟨blank, white⟩
      have first : WordsIn ([] ++ (ws ++ gap) ++ word.toList) ([] ++ [word]) := .concat .nil all (.inl rfl)
      simpa using first
    · have more : WordsIn (ws ++ xs ++ gap ++ word.toList) (words ++ [word]) := .concat (ih first) white apart
      simpa using more

/-- The options of a heredoc and its marker. Only options start with a small letter. -/
structure IsHeredocHead (options : List String) (marker : String) : Prop where
  options : ∀ o ∈ options, IsHeredocWord o ∧ o.toList.head?.any Char.isLower = true
  word : IsHeredocWord marker
  other : marker.toList.head?.any Char.isLower = false

/-- Lines from one cursor to another, each with its end and none of them the marker, and then a line that is the marker. -/
structure Source.MarkedLines (s : Source) (i : Nat) (marker : String) (lines : List String) (j : Nat) : Prop where
  spans : s.Spans i (lines.flatMap (fun l => l.toList ++ ['\n']) ++ marker.toList) j
  whole : ∀ l ∈ lines, '\n' ∉ l.toList
  other : marker ∉ lines
  ends : ∀ c ∈ (s.ahead j).head?, c = '\n'

/-- What is taken at a place of a line that is not blank: a bar, or else the line. -/
def Source.afterTrail (s : Source) (i q : Nat) : Nat :=
  if s.char? q = some '|' then q + 1 else Statement.lineEnd s i + 1

/-- A heredoc behind its operator. After its words something else stands on their line at one cursor, or nothing, and
the lines end at another. -/
structure Source.HeredocAt (s : Source) (i : Nat) (options : List String) (marker : String) (lines : List String)
    (q j : Nat) : Prop where
  words : IsHeredocHead options marker
  head : ∃ xs ws, WordsIn xs (options ++ [marker]) ∧ (∀ c ∈ ws, CharClass.white.has c = true) ∧ s.Spans i (xs ++ ws) q
  solid : CharClass.white.hasOpt (s.ahead q).head? = false
  line : q ≤ Statement.lineEnd s i
  lines : s.MarkedLines (s.afterTrail i q) marker lines j

/-- A `:let` of a heredoc whose operator stands on the line of one cursor, and whose lines end at another. -/
inductive Source.AssignsLines (s : Source) (i : Nat) : Node → Nat → Prop where
  | intro {position position' : Position} {inv : Invocation} {single rest : Option Node} {items : List Node}
      {options : List String} {marker : String} {lines : List String} {k l q j : Nat} (later : i ≤ k)
      (operator : s.Spans k "=<<".toList l) (line : l ≤ Statement.lineEnd s i)
      (heredoc : s.HeredocAt l options marker lines q j) :
      AssignsLines s i
        (.mk position (.assign .letVar inv "=<<" single items rest (.mk position' (.heredoc options marker lines)))) j

theorem Source.HeredocAt.behind {s : Source} {options lines : List String} {marker : String} {ws : List Char} {i k q j : Nat}
    (h : s.HeredocAt k options marker lines q j) (blanks : s.Spans i ws k) (white : ∀ c ∈ ws, CharClass.white.has c = true)
    (onLine : k ≤ Statement.lineEnd s i) : s.HeredocAt i options marker lines q j := by
  have sameLine := Statement.lineEnd_eq_of_le (blanks.cursor ▸ Nat.le_add_right i _) onLine
  obtain ⟨xs, rest, listed, white', spans⟩ := h.head
  refine ⟨h.words, ⟨ws ++ xs, rest, listed.behind white (by simp), white', ?_⟩, h.solid, sameLine ▸ h.line, ?_⟩
  · simpa using blanks.append spans
  · simpa only [Source.afterTrail, sameLine] using h.lines

theorem Source.AssignsLines.from {s : Source} {i j k : Nat} {n : Node} (h : s.AssignsLines i n j) (later : k ≤ i)
    (line : i ≤ Statement.lineEnd s k) : s.AssignsLines k n j := by
  have sameLine := Statement.lineEnd_eq_of_le later line
  cases h with
  | intro later' operator line heredoc =>
    exact .intro (Nat.le_trans later later') operator (sameLine ▸ line) heredoc

theorem Source.AssignsLines.ends {s : Source} {i j : Nat} {n : Node} (h : s.AssignsLines i n j) :
    ∀ c ∈ (s.ahead j).head?, c = '\n' := by
  cases h with
  | intro later operator line heredoc => exact heredoc.lines.ends

namespace Statement

open Scan

variable {s : Source} {blocks : Blocks} {inv : Invocation} {edits : List Edit} {i j : Nat}

/-- The turns of the lines of a heredoc. -/
theorem markedLines_gives (marker : String) (s : Source) (i : Nat) :
    Gives (Scan.loop [] fun lines => do
      if (← Scan.peek).isNone then
        Scan.failHere (.missingEndMarker marker)
      else
        let line ← Scan.takeLine
        if line == marker then return .done lines
        else
          let _ ← Scan.next
          return .again (lines ++ [line])) s i fun lines j => s.MarkedLines i marker lines j := by
  -- Between two turns whole lines have been read, unless the buffer ended within the last one.
  refine .loop (fun lines j => s.ahead j = [] ∨ s.Spans i (lines.flatMap fun l => l.toList ++ ['\n']) j ∧
    (∀ l ∈ lines, '\n' ∉ l.toList) ∧ marker ∉ lines) (.inr ⟨.nil s i, by simp, by simp⟩) ?_
  intro lines j kept
  refine .step fun c k peeked => .ite (fun _ => .failHere) fun some => ?_
  obtain ⟨rfl, goes⟩ := ahead_ne_nil_of_peek peeked some
  obtain ⟨spans, whole, other⟩ := kept.resolve_left goes
  refine (gives_takeLine s k).bind fun line l taken => ?_
  obtain ⟨one, shown⟩ := taken
  have stop : ∀ c ∈ s.char? l, c = '\n' := by
    rw [one.cursor, String.length_toList]
    exact shown.stop
  refine .ite (fun found => ?_) fun goes => ?_
  · obtain rfl : line = marker := by simpa using found
    refine .pure ⟨spans.append one, whole, other, ?_⟩
    rwa [← Source.char?_eq]
  · have different : line ≠ marker := by simpa using goes
    refine (gives_next_of_line (spans.append one) stop).bind fun _ m broken => .pure ?_
    refine broken.imp_right fun longer => ⟨?_, ?_, ?_⟩
    · simpa using longer
    · simpa [or_imp, forall_and] using ⟨whole, shown.line⟩
    · simpa [other] using different.symm

/-- The words of a head stand one after another, and the marker is the last of them. -/
theorem heredocHead_gives (s : Source) (i : Nat) :
    heredocHead.Gives s i fun head j => head.2.isEmpty = false → IsHeredocHead head.1 head.2 ∧
      ∃ xs, WordsIn xs (head.1 ++ [head.2]) ∧ s.Spans i xs j := by
  -- A word is read up to its end, so that a blank has to follow it.
  let Keeps (options : List String) (j : Nat) : Prop :=
    (∀ o ∈ options, IsHeredocWord o ∧ o.toList.head?.any Char.isLower = true) ∧
      (options = [] ∨ CharClass.word.hasOpt (s.ahead j).head? = false) ∧ ∃ xs, WordsIn xs options ∧ s.Spans i xs j
  refine .loop Keeps ⟨by simp, .inl rfl, [], .nil, .nil s i⟩ ?_
  rintro options j ⟨words, ended, xs, listed, before⟩
  refine (gives_skipWhite s j).bind fun _ k skipped => (gives_takeClass .word s k).bind fun word l taken => ?_
  obtain ⟨ws, blanks, white, -⟩ := skipped
  obtain ⟨cs, rfl, spans, chars, stop⟩ := taken
  refine .ite (fun none => .pure fun some => by simp at some) fun some => ?_
  have isWord : IsHeredocWord (String.ofList cs) := ⟨by simpa using some, by simpa using chars⟩
  have apart : options = [] ∨ ws ≠ [] := by
    refine ended.imp_right fun ended none => ?_
    obtain ⟨c, rest, rfl⟩ := List.exists_cons_of_ne_nil (show cs ≠ [] by simpa using some)
    rw [blanks.ahead, none, spans.ahead] at ended
    simp [CharClass.hasOpt, chars c] at ended
  have listed' : WordsIn (xs ++ ws ++ cs) (options ++ [String.ofList cs]) := by
    have more : WordsIn (xs ++ ws ++ (String.ofList cs).toList) _ := .concat listed white apart
    simpa using more
  have after := (before.append blanks).append spans
  refine .ite (fun small => .pure ⟨?_, .inr stop, _, listed', after⟩) fun other => .pure fun _ => ?_
  · intro o place
    rcases List.mem_append.mp place with old | new
    · exact words o old
    · obtain rfl := List.mem_singleton.mp new
      exact ⟨isWord, small⟩
  · exact ⟨⟨words, isWord, by simpa using other⟩, _, listed', after⟩

theorem next_gives (s : Source) (i : Nat) : Scan.next.Gives s i fun _ j => s.ahead j = [] ∨ j = i + 1 := by
  intro c j run
  cases front : s.ahead i with
  | nil =>
    rw [Scan.next, Source.char?_eq, front] at run
    obtain ⟨-, rfl⟩ := Reply.ok.inj run
    exact .inl front
  | cons d ds =>
    rw [next_of_cons front] at run
    exact .inr (Reply.ok.inj run).2.symm

/-- What ends a command starts behind blanks. -/
theorem trail_from (bound : i ≤ s.size) :
    trail.Gives s i fun _ j => ∃ ws q, s.Spans i ws q ∧ (∀ c ∈ ws, CharClass.white.has c = true) ∧
      CharClass.white.hasOpt (s.ahead q).head? = false ∧ q ≤ lineEnd s i ∧ (s.ahead j = [] ∨ j = s.afterTrail i q) := by
  refine .step fun _ q skipped => ?_
  obtain ⟨ws, blanks, white, solid⟩ := gives_skipWhite s i _ _ skipped
  obtain ⟨later, onLine⟩ := Overlap.Steady.stays bound skipped
  have sameLine := lineEnd_eq_of_le later onLine
  suffices ends : Gives _ s q fun _ j => s.ahead j = [] ∨ j = s.afterTrail i q from
    ends.mono fun _ j found => ⟨ws, q, blanks, white, solid, onLine, found⟩
  refine .step fun c l peeked => ?_
  obtain ⟨char, rfl⟩ := Reply.ok.inj peeked
  have char : s.char? q = c := char
  split
  · refine .pure (.inl ?_)
    rwa [Source.char?_eq, List.head?_eq_none_iff] at char
  · refine .after (skip_apply 1 s q) (.pure (.inr ?_))
    obtain ⟨cs, front⟩ := List.head?_eq_some_iff.mp ((Source.char?_eq s q).symm.trans char)
    have last : lineEnd s q = q := by simp [lineEnd, front, Source.run]
    rw [Source.afterTrail, char, if_neg (by simp), ← sameLine, last]
  · refine .after (skip_apply 1 s q) (.pure (.inr ?_))
    rw [Source.afterTrail, char, if_pos rfl]
  · obtain ⟨cs, front⟩ := List.head?_eq_some_iff.mp ((Source.char?_eq s q).symm.trans char)
    refine .bind (q := fun _ j => j = lineEnd s i) ?_ fun _ j last => ?_
    · obtain ⟨text, taken⟩ := takeLine_eq s (q + 1)
      refine .after (here_apply s q) (.after (skip_apply 1 s q) (.after taken (.pure ?_)))
      rw [lineEnd_succ front (by decide), sameLine]
    · subst last
      refine (next_gives s _).bind fun _ j moved => .pure (moved.imp_right fun same => ?_)
      rw [Source.afterTrail, char, if_neg (by simp), same]
  · exact .failHere

/-- What is read after the operator. -/
theorem heredoc_holds (bound : i ≤ s.size) :
    (heredoc inv).Gives s i fun found j => ∃ options marker lines q,
      found.1 = .mk inv.commandPos (.heredoc options marker lines) ∧ s.HeredocAt i options marker lines q j := by
  refine .step fun head k run => .ite (fun _ => .stop .failHere) fun some => ?_
  have some : head.2.isEmpty = false := by simpa using some
  obtain ⟨words, xs, listed, before⟩ := heredocHead_gives s i _ _ run some
  obtain ⟨later, onLine⟩ := Overlap.Steady.stays bound run
  have within := (Overlap.Steady.moves bound run).2
  refine (trail_from within).bind ?_
  rintro edits l ⟨ws, q, blanks, white, solid, onLine', ends⟩
  rw [lineEnd_eq_of_le later onLine] at onLine'
  refine (markedLines_gives head.2 s l).bind fun lines j marked => .pure ⟨_, _, _, q, rfl, words, ?_, solid, onLine', ?_⟩
  · exact ⟨xs, ws, listed, white, before.append blanks⟩
  · have same : s.afterTrail k q = s.afterTrail i q := by
      rw [Source.afterTrail, Source.afterTrail, lineEnd_eq_of_le later onLine]
    rcases ends with ends | rfl
    -- At the end of the buffer there is no marker.
    · have spans := marked.spans.ahead
      rw [ends] at spans
      have none : head.2.toList = [] := (List.append_eq_nil_iff.mp (List.append_eq_nil_iff.mp spans.symm).1).2
      exact absurd none words.word.some
    · rwa [same] at marked

/-! ### Statements -/

theorem heredoc_isHeredoc (inv : Invocation) (s : Source) (i : Nat) :
    (heredoc inv).Gives s i fun found _ => found.1.IsHeredoc := by
  refine .step fun head k run => .ite (fun _ => .stop .failHere) fun some => .step fun edits l _ => ?_
  obtain ⟨words, -⟩ := heredocHead_gives s i _ _ run (by simpa using some)
  refine (markedLines_gives head.2 s l).bind fun lines j marked => .pure ?_
  exact ⟨_, _, _, _, rfl, fun o place => (words.options o place).1, words.word, marked.whole⟩

/-- A run that was peeked at stands at the cursor. -/
theorem gives_peekRun (n : Nat) (s : Source) (i : Nat) :
    (Scan.peekRun n).Gives s i fun text j => j = i ∧ (∃ rest, s.ahead i = text.toList ++ rest) ∧ '\n' ∉ text.toList := by
  intro text j run
  rw [peekRun_of_ahead n rfl] at run
  obtain ⟨rfl, rfl⟩ := Reply.ok.inj run
  rw [String.toList_ofList]
  refine ⟨rfl, ?_, fun place => by simpa using List.mem_takeWhile_imp place⟩
  obtain ⟨rest, split⟩ := (List.takeWhile_prefix _).trans (List.take_prefix n (s.ahead i))
  exact ⟨rest, split.symm⟩

theorem longOperator_gives (s : Source) (i : Nat) :
    longOperator.Gives s i fun text j => j = i ∧ (∃ rest, s.ahead i = text.toList ++ rest) ∧ '\n' ∉ text.toList := by
  refine (gives_peekRun 2 s i).bind ?_
  rintro two _ ⟨rfl, shown⟩
  exact .ite (fun _ => gives_peekRun 3 s _) fun _ => .pure ⟨rfl, shown⟩

/-- A heredoc that is handed over stands where the command does, and is read from its line on. -/
def HandsLines (s : Source) (i : Nat) (position : Position) (edits : List Edit) (j : Nat) : Prop :=
  ∀ e ∈ edits, e.node.AssignsHeredoc → e.node.position = position ∧ s.AssignsLines i e.node j

theorem Heads.handsLines {position : Position} (h : Heads inv edits) : HandsLines s i position edits j := by
  obtain ⟨e, rfl, -, -, other⟩ := h
  intro e' only assigns
  obtain rfl := List.mem_singleton.mp only
  exact absurd assigns other

theorem Commented.not_assigns {ns : List Node} (h : Commented i ns j) :
    ∀ e ∈ ns.map Edit.add, ¬e.node.AssignsHeredoc := by
  rcases h with rfl | ⟨c, rfl, comment, -⟩
  · simp
  · intro e only
    obtain rfl := List.mem_singleton.mp only
    exact Node.not_assignsHeredoc (by simp [Edit.node, comment])

theorem letCommand_handsLines (bound : i ≤ s.size) :
    (letCommand inv).Gives s i fun edits j => HandsLines s i inv.commandPos edits j := by
  have plain {x : Scan (List Edit)} (h : Headed inv x) (k : Nat) :
      x.Gives s k fun edits j => HandsLines s i inv.commandPos edits j :=
    fun edits j run => (h.of_ok run).handsLines
  have listed (k l : Nat) := plain (.past (x := Scan.seek k) fun _ => raw_headed) l
  have value (n k : Nat) (op : String) (left : Targets Node) : Gives (do
      let _ ← Scan.take n
      let value ← Expr.read
      return [assignment .letVar inv op left value]) s k fun edits j => HandsLines s i inv.commandPos edits j := by
    refine .step fun _ l _ => (Expr.read_wellFormed s l).bind fun value _ formed => .pure ?_
    have heads : Heads inv [assignment .letVar inv op left value] := by
      refine ⟨_, rfl, rfl, rfl, ?_⟩
      rintro ⟨_, _, _, _, _, _, ⟨⟩, heredoc⟩
      exact formed.type.2.2 heredoc
    exact heads.handsLines
  refine .after (tell_apply s i) (.step fun _ k₁ run₁ => .step fun c _ peeked => ?_)
  obtain ⟨-, rfl⟩ := Reply.ok.inj peeked
  refine .ite (fun _ => listed i k₁) fun _ => .step fun left k₂ run₂ => .step fun _ k₃ run₃ => ?_
  -- The target stands on the line, and so does the operator after it.
  obtain ⟨later₁, line₁⟩ := Overlap.Steady.stays bound run₁
  have within₁ := (Overlap.Steady.moves bound run₁).2
  obtain ⟨later₂, line₂⟩ := Overlap.stays_of_follows within₁
    (fun w start => (targets_follows (fun _ => target_follows) start).mono fun _ _ _ kept => kept.2.1) run₂
  have within₂ := (Gives.of_kept (targets_follows (fun _ => target_follows) (Overlap.inside_whole within₁)) _ _ run₂).2
  obtain ⟨later₃, line₃⟩ := Overlap.Steady.stays within₂ run₃
  have within₃ := (Overlap.Steady.moves within₂ run₃).2
  rw [lineEnd_eq_of_le later₂ line₂] at line₃
  rw [lineEnd_eq_of_le later₁ line₁] at line₂ line₃
  refine .step fun short k₄ peeked => (longOperator_gives s k₄).bind ?_
  rintro long _ ⟨rfl, ⟨rest, ahead⟩, noBreak⟩
  obtain rfl := (gives_peekRun 1 s k₃ _ _ peeked).1
  refine .ite (fun _ => value _ _ _ _) fun _ => .ite (fun marks => ?_) fun _ => ?_
  · obtain rfl : long = "=<<" := by simpa using marks
    have taken := take_of_ahead _ ahead noBreak
    have spans := Source.Spans.of_append ahead
    obtain ⟨later₄, line₄⟩ := Overlap.Steady.stays within₃ taken
    have within₄ := (Overlap.Steady.moves within₃ taken).2
    rw [lineEnd_eq_of_le (by omega) line₃] at line₄
    refine .after taken (.step fun _ m skipped => ?_)
    obtain ⟨later₅, line₅⟩ := Overlap.Steady.stays within₄ skipped
    obtain ⟨ws, blanks, white, -⟩ := gives_skipWhite s _ _ _ skipped
    have within₅ := (Overlap.Steady.moves within₄ skipped).2
    refine ((heredoc_gives within₅).both (heredoc_holds within₅)).bind ?_
    rintro ⟨_, _⟩ j ⟨⟨-, ns, rfl, comment⟩, options, marker, lines, q, rfl, holds⟩
    refine .pure fun e place assigns => ?_
    rcases List.mem_append.mp place with other | own
    · exact absurd assigns (comment.not_assigns e other)
    · obtain rfl := List.mem_singleton.mp own
      exact ⟨rfl, .intro (by omega) spans line₄ (holds.behind blanks white line₅)⟩
  · exact .ite (fun _ => value _ _ _ _) fun _ => listed _ _

theorem HandsLines.from {position : Position} {k : Nat} (h : HandsLines s i position edits j) (later : k ≤ i)
    (line : i ≤ lineEnd s k) : HandsLines s k position edits j := by
  intro e place assigns
  obtain ⟨same, lines⟩ := h e place assigns
  exact ⟨same, lines.from later line⟩

theorem bang_onLine (command : Command) (position : Position) (bound : i ≤ s.size) :
    (bang command position).Gives s i fun _ j => i ≤ j ∧ j ≤ lineEnd s i ∧ j ≤ s.size := by
  refine .step fun c k peeked => ?_
  obtain ⟨-, rfl⟩ := Reply.ok.inj peeked
  refine .ite (fun _ => .step fun _ j taken => .ite (fun _ => .stop .fail) fun _ => .pure ?_) fun _ => .pure ?_
  · obtain ⟨later, line⟩ := Overlap.Steady.stays bound taken
    exact ⟨later, line, (Overlap.Steady.moves bound taken).2⟩
  · exact ⟨Nat.le_refl i, le_lineEnd s i, bound⟩

theorem invoked_handsLines {command : Command} (plain : PlainArgument command) (bound : i ≤ s.size) :
    (invoked blocks inv command).Gives s i fun edits j => HandsLines s i inv.commandPos edits j := by
  by_cases sets : command.form = .assign .letVar
  -- Nothing is taken before the argument of a `:let`.
  · have plain := plain (.inr sets)
    have rest {v : Invocation} {k : Nat} (same : v.command = some command) (position : v.commandPos = inv.commandPos)
        (later : i ≤ k) (line : k ≤ lineEnd s i) (within : k ≤ s.size) : Gives (do
          let inv ← (do if command.has .argopt then fileOptions v else return v)
          let inv ← leadIn inv
          let inv ← (do if command.has .editcmd && !inv.filter then startCommand inv else return inv)
          body blocks inv command.form) s k fun edits j => HandsLines s i inv.commandPos edits j := by
      simp only [plain.noOptions, plain.noStart, Bool.false_and, Bool.false_eq_true, if_false, pure_bind, sets]
      refine .after (leadIn_of_plain v plain same) ((letCommand_handsLines within).mono fun edits j hands => ?_)
      exact position ▸ hands.from later line
    refine (bang_onLine command inv.commandPos bound).bind ?_
    rintro mark k ⟨later, line, within⟩
    rw [if_pos plain.noShell]
    refine .step fun _ l skipped => .after (here_apply s l) ?_
    obtain ⟨later', line'⟩ := Overlap.Steady.stays within skipped
    rw [lineEnd_eq_of_le later line] at line'
    exact rest rfl rfl (by omega) line' (Overlap.Steady.moves within skipped).2
  · have rest (v : Invocation) (k : Nat) : Gives (do
        let position ← Scan.here
        let inv := { v with argumentPos := position }
        let inv ← (do if command.has .argopt then fileOptions inv else return inv)
        let inv ← leadIn inv
        let inv ← (do if command.has .editcmd && !inv.filter then startCommand inv else return inv)
        body blocks inv command.form) s k fun edits j => HandsLines s i inv.commandPos edits j := by
      refine .step fun _ _ _ => .step fun _ _ _ => .step fun _ _ _ => .step fun _ _ _ => fun edits j run => ?_
      exact ((body_headed sets).of_ok run).handsLines
    refine .step fun mark k _ => .ite (fun _ => .step fun _ l _ => ?_) fun _ => ?_
    · exact rest { inv with bang := mark, command := some command } l
    · exact rest { inv with bang := mark, command := some command } k

theorem accounts_heredocs (s : Source) (blocks : Blocks) :
    Accounts s blocks Node.AssignsHeredoc fun n j => s.AssignsLines n.position.cursor n j where
  comment n comment := Node.not_assignsHeredoc (by simp [comment])
  bare n bare := by
    rintro ⟨_, _, _, _, _, _, assigns, -⟩
    obtain ⟨_, _, same, -⟩ := bare
    rw [same] at assigns
    cases assigns
  ends n j lines c first := .inl (lines.ends c first)
  command inv command i listed _ later line _ within := by
    refine (invoked_handsLines (plainArgument_of_known listed) within).mono fun edits j hands e place assigns => ?_
    obtain ⟨position, lines⟩ := (hands.from later line) e place assigns
    exact ⟨position, by rwa [position]⟩

theorem read_handsLines {setting : Setting} (bound : i ≤ s.size) :
    (read setting).Gives s i fun effect j =>
      ∀ e ∈ effect.edits, e.node.AssignsHeredoc → i ≤ e.node.position.cursor ∧
        ∃ k, s.AssignsLines e.node.position.cursor e.node k ∧ j = if k < s.size then k + 1 else k :=
  (accounts_heredocs s setting.blocks).read bound

end Statement

end VimScript
