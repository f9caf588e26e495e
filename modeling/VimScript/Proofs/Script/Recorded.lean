import VimScript.Proofs.Script.Initials
import VimScript.Proofs.Script.Structure
import VimScript.Proofs.Statement.Heads
import VimScript.Proofs.Statement.Modifiers
import VimScript.Proofs.Token.Spelling

/-!
Whether a statement leaves a trace. One that starts with more than blanks and colons hands something over to the open
blocks, with one exception: a quote at the end of its line is taken for the start of a mark and then forgotten.
-/

set_option autoImplicit false

namespace VimScript

/-- A quote with nothing after it on its line. -/
def LoneQuote (c : Char) (rest : List Char) : Prop :=
  c = '\'' ∧ ∀ d ∈ rest.head?, d = '\n'

namespace Statement

open Scan

variable {s : Source} {setting : Setting} {blocks : Blocks} {inv : Invocation} {i j k : Nat} {c d : Char}
  {rest : List Char} {found : List String}

/-! ### Commands -/

abbrev HandsOver (x : Scan (List Edit)) : Prop :=
  x.Delivers (· ≠ []) fun _ => True

theorem Heads.ne_nil {edits : List Edit} (h : Heads inv edits) : edits ≠ [] := by
  obtain ⟨e, rfl, -⟩ := h
  simp

theorem letCommand_handsOver : HandsOver (letCommand inv) := by
  have listed : HandsOver (raw inv) := raw_headed.weaken fun _ => Heads.ne_nil
  refine .past fun start => .past fun _ => .past fun c => .ite (fun _ => .past fun _ => listed) fun _ => ?_
  refine .past fun left => .past fun _ => .past fun short => .past fun long => .ite (fun _ => ?_) fun _ => ?_
  · exact .past fun _ => .past fun value => .pure (by simp)
  refine .ite (fun _ => .past fun _ => .past fun _ => .past fun read => .pure (by simp)) fun _ => ?_
  exact .ite (fun _ => .past fun _ => .past fun value => .pure (by simp)) fun _ => .past fun _ => listed

theorem body_handsOver (form : CommandForm) : HandsOver (body blocks inv form) := by
  by_cases same : form = .assign .letVar
  · subst same
    exact letCommand_handsOver
  · exact (body_headed same).weaken fun _ => Heads.ne_nil

theorem invoked_handsOver (command : Command) : HandsOver (invoked blocks inv command) := by
  have rest (inv : Invocation) : HandsOver (do
      let inv ← (do if command.has .argopt then fileOptions inv else return inv)
      let inv ← leadIn inv
      let inv ← (do if command.has .editcmd && !inv.filter then startCommand inv else return inv)
      body blocks inv command.form) :=
    .past fun _ => .past fun _ => .past fun inv => body_handsOver command.form
  refine .past fun bang => ?_
  exact .ite (fun _ => .past fun _ => .past fun position => rest _) fun _ => .past fun position => rest _

theorem comment_handsOver : HandsOver comment :=
  .past fun position => .past fun _ => .past fun text => .pure (by simp)

/-! ### What stands before a command -/

/-- The first character of a statement: no blank and no colon, and the line has not ended. -/
structure StartsWith (s : Source) (k : Nat) (c : Char) (rest : List Char) : Prop where
  ahead : s.ahead k = c :: rest
  line : c ≠ '\n'
  white : CharClass.white.has c = false
  colon : c ≠ ':'

/-- Nothing has been read from a cursor on but a lone quote. -/
def Bare (k : Nat) (c : Char) (rest : List Char) (i : Nat) : Prop :=
  i = k ∨ LoneQuote c rest ∧ i = k + 1

/-- The cursor is past a lone quote, and otherwise where it was. -/
def Past (k : Nat) (c : Char) (rest : List Char) (i : Nat) : Prop :=
  LoneQuote c rest ∧ i = k + 1 ∨ ¬LoneQuote c rest ∧ i = k

theorem Past.bare (h : Past k c rest i) : Bare k c rest i :=
  h.elim .inr fun other => .inl other.2

theorem not_loneQuote (other : c ≠ '\'') : ¬LoneQuote c rest :=
  fun lone => other lone.1

/-- On its line nothing but the first character stands at such a cursor. -/
theorem StartsWith.of_char (start : StartsWith s k c rest) (bare : Bare k c rest i) (char : s.char? i = some d)
    (line : d ≠ '\n') : i = k ∧ d = c := by
  rcases bare with rfl | ⟨lone, rfl⟩
  · rw [Source.char?_of_cons start.ahead, Option.some.injEq] at char
    exact ⟨rfl, char.symm⟩
  · rw [Source.char?_eq, Source.ahead_of_cons start.ahead] at char
    exact absurd (lone.2 d char) line

/-- What the first character is not of is not skipped there. -/
theorem StartsWith.skipWhile (start : StartsWith s k c rest) (bare : Bare k c rest i) {p : Char → Bool}
    (out : p c = false) : Scan.skipWhile p s i = .ok () i := by
  refine skipWhile_of_ahead p (List.nil_append _).symm (by simp) fun d char => ?_
  rw [← Source.char?_eq] at char
  by_cases line : d = '\n'
  · exact .inl line
  · obtain ⟨-, rfl⟩ := start.of_char bare char line
    exact .inr out

theorem StartsWith.skipWhite (start : StartsWith s k c rest) (bare : Bare k c rest i) : Scan.skipWhite s i = .ok () i :=
  start.skipWhile bare start.white

theorem StartsWith.skipWhiteAndColons (start : StartsWith s k c rest) (bare : Bare k c rest i) :
    Scan.skipWhiteAndColons s i = .ok () i :=
  start.skipWhile bare (by simp [start.white, start.colon])

/-- A list that stays empty, with the cursor at some place, as long as nothing but a lone quote is read. -/
def Collects {α : Type} (c : Char) (rest : List Char) (place : Nat → Prop) (found : List α) (i : Nat) : Prop :=
  found = [] ∧ place i ∨ found ≠ [] ∧ ¬LoneQuote c rest

@[simp] theorem collects_nil {α : Type} {place : Nat → Prop} : Collects c rest place ([] : List α) i ↔ place i := by
  simp [Collects]

theorem Collects.bare (h : Collects c rest (Past k c rest) found i) : Collects c rest (Bare k c rest) found i :=
  h.imp_left fun past => ⟨past.1, past.2.bare⟩

theorem gives_peekInLine (s : Source) (i : Nat) :
    Scan.peekInLine.Gives s i fun c j => i = j ∧ ∀ d, c = some d ↔ s.char? i = some d ∧ d ≠ '\n' := by
  intro c j run
  obtain ⟨rfl, rfl⟩ := Reply.ok.inj run
  exact ⟨rfl, fun d => by simp [Option.filter_eq_some_iff]⟩

theorem StartsWith.not_lone (start : StartsWith s k c rest) (bare : Bare k c rest i) (char : s.char? i = some d)
    (line : d ≠ '\n') (other : d ≠ '\'') : ¬LoneQuote c rest := by
  obtain ⟨-, rfl⟩ := start.of_char bare char line
  exact fun lone => other lone.1

theorem takeInteger_collects (start : StartsWith s k c rest) (bare : Bare k c rest i) :
    takeInteger.Gives s i fun number j =>
      number.isEmpty = true ∧ j = i ∨ number.isEmpty = false ∧ ¬LoneQuote c rest := by
  refine Gives.bind (q := fun sign j => sign = "" ∧ j = i ∨ sign.isEmpty = false ∧ ¬LoneQuote c rest) ?_ ?_
  · refine (gives_peekInLine s i).bind ?_
    rintro char _ ⟨rfl, inLine⟩
    have signed {d : Char} (here : char = some d) (other : d ≠ '\'') :
        (Scan.take 1).Gives s i fun sign j => sign = "" ∧ j = i ∨ sign.isEmpty = false ∧ ¬LoneQuote c rest := by
      obtain ⟨found, line⟩ := (inLine d).mp here
      obtain ⟨place, rfl⟩ := start.of_char bare found line
      have ahead : s.ahead i = d :: rest := place ▸ start.ahead
      refine (Token.gives_take_of_ahead [d] ahead (by simpa using line.symm) 1 rfl).mono ?_
      rintro sign j ⟨rfl, -⟩
      exact .inr ⟨by simp, fun lone => other lone.1⟩
    split
    · exact signed rfl (by decide)
    · exact signed rfl (by decide)
    · exact .pure (.inl ⟨rfl, rfl⟩)
  · rintro sign j (⟨rfl, rfl⟩ | ⟨some, other⟩)
    · refine (gives_takeClass .digit s j).bind ?_
      rintro _ l ⟨digits, rfl, spans, decimal, -⟩
      cases digits with
      | nil => exact .pure (.inl ⟨by simp, spans.cursor⟩)
      | cons d digits =>
        have digit := decimal d (by simp)
        have char := Source.char?_of_cons spans.ahead
        refine .pure (.inr ⟨by simp, start.not_lone bare char (ne_newline_of_has digit) ?_⟩)
        rintro rfl
        exact absurd digit (by decide)
    · refine .step fun digits _ _ => .pure (.inr ⟨?_, other⟩)
      rw [String.isEmpty_eq_false_iff] at some ⊢
      simp [some]

theorem offsets_collects (start : StartsWith s k c rest) (kept : Collects c rest (Past k c rest) found i) :
    (offsets found).Gives s i (Collects c rest (Past k c rest)) := by
  refine .loop (Collects c rest (Past k c rest)) kept fun found i kept => ?_
  rcases kept with ⟨rfl, past⟩ | ⟨some, other⟩
  · refine .after (start.skipWhite past.bare) ((takeInteger_collects start past.bare).bind ?_)
    rintro number j (⟨empty, rfl⟩ | ⟨some, other⟩)
    · rw [if_pos empty]
      exact .pure (.inl ⟨rfl, past⟩)
    · rw [if_neg (by simp [some])]
      exact .pure (.inr ⟨by simp, other⟩)
  · refine .step fun _ _ _ => .step fun number _ _ => .ite (fun _ => .pure (.inr ⟨some, other⟩)) fun _ => ?_
    exact .pure (.inr ⟨by simp, other⟩)

/-- Before the end of the line a quote is no mark, and is not kept. -/
theorem mark_collects (start : StartsWith s k '\'' rest) :
    Gives (do
      let _ ← Scan.take 1
      let mark ← Scan.take 1
      return if mark.isEmpty then [] else ["'" ++ mark]) s k (Collects '\'' rest (Past k '\'' rest)) := by
  refine (Token.gives_take_of_ahead ['\''] start.ahead (by decide) 1 rfl).bind ?_
  rintro _ l ⟨-, quote⟩
  have after : s.ahead l = rest := by rw [quote.cursor, Source.ahead_of_append start.ahead]
  refine (gives_take 1 s l).bind ?_
  rintro _ j ⟨mark, rfl, spans, line, -, stop⟩
  cases mark with
  | nil =>
    obtain rfl : j = l := spans.cursor
    have lone : LoneQuote '\'' rest := ⟨rfl, by simpa [after] using stop⟩
    exact .pure (.inl ⟨rfl, .inl ⟨lone, quote.cursor⟩⟩)
  | cons d mark =>
    have first : rest.head? = some d := by rw [← after, spans.ahead]; rfl
    exact .pure (.inr ⟨by simp, fun lone => line (by simp [lone.2 d first])⟩)

theorem addressBase_collects (start : StartsWith s k c rest) (bare : Bare k c rest i) :
    addressBase.Gives s i (Collects c rest (Past k c rest)) := by
  refine (gives_peekInLine s i).bind ?_
  rintro char _ ⟨rfl, inLine⟩
  have other {d : Char} (here : char = some d) (plain : d ≠ '\'') : ¬LoneQuote c rest := by
    obtain ⟨found, line⟩ := (inLine d).mp here
    exact start.not_lone bare found line plain
  split
  · exact .step fun _ _ _ => .pure (.inr ⟨by simp, other rfl (by decide)⟩)
  · exact .step fun _ _ _ => .pure (.inr ⟨by simp, other rfl (by decide)⟩)
  · obtain ⟨found, line⟩ := (inLine _).mp rfl
    obtain ⟨rfl, rfl⟩ := start.of_char bare found line
    exact mark_collects start
  · exact .step fun _ _ _ => .step fun _ _ _ => .pure (.inr ⟨by simp, other rfl (by decide)⟩)
  · exact .step fun _ _ _ => .step fun _ _ _ => .pure (.inr ⟨by simp, other rfl (by decide)⟩)
  · refine .step fun second _ _ => ?_
    split
    · exact .step fun _ _ _ => .pure (.inr ⟨by simp, other rfl (by decide)⟩)
    · exact .step fun _ _ _ => .pure (.inr ⟨by simp, other rfl (by decide)⟩)
    · exact .step fun _ _ _ => .pure (.inr ⟨by simp, other rfl (by decide)⟩)
    · exact .failHere
  · rename_i noQuote _ _ _
    refine .ite (fun digit => ?_) fun _ => .pure (.inl ⟨rfl, ?_⟩)
    · cases char with
      | none => simp at digit
      | some d =>
        refine .step fun _ _ _ => .pure (.inr ⟨by simp, other rfl ?_⟩)
        rintro rfl
        exact absurd digit (by decide)
    · rcases bare with rfl | past
      · refine .inr ⟨fun lone => noQuote ?_, rfl⟩
        rw [inLine, Source.char?_of_cons start.ahead, lone.1]
        simp
      · exact .inl past

theorem address_collects (start : StartsWith s k c rest) (kept : Collects c rest (Bare k c rest) found i) :
    (address found).Gives s i (Collects c rest (Past k c rest)) := by
  refine .loop (Collects c rest (Bare k c rest)) kept fun found i kept => ?_
  -- What has been found stays found.
  have turn {found : List String} {i : Nat} (kept : Collects c rest (Past k c rest) found i) : Gives (do
      let found ← offsets found
      let c ← Scan.peek
      if c == some '/' || c == some '?' then return Turn.again found
      else return .done found) s i (Turn.Goes (Collects c rest (Bare k c rest)) (Collects c rest (Past k c rest))) := by
    refine (offsets_collects start kept).bind fun found j kept => .step fun d l peeked => ?_
    obtain ⟨-, rfl⟩ := Reply.ok.inj peeked
    exact .ite (fun _ => .pure kept.bare) fun _ => .pure kept
  rcases kept with ⟨rfl, bare⟩ | ⟨some, other⟩
  · refine .after (start.skipWhite bare) ((addressBase_collects start bare).bind fun base j kept => ?_)
    exact turn kept
  · exact .step fun _ _ _ => .step fun base _ _ => turn (.inr ⟨by simp [some], other⟩)

theorem Collects.not_lone (h : Collects c rest (Past k c rest) found i) (start : StartsWith s k c rest)
    (char : s.char? i = some d) (line : d ≠ '\n') (other : d ≠ '\'') : ¬LoneQuote c rest := by
  rcases h with ⟨-, past⟩ | ⟨-, already⟩
  · exact start.not_lone past.bare char line other
  · exact already

theorem range_collects (start : StartsWith s k c rest) : range.Gives s k (Collects c rest (Past k c rest)) := by
  refine .loop (Collects c rest (Bare k c rest)) (.inl ⟨rfl, .inl rfl⟩) fun found i kept => ?_
  refine (address_collects start kept).bind fun found j kept => ?_
  refine Gives.bind (q := fun whole l => Collects c rest (Past k c rest) (found ++ whole) l) ?_ fun whole l kept => ?_
  · refine (gives_peekInLine s j).bind ?_
    rintro char _ ⟨rfl, inLine⟩
    have sign {d : Char} (here : char = some d) (other : d ≠ '\'') :
        Gives (do return [← Scan.take 1]) s j fun whole l => Collects c rest (Past k c rest) (found ++ whole) l := by
      obtain ⟨char, line⟩ := (inLine d).mp here
      exact .step fun _ _ _ => .pure (.inr ⟨by simp, kept.not_lone start char line other⟩)
    split
    · exact sign rfl (by decide)
    · exact sign rfl (by decide)
    · exact .pure (by rwa [List.append_nil])
  · refine (gives_peekInLine s l).bind ?_
    rintro char _ ⟨rfl, inLine⟩
    have separator {d : Char} (here : char = some d) (other : d ≠ '\'') :
        Gives (do return (Turn.again (found ++ whole ++ [← Scan.take 1]) : Turn _ (List String))) s l
          (Turn.Goes (Collects c rest (Bare k c rest)) (Collects c rest (Past k c rest))) := by
      obtain ⟨char, line⟩ := (inLine d).mp here
      exact .step fun _ _ _ => .pure (.inr ⟨by simp, kept.not_lone start char line other⟩)
    split
    · exact separator rfl (by decide)
    · exact separator rfl (by decide)
    · exact .pure kept

theorem modifierTurn_collects {found : List Modifier} (start : StartsWith s k c rest)
    (kept : Collects c rest (· = k) found i) :
    (modifierTurn found).Gives s i (Turn.Goes (Collects c rest (· = k)) (Collects c rest (· = k))) := by
  -- At a quote there are no digits and no letters.
  refine .after (tell_apply s i) ?_
  refine .bind (q := fun _ j => LoneQuote c rest → found = [] → j = k) ?_ fun digits j stays => ?_
  · refine (gives_peekInLine s i).bind ?_
    rintro char _ ⟨rfl, inLine⟩
    refine .ite (fun digit => .step fun _ _ _ => .step fun _ _ _ => .pure ?_) fun _ => .pure ?_
    · rintro lone rfl
      obtain rfl : i = k := collects_nil.mp kept
      cases char with
      | none => simp at digit
      | some d =>
        obtain ⟨found, line⟩ := (inLine d).mp rfl
        obtain ⟨-, rfl⟩ := start.of_char (.inl rfl) found line
        rw [lone.1] at digit
        exact absurd digit (by decide)
    · rintro - rfl
      exact collects_nil.mp kept
  refine (gives_takeClass .alpha s j).bind ?_
  rintro _ l ⟨letters, rfl, spans, alpha, -⟩
  refine .step fun after _ _ => .step fun _ _ _ => ?_
  split
  · exact .after (seek_apply ..) (.pure kept)
  · rename_i name known
    refine .ite (fun _ => .after (seek_apply ..) (.pure kept)) fun _ => .step fun modifier _ _ => ?_
    refine .pure (.inr ⟨by simp, ?_⟩)
    rcases kept with ⟨rfl, -⟩ | ⟨-, other⟩
    · intro lone
      obtain rfl := stays lone rfl
      cases letters with
      | nil => simp [modifierName?_empty] at known
      | cons x letters =>
        have letter := alpha x (by simp)
        obtain ⟨-, rfl⟩ := start.of_char (.inl rfl) (Source.char?_of_cons spans.ahead) (ne_newline_of_has letter)
        rw [lone.1] at letter
        exact absurd letter (by decide)
    · exact other

/-- Modifiers start with a digit or a letter; without one the cursor stays. -/
theorem modifiers_collect (start : StartsWith s k c rest) :
    modifiers.Gives s k (Collects c rest (· = k)) := by
  rw [modifiers_eq]
  exact .loop (Collects c rest (· = k)) (.inl ⟨rfl, rfl⟩) fun found i kept =>
    modifierTurn_collects start kept

/-! ### The statement -/

/-- A line that ends after modifiers or a range is recorded, and so is a command. -/
theorem commandPart_handsOver
    (solid : inv.modifiers ≠ [] ∨ inv.range ≠ [] ∨ StartsWith s i c rest ∧ c ≠ '"') :
    (commandPart setting inv).Gives s i fun effect _ => effect.edits ≠ [] := by
  refine .step fun _ l skipped => .after (here_apply s l) ((gives_peekInLine s l).bind ?_)
  rintro char _ ⟨rfl, inLine⟩
  refine .ite (fun ended => .ite (fun nothing => ?_) fun _ => ?_) fun _ => .step fun found _ _ => ?_
  · simp only [Bool.and_eq_true, List.isEmpty_iff] at nothing
    rcases solid with modifiers | range | ⟨start, plain⟩
    · exact absurd nothing.1 modifiers
    · exact absurd nothing.2 range
    · rw [start.skipWhiteAndColons (.inl rfl)] at skipped
      obtain ⟨-, rfl⟩ := Reply.ok.inj skipped
      rw [(inLine c).mpr ⟨Source.char?_of_cons start.ahead, start.line⟩] at ended
      exact absurd ended (by simpa using plain)
  · exact .step fun edits _ run => .pure ((commandUpTo_headed _).of_ok run).ne_nil
  · obtain ⟨_ | command, names⟩ := found
    · exact .step fun _ _ _ => .step fun _ _ _ => .fail
    · exact .step fun edits _ run => .pure ((invoked_handsOver command).of_ok run)

theorem StartsWith.lineEnd (start : StartsWith s k c rest) (lone : LoneQuote c rest) :
    Scan.peekInLine s (k + 1) = .ok none (k + 1) := by
  rw [peekInLine_of_ahead (Source.ahead_of_cons start.ahead), Option.filter_eq_none_iff.mpr]
  simpa using lone.2

theorem trail_of_lone (start : StartsWith s k c rest) (lone : LoneQuote c rest) :
    trail.Gives s (k + 1) fun edits _ => edits = [] := by
  refine .after (start.skipWhite (.inr ⟨lone, rfl⟩)) (.after (peek_of_ahead (Source.ahead_of_cons start.ahead)) ?_)
  cases first : rest.head? with
  | none => exact .pure rfl
  | some d =>
    rw [lone.2 d first]
    exact .step fun _ _ _ => .pure rfl

/-- Nothing comes of a lone quote, and something of all else. -/
def Recorded (c : Char) (rest : List Char) (effect : Effect) : Prop :=
  LoneQuote c rest ∧ effect.edits = [] ∨ ¬LoneQuote c rest ∧ effect.edits ≠ []

theorem commandLine_recorded (start : StartsWith s k c rest) (plain : c ≠ '"') :
    (commandLine setting).Gives s k fun effect _ => Recorded c rest effect := by
  have named {inv : Invocation} {i : Nat} (other : ¬LoneQuote c rest)
      (solid : inv.modifiers ≠ [] ∨ inv.range ≠ [] ∨ StartsWith s i c rest ∧ c ≠ '"') : Gives (do
        let effect ← commandPart setting inv
        let edits ← trail
        return { effect with edits := effect.edits ++ edits }) s i fun effect _ => Recorded c rest effect := by
    refine (commandPart_handsOver solid).bind fun effect j some => .step fun edits _ _ => .pure (.inr ⟨other, ?_⟩)
    simp [some]
  refine .after (here_apply s k) ((modifiers_collect start).bind ?_)
  rintro modifiers j (⟨rfl, rfl⟩ | ⟨some, other⟩)
  · refine (range_collects start).bind ?_
    rintro range l (⟨rfl, ⟨lone, rfl⟩ | ⟨other, rfl⟩⟩ | ⟨some, other⟩)
    · refine .bind (q := fun effect l => effect.edits = [] ∧ l = j + 1) ?_ ?_
      · refine .after (start.skipWhiteAndColons (.inr ⟨lone, rfl⟩)) (.after (here_apply s (j + 1)) ?_)
        exact .after (start.lineEnd lone) (.pure ⟨rfl, rfl⟩)
      · rintro effect _ ⟨none, rfl⟩
        refine (trail_of_lone start lone).bind fun edits _ nothing => .pure (.inl ⟨lone, ?_⟩)
        simp [none, nothing]
    · exact named other (.inr (.inr ⟨start, plain⟩))
    · exact named other (.inr (.inl some))
  · exact .step fun range _ _ => named other (.inl some)

/-- A statement that starts with more than blanks and colons hands something over, unless it is a lone quote. -/
theorem read_recorded {blanks : List Char} (ahead : s.ahead i = blanks ++ c :: rest)
    (skipped : ∀ b ∈ blanks, CharClass.white.has b = true ∨ b = ':')
    (solid : CharClass.white.has c = false ∧ c ≠ ':' ∧ c ≠ '\n') (plain : ¬['#', '!'] <+: s.ahead i) :
    (read setting).Gives s i fun effect _ => Recorded c rest effect := by
  have start : StartsWith s (i + blanks.length) c rest := ⟨Source.ahead_of_append ahead, solid.2.2, solid.1, solid.2.1⟩
  refine .after (peekRun_of_ahead 2 rfl) (.ite (fun mark => ?_) fun _ => ?_)
  · have taken : ((s.ahead i).take 2).takeWhile (· != '\n') = ['#', '!'] := by
      simpa using congrArg String.toList (eq_of_beq mark)
    exact absurd (taken ▸ (List.takeWhile_prefix _).trans (List.take_prefix 2 _)) plain
  have stop : Scan.skipWhiteAndColons s i = .ok () (i + blanks.length) := by
    refine skipWhile_of_ahead _ ahead (fun b place => ⟨?_, by simpa using skipped b place⟩) (by simp [solid])
    rintro rfl
    exact absurd (skipped _ place) (by decide)
  have first : (c :: rest).head?.filter (· != '\n') = some c := by simp [solid.2.2]
  refine .after stop (.after (peekInLine_of_ahead start.ahead) ?_)
  rw [first]
  by_cases quote : c = '"'
  · subst quote
    have other : ¬LoneQuote '"' rest := fun lone => absurd lone.1 (by decide)
    exact .step fun edits _ run => .step fun _ _ _ => .pure (.inr ⟨other, comment_handsOver.of_ok run⟩)
  · have line : (commandLine setting).Gives s _ fun effect _ => Recorded c rest effect :=
      commandLine_recorded start quote
    split
    · contradiction
    · rename_i same
      exact absurd (Option.some.inj same) quote
    · exact line

end Statement

/-! ### The open blocks -/

theorem Blocks.PerformsAll.grows {blocks : Blocks} {edits : List Edit} (performs : blocks.PerformsAll edits)
    (some : edits ≠ []) : blocks.labels.length < (blocks.editAll edits).labels.length := by
  rw [performs.labels.length_eq, List.length_append]
  obtain ⟨e, edits, rfl⟩ := List.exists_cons_of_ne_nil some
  rw [List.flatMap_cons, List.length_append, Node.labels_eq, List.length_cons]
  omega

namespace Script

open Statement (UserNames Effect)

variable {neovim : Bool} {s : Source} {known names : UserNames} {blocks : Blocks} {edits : List Edit} {i j : Nat}
  {blanks rest : List Char} {c : Char} {effect : Effect}

/-- From a statement that starts with more than blanks and colons the open blocks get at least one node, by an edit
that is carried out. A lone quote alone leaves them as they were. -/
theorem Reaches.records (reached : Reaches neovim s known edits names blocks i)
    (ahead : s.ahead i = blanks ++ c :: rest)
    (skipped : ∀ b ∈ blanks, CharClass.white.has b = true ∨ b = ':')
    (solid : CharClass.white.has c = false ∧ c ≠ ':' ∧ c ≠ '\n') (plain : ¬['#', '!'] <+: s.ahead i)
    (run : Statement.read ⟨neovim, names, blocks⟩ s i = .ok effect j) :
    LoneQuote c rest ∧ blocks.editAll effect.edits = blocks ∨
      ¬LoneQuote c rest ∧ effect.edits ≠ [] ∧ blocks.PerformsAll effect.edits ∧
        blocks.labels.length < (blocks.editAll effect.edits).labels.length := by
  rcases (Statement.read_recorded ahead skipped solid plain).of_ok run with ⟨lone, nothing⟩ | ⟨other, some⟩
  · exact .inl ⟨lone, by rw [nothing]; rfl⟩
  · have performs := reached.performsAll run
    exact .inr ⟨other, some, performs, performs.grows some⟩

theorem records_echo :
    let s := Source.ofLines [": echo 1"]
    ∃ effect j, Statement.read ⟨false, [], .start (s.position 0)⟩ s 0 = .ok effect j ∧
      s.ahead 0 = [':', ' '] ++ 'e' :: "cho 1\n".toList ∧ ¬['#', '!'] <+: s.ahead 0 ∧
      effect.edits ≠ [] ∧ 1 < ((Blocks.start (s.position 0)).editAll effect.edits).labels.length := by
  intro s
  have ahead : s.ahead 0 = [':', ' '] ++ 'e' :: "cho 1\n".toList := by decide
  have plain : ¬['#', '!'] <+: s.ahead 0 := by decide
  have reads : (Statement.read ⟨false, [], .start (s.position 0)⟩ s 0).passes (fun _ => true) = true := by
    rw [Statement.read_eq_byInitial]
    decide +kernel
  obtain ⟨effect, j, run, -⟩ := Reply.exists_of_passes _ reads
  have skipped : ∀ b ∈ [':', ' '], CharClass.white.has b = true ∨ b = ':' :=
    List.forall_mem_cons.mpr ⟨.inr rfl, List.forall_mem_singleton.mpr (.inl rfl)⟩
  rcases Reaches.records .start ahead skipped (by decide) plain run with ⟨lone, -⟩ | ⟨-, recorded, -, grown⟩
  · exact absurd lone (Statement.not_loneQuote (by decide))
  · exact ⟨effect, j, run, ahead, plain, recorded, grown⟩

/-- After a lone quote the script is as empty as before it. -/
theorem not_forall_records :
    ¬∀ (neovim : Bool) (s : Source) (known names : UserNames) (edits : List Edit) (blocks : Blocks) (i j : Nat)
      (blanks rest : List Char) (c : Char) (effect : Effect),
      Reaches neovim s known edits names blocks i → s.ahead i = blanks ++ c :: rest →
      (∀ b ∈ blanks, CharClass.white.has b = true ∨ b = ':') → CharClass.white.has c = false ∧ c ≠ ':' ∧ c ≠ '\n' →
      ¬['#', '!'] <+: s.ahead i → Statement.read ⟨neovim, names, blocks⟩ s i = .ok effect j →
      blocks.editAll effect.edits ≠ blocks := by
  intro all
  have silent : (Statement.read ⟨false, [], .start ((Source.ofLines ["'"]).position 0)⟩ (.ofLines ["'"]) 0).passes
      (·.edits.isEmpty) = true := by
    decide +kernel
  obtain ⟨effect, j, run, nothing⟩ := Reply.exists_of_passes _ silent
  refine all false (.ofLines ["'"]) [] [] [] _ 0 j [] ['\n'] '\'' effect .start (by decide) (by simp) (by decide)
    (by decide) run ?_
  rw [List.isEmpty_iff.mp nothing]
  rfl

end Script

end VimScript
