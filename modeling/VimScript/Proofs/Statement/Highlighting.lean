import Mathlib.Logic.Relation
import VimScript.Proofs.Statement.ArgumentEnd
import VimScript.Proofs.Statement.Accounts

/-!
Where a `:syntax` ends. Its argument is followed from the start on, over patterns and values as wholes, up to the first
bar or end of a line outside of them. The character behind a pattern or a value is passed over with it, whatever it is: a
bar there ends nothing, and a slash opens nothing.
-/

set_option autoImplicit false

namespace VimScript

open Relation (ReflTransGen)

/-- The cursor behind a character of the line, and the end of a line itself. -/
def Source.behind (s : Source) (i : Nat) : Nat :=
  if (s.char? i).all (· == '\n') then i else i + 1

theorem Source.le_behind (s : Source) (i : Nat) : i ≤ s.behind i := by
  unfold behind
  split <;> omega

theorem Source.behind_of_char {s : Source} {i : Nat} {c : Char} (char : s.char? i = some c) (line : c ≠ '\n') :
    s.behind i = i + 1 := by
  simp [behind, char, line]

namespace Statement

open Scan

variable {past : Nat → Nat} {inv : Invocation} {s : Source} {q p k i j stop : Nat}

/-- The delimiter up to which a pattern or a value is read, by the character before it. -/
def closing? : Char → Option Char
  | '/' => some '/'
  | '\'' => some '\''
  | '"' => some '"'
  | '=' => some ' '
  | _ => none

/-- From one cursor to another there is a pattern or a value, with the character that opens it and the delimiter. -/
def IsUnit (s : Source) (i j : Nat) : Prop :=
  ∃ c d found, s.char? i = some c ∧ closing? c = some d ∧ pattern d s (i + 1) = .ok found j

/-- One step along an argument, over a character or over a pattern or a value. Behind the latter the argument is followed
from `past` on. -/
inductive Advances (past : Nat → Nat) (s : Source) : Nat → Nat → Prop where
  | character {p : Nat} {c : Char} (char : s.char? p = some c) (line : c ≠ '\n') (plain : closing? c = none) :
      Advances past s p (p + 1)
  | unit {p j : Nat} (unit : IsUnit s p j) : Advances past s p (past j)

/-- A cursor is outside of the patterns and values of an argument. -/
def Outside (past : Nat → Nat) (s : Source) (q p : Nat) : Prop :=
  ReflTransGen (Advances past s) q p

/-- Whether a command whose argument has patterns may end at a cursor outside of them. -/
def EndsHighlighting (s : Source) (p : Nat) : Prop :=
  s.char? p = none ∨ s.char? p = some '\n' ∨ s.char? p = some '|'

/-- What following an argument comes to, given what is made of its end: it goes up to the first end outside of patterns
and values, unless one of these is refused before. -/
inductive Highlights {α : Type} (past : Nat → Nat) (s : Source) (q : Nat) (value : Nat → α) : Reply α → Prop where
  | upTo {stop : Nat} (first : IsLeast {p | Outside past s q p ∧ EndsHighlighting s p} stop) :
      Highlights past s q value (.ok (value stop) stop)
  | refused {p j : Nat} {c d : Char} {fault : Fault} (outside : Outside past s q p)
      (before : ∀ k < p, Outside past s q k → ¬EndsHighlighting s k) (char : s.char? p = some c)
      (opens : closing? c = some d) (fails : pattern d s (p + 1) = .fail fault j) :
      Highlights past s q value (.fail fault j)

/-! ### Steps -/

theorem pattern_onward {d : Char} {found : String × Option Char} (read : pattern d s i = .ok found j) : i ≤ j := by
  have reads := (pattern_upTo_delimiter d s i).1
  rw [read] at reads
  cases reads <;> omega

theorem IsUnit.lt (h : IsUnit s i j) : i < j := by
  obtain ⟨c, d, found, -, -, read⟩ := h
  exact pattern_onward read

theorem IsUnit.opens (h : IsUnit s i j) : ∃ c d, s.char? i = some c ∧ closing? c = some d := by
  obtain ⟨c, d, found, char, opens, -⟩ := h
  exact ⟨c, d, char, opens⟩

theorem IsUnit.unique (first : IsUnit s i j) (second : IsUnit s i k) : j = k := by
  obtain ⟨c, d, found, char, opens, read⟩ := first
  obtain ⟨c', d', found', char', opens', read'⟩ := second
  obtain rfl := Option.some.inj (char.symm.trans char')
  obtain rfl := Option.some.inj (opens.symm.trans opens')
  exact (Reply.ok.inj (read.symm.trans read')).2

theorem not_ends_of_opens {c d : Char} (char : s.char? p = some c) (opens : closing? c = some d) :
    ¬EndsHighlighting s p := by
  rintro (none | newline | bar)
  · simp [none] at char
  · obtain rfl := Option.some.inj (newline.symm.trans char)
    cases opens
  · obtain rfl := Option.some.inj (bar.symm.trans char)
    cases opens

theorem Advances.lt (grows : ∀ j, j ≤ past j) (h : Advances past s p k) : p < k := by
  cases h with
  | character => exact Nat.lt_succ_self p
  | unit unit => exact Nat.lt_of_lt_of_le unit.lt (grows _)

theorem advances_rightUnique : Relator.RightUnique (Advances past s) := by
  rintro p k l left right
  cases left with
  | character char line plain =>
    cases right with
    | character => rfl
    | unit unit =>
      obtain ⟨c, d, char', opens⟩ := unit.opens
      obtain rfl := Option.some.inj (char.symm.trans char')
      simp [opens] at plain
  | unit unit =>
    cases right with
    | character char line plain =>
      obtain ⟨c, d, char', opens⟩ := unit.opens
      obtain rfl := Option.some.inj (char.symm.trans char')
      simp [opens] at plain
    | unit unit' => rw [unit.unique unit']

theorem Outside.le (grows : ∀ j, j ≤ past j) (h : Outside past s q p) : q ≤ p := by
  induction h with
  | refl => exact Nat.le_refl q
  | tail _ step ih => exact Nat.le_trans ih (Nat.le_of_lt (step.lt grows))

/-- From one cursor that is outside the argument goes to the next one. -/
theorem Outside.le_of_lt (grows : ∀ j, j ≤ past j) (here : Outside past s q p) (later : Outside past s q k) (less : p < k)
    (step : Advances past s p j) : j ≤ k := by
  -- Of two cursors that are met from one start, the argument is followed from one to the other.
  rcases ReflTransGen.total_of_right_unique advances_rightUnique here later with on | back
  · rcases ReflTransGen.cases_head on with rfl | ⟨l, first, rest⟩
    · exact absurd less (Nat.lt_irrefl p)
    · obtain rfl := advances_rightUnique first step
      exact Outside.le grows rest
  · exact absurd (Outside.le grows back) (Nat.not_le_of_lt less)

/-- Characters that open nothing are outside. -/
theorem Outside.characters (le : q ≤ p)
    (plain : ∀ k, q ≤ k → k < p → (s.char? k).any (fun c => c != '\n' && (closing? c).isNone) = true) :
    Outside past s q p := by
  induction p, le using Nat.le_induction with
  | base => exact .refl
  | succ p le ih =>
    have before := ih fun k later less => plain k later (Nat.lt_succ_of_lt less)
    obtain ⟨c, char, other⟩ : ∃ c, s.char? p = some c ∧ c ≠ '\n' ∧ closing? c = none := by
      simpa [Option.any_eq_true] using plain p le (Nat.lt_succ_self p)
    exact .tail before (.character char other.1 other.2)

/-! ### One turn -/

/-- Reads a pattern or a value with what opens it, and one character more. -/
def unitTurn (d : Char) : Scan (Turn Unit Nat) := do
  let _ ← Scan.take 1
  let _ ← pattern d
  let _ ← Scan.take 1
  return .again ()

/-- Passes over a character that opens nothing, or stops at it. -/
def plainTurn (c : Option Char) (i : Nat) : Scan (Turn Unit Nat) :=
  if endsCommand c then return .done i
  else do
    let _ ← Scan.take 1
    return .again ()

def highlightingTurn : Scan (Turn Unit Nat) := do
  let i ← Scan.tell
  let c ← Scan.peek
  (c.bind closing?).elim (plainTurn c i) unitTurn

theorem turn_eq (c : Option Char) (i : Nat) :
    (match c with
      | some '/' | some '\'' | some '"' => unitTurn (c.getD '/')
      | some '=' => unitTurn ' '
      | _ => plainTurn c i) = (c.bind closing?).elim (plainTurn c i) unitTurn := by
  split
  · rfl
  · rfl
  · rfl
  · rfl
  · rename_i slash quote double equals
    cases c with
    | none => rfl
    | some c =>
      have plain : closing? c = none := by
        unfold closing?
        split <;> simp_all
      rw [Option.bind_some, plain]
      rfl

theorem highlighting_eq (inv : Invocation) :
    highlighting inv = (do
      let stop ← Scan.loop () fun _ => highlightingTurn
      commandUpTo inv stop) := by
  unfold highlightingTurn
  simp only [← turn_eq]
  rfl

inductive HighlightingTurn (s : Source) (p : Nat) : Reply (Turn Unit Nat) → Prop where
  | stop (ends : EndsHighlighting s p) : HighlightingTurn s p (.ok (.done p) p)
  | goes {k : Nat} (step : Advances s.behind s p k) (on : ¬EndsHighlighting s p) :
      HighlightingTurn s p (.ok (.again ()) k)
  | refused {c d : Char} {fault : Fault} {j : Nat} (char : s.char? p = some c) (opens : closing? c = some d)
      (fails : pattern d s (p + 1) = .fail fault j) : HighlightingTurn s p (.fail fault j)

theorem take_one (s : Source) (i : Nat) : ∃ text, Scan.take 1 s i = .ok text (s.behind i) := by
  refine ⟨_, (take_eq 1 s i).trans (congrArg _ ?_)⟩
  rw [Source.behind, Source.char?_eq]
  cases s.ahead i with
  | nil => rfl
  | cons c cs => by_cases newline : c = '\n' <;> simp [Source.run, newline]

theorem unitTurn_makes {c d : Char} (char : s.char? p = some c) (opens : closing? c = some d) :
    HighlightingTurn s p (unitTurn d s p) := by
  have line : c ≠ '\n' := by
    rintro rfl
    cases opens
  obtain ⟨text, opened⟩ := take_one s p
  rw [Source.behind_of_char char line] at opened
  rw [unitTurn, bind_of_ok opened, bind_apply]
  have reads := (pattern_upTo_delimiter d s (p + 1)).1
  cases read : pattern d s (p + 1) with
  | ok found j =>
    obtain ⟨text, more⟩ := take_one s j
    simp only [bind_of_ok more]
    exact .goes (.unit ⟨c, d, found, char, opens, read⟩) (not_ends_of_opens char opens)
  | fail fault j => exact .refused char opens read
  | spent =>
    rw [read] at reads
    cases reads

theorem plainTurn_makes (plain : (s.char? p).bind closing? = none) :
    HighlightingTurn s p (plainTurn (s.char? p) p s p) := by
  cases char : s.char? p with
  | none => exact .stop (.inl char)
  | some c =>
    rw [char, Option.bind_some] at plain
    unfold plainTurn
    split
    · rename_i ends
      rcases endsCommand_some.mp ends with rfl | rfl | rfl
      · exact .stop (.inr (.inl char))
      · exact .stop (.inr (.inr char))
      · cases plain
    · rename_i goes
      have line : c ≠ '\n' := fun same => goes (endsCommand_some.mpr (.inl same))
      have bar : c ≠ '|' := fun same => goes (endsCommand_some.mpr (.inr (.inl same)))
      obtain ⟨text, taken⟩ := take_one s p
      rw [Source.behind_of_char char line] at taken
      rw [bind_of_ok taken]
      exact .goes (.character char line plain) (by simp [EndsHighlighting, char, line, bar])

theorem highlightingTurn_makes (s : Source) (p : Nat) : HighlightingTurn s p (highlightingTurn s p) := by
  rw [highlightingTurn, bind_of_ok (tell_apply s p), bind_of_ok (a := s.char? p) rfl]
  cases opens : (s.char? p).bind closing? with
  | none => exact plainTurn_makes opens
  | some d =>
    obtain ⟨c, char, opens⟩ := Option.bind_eq_some_iff.mp opens
    exact unitTurn_makes char opens

/-! ### All turns -/

/-- The next cursor outside is no end behind all those where the argument might have ended. -/
theorem Outside.before_step (outside : Outside s.behind s q p) (step : Advances s.behind s p j)
    (on : ¬EndsHighlighting s p) (before : ∀ k < p, Outside s.behind s q k → ¬EndsHighlighting s k) :
    ∀ k < j, Outside s.behind s q k → ¬EndsHighlighting s k := by
  intro k less here ends
  rcases Nat.lt_trichotomy k p with earlier | rfl | later
  · exact before k earlier here ends
  · exact on ends
  · exact absurd less (Nat.not_lt_of_le (outside.le_of_lt s.le_behind here later step))

theorem highlights_from (n : Nat) (outside : Outside s.behind s q p)
    (before : ∀ k < p, Outside s.behind s q k → ¬EndsHighlighting s k) (enough : s.size - p < n) :
    Highlights s.behind s q id (repeatUpTo (fun _ => highlightingTurn) n () s p) := by
  -- By the turns that are left. The cursor is outside of all units, and no end has been met before it.
  induction n generalizing p with
  | zero => omega
  | succ n ih =>
    have made := highlightingTurn_makes s p
    simp only [repeatUpTo]
    generalize highlightingTurn s p = reply at made
    cases made with
    | stop ends =>
      refine .upTo ⟨⟨outside, ends⟩, fun k met => Nat.le_of_not_lt fun less => ?_⟩
      exact before k less met.1 met.2
    | refused char opens fails => exact .refused outside before char opens fails
    | goes step on =>
      have less := step.lt s.le_behind
      have inside : p < s.size := by
        cases char : s.char? p with
        | none => exact absurd (.inl char) on
        | some c => exact Source.lt_size_of_cons (ahead_of_char char)
      exact ih (.tail outside step) (outside.before_step step on before) (by omega)

theorem highlighting_highlights (inv : Invocation) (s : Source) (q : Nat) :
    Highlights s.behind s q (fun stop => [Edit.add (.command inv (s.text inv.linePos.cursor stop))])
      (highlighting inv s q) := by
  have made : Highlights s.behind s q id (Scan.loop () (fun _ => highlightingTurn) s q) := by
    refine highlights_from (s.size + 2) .refl (fun k less here => ?_) (by omega)
    exact absurd less (Nat.not_lt_of_le (here.le s.le_behind))
  rw [highlighting_eq, bind_apply]
  generalize Scan.loop () (fun _ => highlightingTurn) s q = reply at made
  cases made with
  | upTo first => exact .upTo first
  | refused outside before char opens fails => exact .refused outside before char opens fails

/-! ### Where no unit touches what follows -/

/-- No pattern and no value that is met before a cursor is followed by a bar, or by a character that opens another. -/
def UnitsApart (s : Source) (q stop : Nat) : Prop :=
  ∀ p j, Outside id s q p → p < stop → IsUnit s p j → ∀ c ∈ s.char? j, c ≠ '|' ∧ closing? c = none

theorem Outside.of_behind (apart : UnitsApart s q stop) (h : Outside s.behind s q p) (le : p ≤ stop) :
    Outside id s q p := by
  induction h with
  | refl => exact .refl
  | @tail p k before step ih =>
    have here := ih (Nat.le_trans (Nat.le_of_lt (step.lt s.le_behind)) le)
    have less := Nat.lt_of_lt_of_le (step.lt s.le_behind) le
    cases step with
    | character char line plain => exact .tail here (.character char line plain)
    | @unit j unit =>
      have after : Outside id s q j := .tail here (.unit unit)
      cases char : s.char? j with
      | none => simpa [Source.behind, char] using after
      | some c =>
        by_cases line : c = '\n'
        · simpa [Source.behind, char, line] using after
        · rw [Source.behind_of_char char line]
          exact .tail after (.character char line (apart p j here less unit c char).2)

/-- Behind a unit the one character that is passed over neither ends the command nor opens anything. -/
theorem Outside.behind_or (apart : UnitsApart s q stop) (h : Outside id s q p) (le : p ≤ stop) :
    Outside s.behind s q p ∨
      ∃ c, s.char? p = some c ∧ c ≠ '\n' ∧ c ≠ '|' ∧ closing? c = none ∧ Outside s.behind s q (p + 1) := by
  induction h with
  | refl => exact .inl .refl
  | @tail p k before step ih =>
    have less := Nat.lt_of_lt_of_le (step.lt fun _ => Nat.le_refl _) le
    have here := ih (Nat.le_of_lt less)
    cases step with
    | character char line plain =>
      refine .inl (here.elim (fun here => .tail here (.character char line plain)) ?_)
      rintro ⟨c, -, -, -, -, after⟩
      exact after
    | @unit j unit =>
      have here : Outside s.behind s q p := here.resolve_right fun ⟨c, char, _, _, plain, _⟩ => by
        obtain ⟨c', d, char', opens⟩ := unit.opens
        obtain rfl := Option.some.inj (char.symm.trans char')
        simp [opens] at plain
      have after : Outside s.behind s q (s.behind j) := .tail here (.unit unit)
      cases char : s.char? j with
      | none => exact .inl (by simpa [Source.behind, char] using after)
      | some c =>
        by_cases line : c = '\n'
        · exact .inl (by simpa [Source.behind, char, line] using after)
        · rw [Source.behind_of_char char line] at after
          obtain ⟨bar, plain⟩ := apart p j before less unit c char
          exact .inr ⟨c, char, line, bar, plain, after⟩

/-- Where nothing but a plain character stands behind each unit, nothing is lost by passing over it. -/
theorem isLeast_of_apart (apart : UnitsApart s q stop)
    (first : IsLeast {p | Outside s.behind s q p ∧ EndsHighlighting s p} stop) :
    IsLeast {p | Outside id s q p ∧ EndsHighlighting s p} stop := by
  obtain ⟨⟨outside, ends⟩, least⟩ := first
  refine ⟨⟨outside.of_behind apart (Nat.le_refl stop), ends⟩, ?_⟩
  rintro p ⟨here, last⟩
  refine Nat.le_of_not_lt fun less => ?_
  -- An earlier end would have been met as well: a character that is passed over with a unit is none.
  rcases here.behind_or apart (Nat.le_of_lt less) with same | ⟨c, char, line, bar, -, -⟩
  · exact absurd (least ⟨same, last⟩) (Nat.not_le_of_lt less)
  · rcases last with none | newline | ends
    · simp [none] at char
    · exact line (Option.some.inj (char.symm.trans newline))
    · exact bar (Option.some.inj (char.symm.trans ends))

/-! ### The command -/

/-- The text of a command goes from the start of its line up to a cursor, the first one where a bar or an end of a line
stands outside of the patterns and values of its argument. -/
inductive HighlightsUpTo (past : Nat → Nat) (s : Source) : Node → Nat → Prop where
  | intro {inv : Invocation} {stop : Nat}
      (first : IsLeast {p | Outside past s inv.argumentPos.cursor p ∧ EndsHighlighting s p} stop) :
      HighlightsUpTo past s (.command inv (s.text inv.linePos.cursor stop)) stop

theorem plain_of_highlighting {command : Command}
    (known : command ∈ Command.builtin ++ Command.neovimAdded ∨ ∃ name, command = .user name)
    (form : command.form = .highlighting) : IsPlainCommand command := by
  have table : ∀ command ∈ Command.builtin ++ Command.neovimAdded, command.form = .highlighting →
      (command.name != "!") = true ∧ command.has .argopt = false ∧ command.has .editcmd = false ∧
        command.name ∉ ["write", "update", "read", "<", ">"] := by
    decide +kernel
  rcases known with listed | ⟨name, rfl⟩
  · obtain ⟨noShell, noOptions, noStart, noLeadIn⟩ := table command listed form
    exact ⟨noShell, noOptions, noStart, noLeadIn⟩
  · cases form

/-- Between the name of a plain command and its argument there are at most a bang and blanks. -/
theorem invoked_gives_of_plain {blocks : Blocks} {command : Command} {post : List Edit → Nat → Prop}
    (plain : IsPlainCommand command)
    (rest : ∀ (v : Invocation) (k : Nat), v.command = some command → v.commandPos = inv.commandPos →
      v.argumentPos.cursor = k → (body blocks v command.form).Gives s k post) :
    (invoked blocks inv command).Gives s i post := by
  refine .step fun bang k _ => ?_
  rw [if_pos plain.noShell]
  refine .step fun _ l _ => .after (here_apply s l) ?_
  simp only [plain.noOptions, plain.noStart, Bool.false_and, Bool.false_eq_true, if_false, pure_bind]
  exact .after (leadIn_of_plain _ plain rfl) (rest _ l rfl rfl rfl)

theorem highlighting_gives (place : inv.argumentPos.cursor = q) :
    (highlighting inv).Gives s q fun edits j => ∀ e ∈ edits, e.node.position = inv.commandPos ∧
      HighlightsUpTo s.behind s e.node j := by
  intro edits j run
  have made := highlighting_highlights inv s q
  rw [run] at made
  cases made with
  | upTo first =>
    intro e only
    obtain rfl := List.mem_singleton.mp only
    exact ⟨rfl, .intro (place ▸ first)⟩

theorem form?_of_comment {n : Node} (comment : n.type = .comment) : n.form? = none := by
  obtain ⟨position, kind⟩ := n
  cases kind <;> first | rfl | simp [Node.type, Kind.nodeType] at comment

theorem Made.form {edits : List Edit} {command : Command} (h : Made inv i edits j) (named : inv.command = some command) :
    ∀ e ∈ edits, ∀ form, e.node.form? = some form → form = command.form := by
  have own {n : Node} (known : n.invocation? = some inv) (form : CommandForm) (found : n.form? = some form) :
      form = command.form := by
    simpa [Node.form?, known, named, eq_comm] using found
  cases h with
  | single heads =>
    obtain ⟨e, rfl, -, known, -⟩ := heads
    simpa using own known
  | heredoc comment assigns position known =>
    intro e place form found
    rcases List.mem_append.mp place with other | only
    · rcases comment with rfl | ⟨c, rfl, comment, -⟩
      · cases other
      · obtain rfl := List.mem_singleton.mp other
        rw [Edit.node, form?_of_comment comment] at found
        cases found
    · obtain rfl := List.mem_singleton.mp only
      exact own known form found

theorem accounts_highlighting (s : Source) (blocks : Blocks) :
    Accounts s blocks (fun n => n.form? = some .highlighting) (HighlightsUpTo s.behind s) where
  comment n comment := by simp [form?_of_comment comment]
  bare n bare := by
    obtain ⟨_, _, same, unnamed⟩ := bare
    simp [Node.form?, Node.invocation?, same, Kind.invocation?, unnamed]
  ends n j known c first := by
    cases known with
    | intro least =>
      rw [← Source.char?_eq] at first
      rcases least.1.2 with none | newline | bar
      · simp [none] at first
      · exact .inl (Option.some.inj (first.symm.trans newline))
      · exact .inr (Option.some.inj (first.symm.trans bar))
  command inv command i listed start _ _ line within := by
    by_cases form : command.form = .highlighting
    · refine invoked_gives_of_plain (plain_of_highlighting listed form) fun v k named position place => ?_
      rw [form, ← position]
      exact (highlighting_gives place).mono fun edits j known e inside _ => known e inside
    · refine (invoked_gives command within start line).mono ?_
      rintro edits j ⟨-, -, inv', made, named, -⟩ e inside own
      exact absurd (made.form named e inside _ own).symm form

end Statement

end VimScript
