import VimScript.Proofs.Overlap.Block
import VimScript.Proofs.Overlap.Opening
import VimScript.Proofs.Overlap.Range
import VimScript.Proofs.Statement.OpenEnded
import VimScript.Proofs.Statement.UserCommand

/-!
Statements of a shared text. A statement comes to edits that look alike in both buffers and ends at the same place.
Where the text does not end both buffers this is said of all but the commands that may go on to the end of the script.
-/

set_option autoImplicit false

namespace VimScript

/-- Whether the command reads its line again, from the start on. -/
def CommandForm.rereads : CommandForm → Bool
  | .append | .insert | .loadKeymap | .foreign _ => true
  | _ => false

namespace Overlap

variable {s t : Source} {w : Overlap s t} {q l : Nat} {inv inv' : Invocation}

/-- All positions and all invocations look the same. -/
structure Blind (w : Overlap s t) : Prop where
  position : ∀ a b, w.SamePosition a b
  invocation : ∀ inv inv', w.leftSight.invocation inv = w.rightSight.invocation inv'

/-- The user commands on record are the same, unless nothing is seen of them. -/
def Records (w : Overlap s t) (known known' : Statement.UserNames) : Prop :=
  known = known' ∨ w.Blind

/-- What a statement comes to looks the same on both sides. -/
structure AlikeEffects (w : Overlap s t) (v u : Statement.Effect) : Prop where
  edits : w.AlikeEdits v.edits u.edits
  known : w.Records v.known u.known

/-- The argument of a command starts at the cursor. -/
theorem Aligned.argued (h : w.Aligned l inv inv') (inside : w.Inside q) (bang : Bool) (command : Command) :
    w.Paired l q { inv with bang, argumentPos := s.position (w.left + q), command := some command }
      { inv' with bang, argumentPos := t.position (w.right + q), command := some command } where
  placed := by
    change { inv.placed w.leftSight.position with
      bang, argumentPos := w.leftSight.position (s.position (w.left + q)), command := some command } = _
    rw [h.placed, w.places q inside]
    rfl
  leftLine := h.leftLine
  rightLine := h.rightLine
  leftArgument := rfl
  rightArgument := rfl

end Overlap

namespace Statement

open Overlap Scan
open SharedText (inside_succ lt_of_getElem?)

variable {s t : Source} {w : Overlap s t} {p q l a : Nat} {inv inv' : Invocation} {b c : Blocks}

/-! ### The command -/

theorem bang_follows (command : Command) {position position' : Position} (same : w.SamePosition position position')
    (inside : w.Inside p) : w.Follows p (bang command position) (bang command position') (w.Kept p Eq) := by
  apply Follows.peekInLine inside
  intro c _
  apply Follows.ite
  · intro _
    apply Follows.skip inside
    intro _ q inside' later _
    apply Follows.ite
    · intro _
      exact .stop (.fail same)
    · intro _
      exact .pure ⟨rfl, inside', later⟩
  · intro _
    exact .pure ⟨rfl, inside, Nat.le_refl p⟩

/-- The first scan of a command does not read on past the text: both buffers end with the text, or the first one does
and the command is not one to go on, or the scan ends before. -/
def Spared {α : Type} (w : Overlap s t) (form : CommandForm) (p : Nat) (x : Scan α) : Prop :=
  (w.Complete ∨ w.Ends ∧ form.isOpenEnded = false) ∨ w.EndsWithin p x

section

variable {α β : Type} {form : CommandForm} {x : Scan α} {f : α → Scan β}

theorem Spared.after {v : α} (h : Spared w form p (x >>= f)) (run : x s (w.left + p) = .ok v (w.left + q)) :
    Spared w form q (f v) :=
  h.imp_right fun within => within.after run

theorem Spared.bounded (h : Spared w form p x) : w.Ends ∨ w.EndsWithin p x :=
  h.imp_left fun ends => ends.elim Ends.of_complete And.left

theorem Spared.closed (h : Spared w form p x) (unbounded : form.isOpenEnded = true) : w.Complete ∨ w.EndsWithin p x := by
  rcases h with (complete | ⟨-, other⟩) | within
  · exact .inl complete
  · rw [unbounded] at other
    exact absurd other (by decide)
  · exact .inr within

end

/-- Commands that do not go back to the start of their line end no earlier than where their argument starts. -/
theorem body_kept {form : CommandForm} (spared : Spared w form p (body b inv form)) (forward : form.rereads = false)
    (types : b.SameTypes c) (h : w.Paired l a inv inv') (inside : w.Inside p) :
    w.Follows p (body b inv form) (body c inv' form) (w.Kept p w.AlikeEdits) := by
  cases form with
  | append => contradiction
  | insert => contradiction
  | loadKeymap => contradiction
  | foreign language => contradiction
  | finish => exact finish_follows types h inside (spared.closed rfl)
  | call => exact call_follows h inside
  | delFunction => exact deleteFunction_follows h inside
  | eval => exact evaluate_follows .eval h inside
  | throw => exact evaluate_follows .throw h inside
  | catchBranch => exact catchCommand_follows types h inside
  | elseBranch => exact elseCommand_follows types h inside
  | elseIf => exact elseIf_follows types h inside
  | finallyBranch => exact finallyCommand_follows types h inside
  | common => exact raw_follows h inside
  | userCommand => exact raw_follows h inside
  | assign verb =>
    cases verb with
    | letVar => exact letCommand_follows h inside spared.bounded
    | const => exact constCommand_follows h inside
  | echo verb => exact echo_follows verb h inside
  | echoHl => exact echoHighlight_follows h inside
  | opener block =>
    cases block with
    | function => exact functionCommand_follows h inside
    | ifBlock => exact ifCommand_follows h inside
    | whileLoop => exact whileCommand_follows h inside
    | forLoop => exact forCommand_follows h inside
    | tryBlock => exact tryCommand_follows h inside
  | closer block => exact closer_follows types block h inside
  | jump verb => exact jump_follows types verb h inside
  | lock verb => exact lock_follows verb h inside
  | returnValue => exact returnValue_follows types h inside
  | highlighting => exact highlighting_follows h inside
  | unlet => exact unlet_follows h inside
  | window => exact window_follows h inside

theorem body_follows {form : CommandForm} (spared : Spared w form p (body b inv form)) (types : b.SameTypes c)
    (h : w.Paired l a inv inv') (start : w.Started l) (inside : w.Inside p) (later : l < p) :
    w.Follows p (body b inv form) (body c inv' form) (w.Written l) := by
  cases rereads : form.rereads with
  | true =>
    cases form <;> try contradiction
    case append => exact textLines_follows h start (spared.closed rfl)
    case insert => exact textLines_follows h start (spared.closed rfl)
    case loadKeymap => exact remainingLines_follows h start (spared.closed rfl)
    case foreign language => exact foreignCode_follows h start inside (spared.closed rfl)
  | false =>
    apply (body_kept spared rereads types h inside).mono
    rintro es es' q ⟨alike, inside', later'⟩
    exact ⟨alike, inside', by omega⟩

theorem invoked_follows {command : Command} (spared : Spared w command.form p (invoked b inv command))
    (types : b.SameTypes c) (h : w.Aligned l inv inv') (start : w.Started l) (inside : w.Inside p) (later : l < p) :
    w.Follows p (invoked b inv command) (invoked c inv' command) (w.Written l) := by
  let x (blocks : Blocks) (inv : Invocation) (bang : Bool) : Scan (List Edit) := do
    let position ← Scan.here
    let inv := { inv with bang, argumentPos := position, command := some command }
    let inv ← (do if command.has .argopt then fileOptions inv else return inv)
    let inv ← leadIn inv
    let inv ← (do if command.has .editcmd && !inv.filter then startCommand inv else return inv)
    body blocks inv command.form
  have rest (q : Nat) (inside : w.Inside q) (later : l < q) (bang : Bool)
      (spared : Spared w command.form q (x b inv bang)) :
      w.Follows q (x b inv bang) (x c inv' bang) (w.Written l) := by
    apply Follows.here
    replace spared := spared.after (here_apply s _)
    apply Follows.through (w.Kept q (w.Paired l q))
    · exact .ite (fun _ => fileOptions_follows (h.argued inside bang command) inside) fun _ =>
        .pure ⟨h.argued inside bang command, inside, Nat.le_refl q⟩
    rintro v u q₁ ⟨paired, inside₁, later₁⟩ run
    replace spared := spared.after run
    apply (leadIn_follows paired inside₁).bind
    rintro v u q₂ ⟨paired, inside₂, later₂⟩ run
    replace spared := spared.after run
    apply Follows.through (w.Kept q₂ (w.Paired l q))
    · rw [paired.filter]
      exact .ite (fun _ => startCommand_follows paired inside₂) fun _ => .pure ⟨paired, inside₂, Nat.le_refl q₂⟩
    rintro v u q₃ ⟨paired, inside₃, later₃⟩ run
    exact body_follows (spared.after run) types paired start inside₃ (by omega)
  apply (bang_follows command h.commandPos inside).bind
  rintro bang _ q ⟨rfl, inside', later'⟩ run
  replace spared := spared.after run
  dsimp only at spared ⊢
  by_cases skips : (command.name != "!") = true
  · rw [if_pos skips] at spared ⊢
    rw [if_pos skips]
    apply Follows.skip inside'
    intro _ r inside'' later'' run
    exact rest r inside'' (by omega) bang (spared.after run)
  · rw [if_neg skips] at spared ⊢
    rw [if_neg skips]
    exact rest q inside' (by omega) bang spared

/-! ### The line -/

/-- The first scan is not about a command that reads on past the text. Both buffers end with the text, or the first one
does and the scan ends without a command that may go on, or the buffer goes on and the scan ends before the given place
of the text. -/
def Spares (w : Overlap s t) (stop p : Nat) (x : Scan Effect) : Prop :=
  w.Complete ∨ ∃ effect j, x s (w.left + p) = .ok effect j ∧
    (w.Ends ∧ ¬OpenEnded effect.edits ∨ w.leftRest ≠ [] ∧ j < w.left + stop)

section

variable {α : Type} {x : Scan α} {f : α → Scan Effect} {stop : Nat}

theorem Spares.after {v : α} (h : Spares w stop p (x >>= f)) (run : x s (w.left + p) = .ok v (w.left + q)) :
    Spares w stop q (f v) := by
  rcases h with complete | ⟨effect, j, ok, spared⟩
  · exact .inl complete
  · rw [bind_of_ok run] at ok
    exact .inr ⟨effect, j, ok, spared⟩

end

theorem Spares.invoked {command : Command} {names : UserNames}
    (h : Spares w w.text.length p (do return ⟨← invoked b inv command, names⟩)) :
    Spared w command.form p (Statement.invoked b inv command) := by
  rcases h with complete | ⟨effect, j, ok, spared⟩
  · exact .inl (.inl complete)
  obtain ⟨edits, k, run, same⟩ := bind_ok.mp ok
  obtain ⟨rfl, rfl⟩ := Reply.ok.inj same
  rcases spared with ⟨alone, bounded⟩ | ⟨-, within⟩
  · refine .inl (.inr ⟨alone, ?_⟩)
    by_contra unbounded
    exact bounded ((invoked_openEnded command (by simpa using unbounded)).of_ok run)
  · exact .inr ⟨edits, _, run, within⟩

/-- A user command takes its whole line, whatever part of its name is on record. -/
theorem recorded_user {typed : String} (b : Blocks) (inv : Invocation)
    (capital : typed.toList.head?.any Char.isUpper = true) (known : UserNames) (s : Source) (i : Nat) :
    ∃ inv' names, ∀ missing : Scan Effect,
      (do
        let found ← (do
          if known.contains typed then return (some (Command.user typed), known)
          else
            let digits ← Scan.takeClass .alnum
            let name := typed ++ digits
            return (some (Command.user name), if known.contains name then known else name :: known))
        match found with
        | (none, _) => missing
        | (some command, known) => return ⟨← invoked b inv command, known⟩) s i =
      .ok ⟨[.add (.command inv' (s.text inv.linePos.cursor (lineEnd s i)))], names⟩ (lineEnd s i) := by
  by_cases old : known.contains typed = true
  · obtain ⟨inv', run⟩ := invoked_of_user b inv capital s i
    refine ⟨inv', known, fun missing => ?_⟩
    rw [if_pos old, pure_bind]
    exact bind_of_ok run
  · have taken := takeClass_eq .alnum s i
    have onLine := lineEnd_of_run CharClass.alnum.has s i
    rw [run_of_class] at onLine
    generalize String.ofList ((s.ahead i).takeWhile CharClass.alnum.has) = digits at taken
    generalize i + ((s.ahead i).takeWhile CharClass.alnum.has).length = j at taken onLine
    have capital' : (typed ++ digits).toList.head?.any Char.isUpper = true := by
      rw [String.toList_append]
      cases front : typed.toList with
      | nil => simp [front] at capital
      | cons d ds => simpa [front] using capital
    obtain ⟨inv', run⟩ := invoked_of_user b inv capital' s j
    refine ⟨inv', if known.contains (typed ++ digits) then known else (typed ++ digits) :: known, fun missing => ?_⟩
    rw [if_neg old, bind_assoc, bind_of_ok taken, pure_bind, ← onLine]
    exact bind_of_ok run

theorem left_lineEnd (inside : w.Inside p) :
    lineEnd s (w.left + p) = w.left + (p + (Source.run (fun _ => true) (w.text.drop p)).length) := by
  rw [lineEnd, SharedText.leftRun inside, Nat.add_assoc]

theorem right_lineEnd (inside : w.Inside p) :
    lineEnd t (w.right + p) = w.right + (p + (Source.run (fun _ => true) (w.text.drop p)).length) := by
  rw [lineEnd, SharedText.rightRun inside, Nat.add_assoc]

theorem alike_line {stop : Nat} (blind : w.Blind) (h : w.Aligned l inv inv') (v u : Invocation)
    (bound : stop ≤ w.text.length) :
    w.AlikeEdits [.add (.command v (s.text inv.linePos.cursor (w.left + stop)))]
      [.add (.command u (t.text inv'.linePos.cursor (w.right + stop)))] := by
  have node : w.Alike (.command v (s.text inv.linePos.cursor (w.left + stop)))
      (.command u (t.text inv'.linePos.cursor (w.right + stop))) := by
    rw [h.leftLine, h.rightLine, w.leftText l bound, w.rightText l bound]
    exact alike_mk (blind.position _ _) (by simp only [Kind.map, Kind.mapInvocation, blind.invocation v u])
  simp only [AlikeEdits, List.map_cons, List.map_nil, Edit.seen, node]

/-- The command at the cursor, on a line that starts with a character of its own. -/
theorem commandPart_follows {neovim : Bool} {known known' : UserNames}
    (spares : Spares w w.text.length p (commandPart ⟨neovim, known, b⟩ inv)) (records : w.Records known known')
    (types : b.SameTypes c) (h : w.Aligned l inv inv') (start : w.Started l) (inside : w.Inside p) (later : l ≤ p) :
    w.Follows p (commandPart ⟨neovim, known, b⟩ inv) (commandPart ⟨neovim, known', c⟩ inv')
      fun v u q => w.AlikeEffects v u ∧ w.Inside q ∧ l ≤ q := by
  apply Follows.skip inside
  intro _ p₁ inside₁ later₁ run
  replace spares := spares.after run
  apply Follows.here
  replace spares := spares.after (here_apply s _)
  replace h : w.Aligned l { inv with commandPos := s.position (w.left + p₁) }
      { inv' with commandPos := t.position (w.right + p₁) } := by
    refine ⟨?_, h.leftLine, h.rightLine⟩
    change { inv.placed w.leftSight.position with commandPos := w.leftSight.position (s.position (w.left + p₁)) } = _
    rw [h.placed, w.places p₁ inside₁]
    rfl
  dsimp only at spares ⊢
  have bare : (inv.modifiers.isEmpty && inv.range.isEmpty) = (inv'.modifiers.isEmpty && inv'.range.isEmpty) := by
    have modifiers : inv.modifiers = inv'.modifiers := h.field Invocation.modifiers fun _ _ => rfl
    have range : inv.range = inv'.range := h.field Invocation.range fun _ _ => rfl
    rw [modifiers, range]
  -- What comes after the name of a command, unknown or found.
  have missing (q : Nat) :
      let x (start : Position) : Scan Effect := do
        Scan.seek start.cursor
        Scan.fail (.unknownCommand (← Scan.peekLine)) start
      w.Follows q (x (s.position (w.left + p₁))) (x (t.position (w.right + p₁)))
        fun v u q => w.AlikeEffects v u ∧ w.Inside q ∧ l ≤ q := by
    apply Follows.seek
    apply Follows.skip inside₁
    intro line _ _ _ _
    exact .fail (w.places p₁ inside₁)
  have present (q : Nat) (inside : w.Inside q) (more : l < q) {command : Command} {names names' : UserNames}
      (records : w.Records names names') {v u : Invocation} (h : w.Aligned l v u)
      (spares : Spares w w.text.length q (do return ⟨← invoked b v command, names⟩)) :
      w.Follows q (do return ⟨← invoked b v command, names⟩) (do return ⟨← invoked c u command, names'⟩)
        fun v u q => w.AlikeEffects v u ∧ w.Inside q ∧ l ≤ q := by
    apply (invoked_follows spares.invoked types h start inside more).bind
    rintro es es' r ⟨alike, inside', more'⟩ -
    exact .pure ⟨⟨alike, records⟩, inside', by omega⟩
  apply Follows.skip inside₁
  intro first p₂ inside₂ later₂ run
  replace spares := spares.after run
  by_cases ends : (first.isNone || first == some '"') = true
  · rw [if_pos ends, if_pos ends, bare]
    apply Follows.ite
    · intro _
      exact .pure ⟨⟨rfl, records⟩, inside₂, by omega⟩
    · intro _
      apply (commandUpTo_follows h inside₁.le inside₂).bind
      rintro es es' r ⟨alike, inside₃, later₃⟩ -
      exact .pure ⟨⟨alike, records⟩, inside₃, by omega⟩
  rw [if_neg ends] at spares ⊢
  rw [if_neg ends]
  rcases records with rfl | blind
  · apply (command_follows neovim known inside₂).bind
    rintro ⟨found, names⟩ _ q ⟨rfl, inside₃, later₃, moved⟩ run
    replace spares := spares.after run
    cases found with
    | none => exact missing q
    | some command => exact present q inside₃ (by have := moved (by simp); omega) (.inl rfl) h spares
  · -- The records may differ, so a user command may be cut at different places, but it takes its whole line.
    rw [command, bind_assoc] at spares ⊢
    rw [command, bind_assoc]
    apply (typedName_follows inside₂).bind
    rintro typed _ q ⟨rfl, inside₃, later₃, moved⟩ run
    replace spares := spares.after run
    by_cases empty : typed.isEmpty = true
    · rw [if_pos empty, if_pos empty]
      exact missing q
    rw [if_neg empty] at spares ⊢
    rw [if_neg empty]
    have more : l < q := by
      have := moved fun none => empty (by simp [none])
      omega
    by_cases user : Command.isUserName neovim typed.toList = true
    · rw [if_pos user, if_pos user]
      have capital := (Bool.and_eq_true_iff.mp user).1
      obtain ⟨v, names, left⟩ :=
        recorded_user b { inv with commandPos := s.position (w.left + p₁) } capital known s (w.left + q)
      obtain ⟨u, names', right⟩ :=
        recorded_user c { inv' with commandPos := t.position (w.right + p₁) } capital known' t (w.right + q)
      rw [left_lineEnd inside₃] at left
      rw [right_lineEnd inside₃] at right
      have inside₄ := SharedText.inside_of_le_run (f := fun _ => true) inside₃ (Nat.le_refl _)
      exact .of_ok (left _) (right _) ⟨⟨alike_line blind h v u inside₄.le, .inr blind⟩, inside₄, by omega⟩
    · rw [if_neg user] at spares ⊢
      rw [if_neg user]
      cases found : Command.lookup neovim typed.toList with
      | none => exact missing q
      | some command =>
        rw [found] at spares
        exact present q inside₃ more (.inr blind) h spares

theorem aligned_of_start {modifiers : List Modifier} {range : List String} (unset : w.SamePosition .unset .unset)
    (inside : w.Inside l) :
    w.Aligned l { linePos := s.position (w.left + l), modifiers, range }
      { linePos := t.position (w.right + l), modifiers, range } where
  placed := by
    have same : w.leftSight.position .unset = w.rightSight.position .unset := unset
    simp only [Invocation.placed, w.places l inside, same]
  leftLine := rfl
  rightLine := rfl

/-- What follows a command moves the cursor on, unless the buffer has ended. -/
theorem trail_onward (s : Source) (i : Nat) : trail.Gives s i fun _ j => i ≤ j ∧ (i < s.size → i < j) := by
  refine (gives_skipWhite s i).bind fun _ j ⟨xs, spans, _⟩ => .step fun c k peeked => ?_
  obtain ⟨rfl, rfl⟩ := Reply.ok.inj peeked
  have later := spans.cursor
  split
  · rename_i ends
    have last : s.size ≤ j := Array.getElem?_eq_none_iff.mp ends
    exact .pure ⟨by omega, by omega⟩
  · exact .after (skip_apply 1 s j) (.pure ⟨by omega, by omega⟩)
  · exact .after (skip_apply 1 s j) (.pure ⟨by omega, by omega⟩)
  · have comment : comment.Gives s j fun _ k => j < k := by
      refine .after (here_apply s j) (.after (skip_apply 1 s j) ?_)
      exact (takeLine_onward s (j + 1)).bind fun _ _ later' => .pure later'
    refine comment.bind fun edits k more => (next_onward s k).bind fun _ l later' => .pure ?_
    exact ⟨by omega, by omega⟩
  · exact .failHere

theorem Spares.command {x : Scan Effect}
    (h : Spares w (w.text.length + 1) p (do
      let effect ← x
      let edits ← trail
      return { effect with edits := effect.edits ++ edits })) : Spares w w.text.length p x := by
  rcases h with complete | ⟨effect, j, ok, spared⟩
  · exact .inl complete
  obtain ⟨first, k, run, ok⟩ := bind_ok.mp ok
  obtain ⟨edits, m, trailed, same⟩ := bind_ok.mp ok
  obtain ⟨rfl, rfl⟩ := Reply.ok.inj same
  refine .inr ⟨first, k, run, ?_⟩
  rcases spared with ⟨alone, bounded⟩ | ⟨goes, within⟩
  · refine .inl ⟨alone, ?_⟩
    rintro ⟨e, place, unbounded⟩
    exact bounded ⟨e, List.mem_append_left edits place, unbounded⟩
  · have moved := (trail_onward s k).of_ok trailed
    have more := w.lt_leftSize goes
    exact .inr ⟨goes, by omega⟩

variable {neovim : Bool} {known known' : UserNames}

theorem commandLine_follows (unset : w.SamePosition .unset .unset)
    (spares : Spares w (w.text.length + 1) p (commandLine ⟨neovim, known, b⟩))
    (records : w.Records known known') (types : b.SameTypes c) (start : w.Started p) :
    w.Follows p (commandLine ⟨neovim, known, b⟩) (commandLine ⟨neovim, known', c⟩)
      fun v u q => w.AlikeEffects v u ∧ q ≤ w.text.length ∧ p < q := by
  have inside := start.inside
  have less : p < w.text.length := by
    obtain ⟨d, char, -⟩ := start
    exact lt_of_getElem? char
  apply Follows.here
  replace spares := spares.after (here_apply s _)
  apply Follows.skip inside
  intro modifiers p₁ inside₁ later₁ run
  replace spares := spares.after run
  apply Follows.skip inside₁
  intro range p₂ inside₂ later₂ run
  replace spares := spares.after run
  apply (commandPart_follows spares.command records types (aligned_of_start unset inside) start inside₂ (by omega)).bind
  rintro v u q ⟨alike, inside₃, later₃⟩ -
  apply (trail_follows inside₃).bind
  rintro es es' r ⟨alike', bound, later₄, more₄⟩ -
  exact .pure ⟨⟨alike.edits.append alike', alike.known⟩, bound, by omega⟩

/-- A statement moves the cursor on, unless the text has ended. -/
theorem read_follows (unset : w.SamePosition .unset .unset)
    (spares : Spares w (w.text.length + 1) p (read ⟨neovim, known, b⟩))
    (records : w.Records known known') (types : b.SameTypes c) (inside : w.Inside p) :
    w.Follows p (read ⟨neovim, known, b⟩) (read ⟨neovim, known', c⟩)
      fun v u q => w.AlikeEffects v u ∧ q ≤ w.text.length ∧ (p < w.text.length → p < q) := by
  apply Follows.skip inside
  intro two p₀ inside₀ later₀ run
  replace spares := spares.after run
  by_cases shebang : (two == "#!") = true
  · rw [if_pos shebang, if_pos shebang]
    apply (readLine_follows inside₀).bind
    rintro line _ q ⟨rfl, bound, later, more⟩ -
    exact .pure ⟨⟨rfl, records⟩, bound, by omega⟩
  rw [if_neg shebang] at spares ⊢
  rw [if_neg shebang]
  apply Follows.skip inside₀
  intro _ p₁ inside₁ later₁ run
  replace spares := spares.after run
  replace spares := spares.after (left_peekInLine inside₁)
  apply Follows.after (left_peekInLine inside₁) (right_peekInLine inside₁)
  cases first : w.text[p₁]?.filter (· != '\n') with
  | none =>
    apply Follows.lineEnd inside₁ (Nat.le_trans later₀ later₁)
    intro _ q bound _ more
    exact .pure ⟨⟨rfl, records⟩, bound, more⟩
  | some d =>
    rw [first] at spares
    obtain ⟨char, line⟩ := Option.filter_eq_some_iff.mp first
    by_cases quote : d = '"'
    · subst quote
      apply (comment_follows inside₁ char).bind
      rintro es es' r ⟨alike, inside₂, more₂⟩ -
      have later : p ≤ r := by omega
      apply Follows.lineEnd inside₂ later
      intro _ q bound _ more
      exact .pure ⟨⟨alike, records⟩, bound, more⟩
    · simp only [Option.some.injEq, quote, imp_self] at spares ⊢
      apply (commandLine_follows unset spares records types ⟨d, char, by simpa using line⟩).mono
      rintro v u q ⟨alike, bound, more⟩
      exact ⟨alike, bound, fun _ => by omega⟩

end Statement

end VimScript
