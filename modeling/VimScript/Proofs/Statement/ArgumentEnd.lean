import VimScript.Proofs.Overlap.Argument
import VimScript.Proofs.Overlap.Line
import VimScript.Proofs.Script.Initials
import VimScript.Proofs.Script.Structure
import VimScript.Proofs.Statement.Pattern

/-!
Where a command kept as text ends, and what is kept of it. A bar or a comment ends it unless it is escaped; the blanks
at the end of its argument do not belong to it.
-/

set_option autoImplicit false

namespace VimScript

open Overlap

namespace Scan

variable {α β : Type} {x : Scan α} {f : α → Scan β} {s : Source} {i j : Nat} {a : α}

/-- A scan that has a value. -/
def Succeeds (x : Scan α) (s : Source) (i : Nat) : Prop :=
  ∃ a j, x s i = .ok a j

theorem Succeeds.pure : (Pure.pure a : Scan α).Succeeds s i :=
  ⟨a, i, rfl⟩

theorem Succeeds.after (first : x s i = .ok a j) (second : (f a).Succeeds s j) : (x >>= f).Succeeds s i := by
  rwa [Succeeds, bind_of_ok first]

theorem Succeeds.ite {p : Prop} [Decidable p] {y : Scan α} (yes : p → x.Succeeds s i) (no : ¬p → y.Succeeds s i) :
    (if p then x else y).Succeeds s i := by
  split
  · exact yes ‹_›
  · exact no ‹_›

end Scan

namespace Statement

open Scan

variable {inv : Invocation} {s : Source} {state : ArgumentScan} {edits : List Edit} {q p i j stop e : Nat}

/-! ### Characters -/

theorem char?_of_inLine {c : Char} (inLine : (s.char? i).filter (· != '\n') = some c) : s.char? i = some c ∧ c ≠ '\n' := by
  simpa [Option.filter_eq_some_iff] using inLine

theorem char?_of_notInLine (last : (s.char? i).filter (· != '\n') = none) : s.char? i = none ∨ s.char? i = some '\n' := by
  cases char : s.char? i with
  | none => exact .inl rfl
  | some c =>
    rw [char, Option.filter_eq_none_iff] at last
    exact .inr (congrArg some (by simpa using last c rfl))

theorem ahead_of_char {c : Char} (char : s.char? i = some c) : s.ahead i = c :: s.ahead (i + 1) := by
  rw [Source.char?_eq] at char
  obtain ⟨rest, front⟩ := List.head?_eq_some_iff.mp char
  rw [front, Source.ahead_of_cons front]

theorem endsCommand_some {c : Char} : endsCommand (some c) = true ↔ c = '\n' ∨ c = '|' ∨ c = '"' := by
  simp [endsCommand, or_assoc]

theorem endsCommand_of_last (last : s.char? i = none ∨ s.char? i = some '\n') : endsCommand (s.char? i) = true := by
  rcases last with last | last <;> rw [last] <;> rfl

/-! ### One turn -/

/-- The end of what is solid, which follows the cursor unless a blank is before it. -/
def ArgumentScan.solidAt (state : ArgumentScan) (i : Nat) : Nat :=
  if CharClass.white.hasOpt state.before then state.solid else i

/-- Where an argument stops: at the end of the line, and at a bar or a comment without a backslash before it. -/
def ArgumentScan.Stops (inv : Invocation) (s : Source) (state : ArgumentScan) (i : Nat) : Prop :=
  (s.char? i = none ∨ s.char? i = some '\n') ∨
    state.before ≠ some '\\' ∧ (s.char? i = some '|' ∨
      s.char? i = some '"' ∧ inv.has .notrlcom = false ∧ isRegisterQuote inv state.before i = false)

/-- What one turn makes of an argument. -/
inductive ArgumentTurn (inv : Invocation) (s : Source) (state : ArgumentScan) (i : Nat) :
    Turn ArgumentScan (Nat × Nat) → Nat → Prop where
  | stop (stops : state.Stops inv s i) : ArgumentTurn inv s state i (.done (i, state.solidAt i)) i
  | openEscape (mark : s.char? i = some '\x16') (last : s.char? (i + 1) = none ∨ s.char? (i + 1) = some '\n') :
      ArgumentTurn inv s state i (.done (i + 1, i + 1)) (i + 1)
  | escaped {c : Char} (mark : s.char? i = some '\x16') (char : s.char? (i + 1) = some c) (line : c ≠ '\n') :
      ArgumentTurn inv s state i (.again ⟨some c, i + 1⟩) (i + 2)
  | character {c : Char} (char : s.char? i = some c) (plain : c ≠ '\x16') (goes : ¬state.Stops inv s i) :
      ArgumentTurn inv s state i (.again ⟨some c, state.solidAt i⟩) (i + 1)
  | expression {j : Nat} (files : (inv.has .xfile || inv.has .files || inv.has .file1) = true) (later : i < j)
      (close : s.char? (j - 1) = some '\x60') : ArgumentTurn inv s state i (.again ⟨some '\x60', state.solidAt i⟩) j

theorem expression_gives (bound : i ≤ s.size) : Expr.read.Gives s i fun _ j => i < j := by
  refine .of_whole (Expr.read_follows (inside_whole bound)) ?_
  rintro n m j ⟨-, -, later⟩
  exact later

theorem argumentStep_gives (inv : Invocation) (s : Source) (state : ArgumentScan) (i : Nat) :
    (argumentStep inv state).Gives s i (ArgumentTurn inv s state i) := by
  have stops (stop : state.Stops inv s i) :
      Gives (Pure.pure (Turn.done (i, state.solidAt i))) s i (ArgumentTurn inv s state i) :=
    .pure (.stop stop)
  have goesOn {c : Char} (char : s.char? i = some c) (plain : c ≠ '\x16') (goes : ¬state.Stops inv s i) :
      Gives (do Scan.skip 1; return Turn.again ⟨s.char? i, state.solidAt i⟩) s i (ArgumentTurn inv s state i) :=
    .after (skip_apply _ _ _) (.pure (by rw [char]; exact .character char plain goes))
  refine .after (tell_apply s i) (.after (a := s.char? i) rfl ?_)
  split
  · exact stops (.inl (.inl ‹_›))
  · exact stops (.inl (.inr ‹_›))
  · rename_i mark
    refine .after (skip_apply _ _ _) (.after (tell_apply _ _) (.after (a := (s.char? (i + 1)).filter (· != '\n')) rfl ?_))
    split
    · exact .pure (.openEscape mark (char?_of_notInLine ‹_›))
    · rename_i c next
      obtain ⟨char, line⟩ := char?_of_inLine next
      exact .after (skip_apply _ _ _) (.pure (.escaped mark char line))
  · rename_i char
    have bound := Nat.le_of_lt (Source.lt_size_of_cons (ahead_of_char char))
    refine .after (peekRun_of_ahead 2 rfl) (.ite (fun files => .onward bound fun _ k later within => ?_) fun _ => ?_)
    · refine (expression_gives within).bind fun _ l later' => .after (a := (s.char? l).filter (· != '\n')) rfl ?_
      refine .ite (fun _ => .stop .failHere) fun closes => ?_
      have inLine : (s.char? l).filter (· != '\n') = some '\x60' := by simpa using closes
      obtain ⟨close, -⟩ := char?_of_inLine inLine
      rw [inLine]
      refine .after (take_of_ahead ['\x60'] (ahead_of_char close) (by decide)) (.pure (.expression ?_ ?_ close))
      · exact (Bool.and_eq_true_iff.mp files).1
      · rw [List.length_singleton]
        omega
    · exact goesOn char (by decide) (by simp [ArgumentScan.Stops, char])
  · rename_i char
    refine .ite (fun unescaped => stops (.inr ⟨by simpa using unescaped, .inl char⟩)) fun escaped => ?_
    exact goesOn char (by decide) (by simpa [ArgumentScan.Stops, char] using escaped)
  · rename_i char
    refine .ite (fun comment => stops (.inr ?_)) fun kept => goesOn char (by decide) ?_
    · simp only [Bool.and_eq_true, Bool.not_eq_true', bne_iff_ne] at comment
      exact ⟨comment.2, .inr ⟨char, comment.1⟩⟩
    · rintro ((none | newline) | ⟨unescaped, bar | ⟨-, comments, other⟩⟩)
      · simp [none] at char
      · simp [newline] at char
      · simp [bar] at char
      · simp [comments, other, unescaped] at kept
  · rename_i end_ newline mark tick bar quote
    cases char : s.char? i with
    | none => exact absurd char end_
    | some c =>
      rw [← char]
      refine goesOn char (fun same => mark (same ▸ char)) ?_
      rintro ((none | line) | ⟨-, stop | ⟨stop, -⟩⟩)
      exacts [end_ none, newline line, bar stop, quote stop]

theorem argumentStep_succeeds (noFiles : ∀ f ∈ [Flag.xfile, .files, .file1], inv.has f = false) :
    (argumentStep inv state).Succeeds s i := by
  refine .after (tell_apply s i) (.after (a := s.char? i) rfl ?_)
  have goesOn (turn : Turn ArgumentScan (Nat × Nat)) : Succeeds (do Scan.skip 1; return turn) s i :=
    .after (skip_apply _ _ _) .pure
  split
  · exact .pure
  · exact .pure
  · refine .after (skip_apply _ _ _) (.after (tell_apply _ _) (.after (a := (s.char? (i + 1)).filter (· != '\n')) rfl ?_))
    split
    · exact .pure
    · exact .after (skip_apply _ _ _) .pure
  · refine .after (peekRun_of_ahead 2 rfl) (.ite (fun files => ?_) fun _ => goesOn _)
    simp [noFiles] at files
  · exact .ite (fun _ => .pure) fun _ => goesOn _
  · exact .ite (fun _ => .pure) fun _ => goesOn _
  · exact goesOn _

/-! ### All turns -/

theorem ArgumentScan.Stops.ends (stops : state.Stops inv s i) : endsCommand (s.char? i) = true := by
  rcases stops with last | ⟨-, char | ⟨char, -⟩⟩
  · exact endsCommand_of_last last
  · rw [char]
    rfl
  · rw [char]
    rfl

theorem argumentEnd_ends : (argumentEnd inv).Gives s i fun _ j => endsCommand (s.char? j) = true := by
  refine .ite (fun _ => .step fun _ k _ => ?_) fun _ => ?_
  -- With a pattern before it or without one, the argument is followed in the same way.
  all_goals
    refine .after (tell_apply s _) (.bind (q := fun _ j => endsCommand (s.char? j) = true) ?_ fun _ _ ends => .pure ends)
    refine .loop (fun _ _ => True) trivial fun state l _ => (argumentStep_gives inv s state l).mono fun turn j made => ?_
    cases made with
    | stop stops => exact stops.ends
    | openEscape mark last => exact endsCommand_of_last last
    | _ => trivial

theorem takeLine_ends : Scan.takeLine.Gives s i fun _ j => endsCommand (s.char? j) = true := by
  refine Gives.mono (x := Scan.takeWhile fun _ => true) (gives_takeWhile _ s i) ?_
  rintro _ j ⟨xs, -, -, -, stop⟩
  rw [Source.char?_eq]
  cases front : (s.ahead j).head? with
  | none => rfl
  | some c => exact endsCommand_some.mpr (.inl ((stop c front).resolve_right (by simp)))

/-- What is done once it is known how far the text of a command goes. -/
def recordUpTo (inv : Invocation) (stop : Nat) : Scan (List Edit) := do
  if inv.has .needarg then
    let argument ← Scan.textBetween inv.argumentPos.cursor stop
    if argument.toList.all isUnicodeSpace then
      Scan.fail .argumentRequired inv.argumentPos
  commandUpTo inv stop

theorem raw_eq (inv : Invocation) :
    raw inv = (do
      let stop ← (do
        if inv.has .trlbar && !inv.filter then argumentEnd inv
        else
          let _ ← Scan.takeLine
          Scan.tell)
      recordUpTo inv stop) := rfl

theorem recordUpTo_gives (inv : Invocation) (s : Source) (stop i : Nat) :
    (recordUpTo inv stop).Gives s i fun edits j =>
      edits = [.add (.command inv (s.text inv.linePos.cursor stop))] ∧ i = j := by
  have written : (commandUpTo inv stop).Gives s i fun edits j =>
      edits = [.add (.command inv (s.text inv.linePos.cursor stop))] ∧ i = j :=
    .after rfl (.pure ⟨rfl, rfl⟩)
  exact .ite (fun _ => .after rfl (.ite (fun _ => .stop .fail) fun _ => written)) fun _ => written

theorem raw_ends : (raw inv).Gives s i fun _ j => endsCommand (s.char? j) = true := by
  have line : Gives (do let _ ← Scan.takeLine; Scan.tell) s i fun _ j => endsCommand (s.char? j) = true :=
    takeLine_ends.bind fun _ j ends => .after (tell_apply s j) (.pure ends)
  rw [raw_eq]
  refine (Gives.ite (fun _ => argumentEnd_ends) fun _ => line).bind fun stop j ends => ?_
  refine (recordUpTo_gives inv s stop j).mono ?_
  rintro edits _ ⟨-, rfl⟩
  exact ends

/-- Where a command ends, there is nothing that must not follow it. -/
theorem trail_of_ends (ends : endsCommand (s.char? i) = true) : trail.Succeeds s i := by
  have solid : CharClass.white.hasOpt (s.ahead i).head? = false := by
    rw [← Source.char?_eq]
    cases char : s.char? i with
    | none => rfl
    | some c =>
      rw [char] at ends
      rcases endsCommand_some.mp ends with rfl | rfl | rfl <;> rfl
  refine .after (skipWhite_of_solid rfl solid) (.after (a := s.char? i) rfl ?_)
  split
  · exact .pure
  · exact .after (skip_apply _ _ _) .pure
  · exact .after (skip_apply _ _ _) .pure
  · obtain ⟨edits, j, spoken⟩ : comment.Succeeds s i := ⟨_, _, rfl⟩
    obtain ⟨c, k, passed⟩ : Scan.next.Succeeds s j := by
      unfold Succeeds Scan.next
      split <;> exact ⟨_, _, rfl⟩
    exact .after spoken (.after passed .pure)
  · rename_i c newline bar quote char
    rw [char] at ends
    rcases endsCommand_some.mp ends with same | same | same
    exacts [absurd same newline, absurd same bar, absurd same quote]

/-! ### The first place where an argument may end -/

/-- Whether a double quote is the name of a register: as the argument of `:@` and `:*`, and behind the sigil of
`:redir @`. The argument is read from `start` on. -/
def IsRegister (inv : Invocation) (s : Source) (start p : Nat) : Prop :=
  (inv.name = "@" ∨ inv.name = "*") ∧ p = inv.argumentPos.cursor ∨
    inv.name = "redir" ∧ p = inv.argumentPos.cursor + 1 ∧ p ≠ start ∧ s.char? (p - 1) = some '@'

/-- Whether an argument that is read from `start` on may end at a cursor: at the end of the line, and at a bar or a
comment that is not escaped. -/
def EndsArgument (inv : Invocation) (s : Source) (start p : Nat) : Prop :=
  (s.char? p = none ∨ s.char? p = some '\n') ∨
    isEscaped '\x16' (s.ahead start) (p - start) = false ∧ (p = start ∨ s.char? (p - 1) ≠ some '\\') ∧
      (s.char? p = some '|' ∨ s.char? p = some '"' ∧ inv.has .notrlcom = false ∧ ¬IsRegister inv s start p)

/-- The character before a cursor, as far as the argument goes back. -/
def charBefore (s : Source) (start p : Nat) : Option Char :=
  if p = start then none else s.char? (p - 1)

theorem charBefore_of_lt (later : q < p) : charBefore s q p = s.char? (p - 1) :=
  if_neg (Nat.ne_of_gt later)

theorem isRegisterQuote_iff : isRegisterQuote inv (charBefore s q p) p = true ↔ IsRegister inv s q p := by
  unfold isRegisterQuote IsRegister charBefore
  split <;> simp [*, and_assoc]

theorem isEscaped_ahead (later : q ≤ p) :
    isEscaped '\x16' (s.ahead q) (p + 1 - q) = (s.char? p == some '\x16' && !isEscaped '\x16' (s.ahead q) (p - q)) := by
  have place : (s.ahead q)[p - q]? = s.char? p := by rw [← Source.char?_add, Nat.add_sub_cancel' later]
  rw [Nat.sub_add_comm later, isEscaped, place]

theorem stops_iff (before : state.before = charBefore s q p)
    (plain : isEscaped '\x16' (s.ahead q) (p - q) = false) : state.Stops inv s p ↔ EndsArgument inv s q p := by
  have unescaped : charBefore s q p ≠ some '\\' ↔ p = q ∨ s.char? (p - 1) ≠ some '\\' := by
    unfold charBefore
    split <;> simp [*]
  have other : isRegisterQuote inv (charBefore s q p) p = false ↔ ¬IsRegister inv s q p := by
    rw [← Bool.not_eq_true, isRegisterQuote_iff]
  simp only [ArgumentScan.Stops, EndsArgument, before, unescaped, other, plain, true_and]

theorem EndsArgument.ends (h : EndsArgument inv s q p) : endsCommand (s.char? p) = true := by
  rcases h with last | ⟨-, -, char | ⟨char, -⟩⟩
  · exact endsCommand_of_last last
  · rw [char]
    rfl
  · rw [char]
    rfl

theorem not_ends_of_mark (mark : s.char? p = some '\x16') : ¬EndsArgument inv s q p := by
  intro h
  have ends := h.ends
  rw [mark] at ends
  exact absurd ends (by decide)

theorem not_ends_of_escaped {c : Char} (char : s.char? p = some c) (line : c ≠ '\n')
    (escaped : isEscaped '\x16' (s.ahead q) (p - q) = true) : ¬EndsArgument inv s q p := by
  rintro ((none | newline) | ⟨plain, -⟩)
  · simp [none] at char
  · exact line (Option.some.inj (char.symm.trans newline))
  · simp [escaped] at plain

/-- From a place that is not escaped an argument is followed to the first place where it may end. -/
theorem isLeast_from (noFiles : ∀ f ∈ [Flag.xfile, .files, .file1], inv.has f = false) (n : Nat) (later : q ≤ p)
    (before : state.before = charBefore s q p) (plain : isEscaped '\x16' (s.ahead q) (p - q) = false)
    (earlier : ∀ k, q ≤ k → k < p → ¬EndsArgument inv s q k) (enough : s.size - p < n) :
    ∃ result stop, repeatUpTo (argumentStep inv) n state s p = .ok result stop ∧
      IsLeast {p | q ≤ p ∧ EndsArgument inv s q p} stop := by
  induction n generalizing state p with
  | zero => omega
  | succ n ih =>
    have first {k : Nat} (start : q ≤ k) (ends : EndsArgument inv s q k)
        (before : ∀ l, q ≤ l → l < k → ¬EndsArgument inv s q l) : IsLeast {p | q ≤ p ∧ EndsArgument inv s q p} k :=
      ⟨⟨start, ends⟩, fun l met => Nat.le_of_not_lt fun less => before l met.1 less met.2⟩
    have on {k : Nat} (more : ∀ l, p ≤ l → l < k → ¬EndsArgument inv s q l) :
        ∀ l, q ≤ l → l < k → ¬EndsArgument inv s q l := by
      intro l start less
      rcases Nat.lt_or_ge l p with less' | here
      · exact earlier l start less'
      · exact more l here less
    -- A turn goes over one character, or over a mark and the one it escapes; it stops at none in between.
    have succeeds : (argumentStep inv state).Succeeds s p := argumentStep_succeeds noFiles
    obtain ⟨turn, j, run⟩ := succeeds
    have made := (argumentStep_gives inv s state p).of_ok run
    simp only [repeatUpTo, run]
    cases made with
    | stop stops => exact ⟨_, p, rfl, first later ((stops_iff before plain).mp stops) earlier⟩
    | openEscape mark last =>
      refine ⟨_, p + 1, rfl, first (by omega) (.inl last) (on fun l here less => ?_)⟩
      obtain rfl : l = p := by omega
      exact not_ends_of_mark mark
    | escaped mark char line =>
      have inside := Source.lt_size_of_cons (ahead_of_char char)
      have escaped : isEscaped '\x16' (s.ahead q) (p + 1 - q) = true := by rw [isEscaped_ahead later, mark, plain]; rfl
      refine ih (by omega) ?_ ?_ (on fun l here less => ?_) (by omega)
      · rw [charBefore_of_lt (by omega)]
        exact char.symm
      · rw [isEscaped_ahead (p := p + 1) (by omega), escaped, Bool.not_true, Bool.and_false]
      · obtain rfl | rfl : l = p ∨ l = p + 1 := by omega
        · exact not_ends_of_mark mark
        · exact not_ends_of_escaped char line escaped
    | @character c char unmarked goes =>
      have inside := Source.lt_size_of_cons (ahead_of_char char)
      refine ih (by omega) ?_ ?_ (on fun l here less => ?_) (by omega)
      · rw [charBefore_of_lt (by omega)]
        exact char.symm
      · rw [isEscaped_ahead later, char]
        simp [unmarked]
      · obtain rfl : l = p := by omega
        exact (stops_iff before plain).not.mp goes
    | expression files => simp [noFiles] at files

/-- An argument without file names ends at the first place where it may; and whatever a command that is kept as text
takes, something that may follow a command is next. -/
theorem raw_stops (inv : Invocation) (s : Source) (q : Nat) :
    (inv.name ∉ ["vimgrep", "vimgrepadd", "lvimgrep", "lvimgrepadd"] →
      (∀ f ∈ [Flag.xfile, .files, .file1], inv.has f = false) →
      ∃ e stop, argumentEnd inv s q = .ok e stop ∧ IsLeast {p | q ≤ p ∧ EndsArgument inv s q p} stop) ∧
    ∀ edits stop, raw inv s q = .ok edits stop →
      endsCommand (s.char? stop) = true ∧ ∃ more k, trail s stop = .ok more k := by
  refine ⟨fun noGrep noFiles => ?_, fun edits stop ok => ?_⟩
  · have plain : ["vimgrep", "vimgrepadd", "lvimgrep", "lvimgrepadd"].contains inv.name = false := by simpa using noGrep
    have before : (none : Option Char) = charBefore s q q := (if_pos rfl).symm
    have escaped : isEscaped '\x16' (s.ahead q) (q - q) = false := by
      rw [Nat.sub_self]
      rfl
    obtain ⟨result, stop, run, least⟩ : ∃ result stop, repeatUpTo (argumentStep inv) (s.size + 2) ⟨none, q⟩ s q =
        .ok result stop ∧ IsLeast {p | q ≤ p ∧ EndsArgument inv s q p} stop :=
      isLeast_from noFiles (s.size + 2) (Nat.le_refl q) before escaped (by omega) (by omega)
    have followed : Scan.loop ⟨none, q⟩ (argumentStep inv) s q = .ok result stop := run
    refine ⟨if inv.has .notrlcom then result.1 else result.2, stop, ?_, least⟩
    simp only [argumentEnd, plain, Bool.false_eq_true, if_false, bind_of_ok (tell_apply s q), bind_of_ok followed]
    rfl
  · have ends := raw_ends.of_ok ok
    exact ⟨ends, trail_of_ends ends⟩

def registerCommand : Command :=
  ⟨"@", 1, [.range, .wholefold, .extra, .trlbar, .cmdwin], .common⟩

/-- A register that is named by a quote, then a bar behind a control-V and one behind a backslash, then a comment. -/
theorem raw_stops_register :
    let s := Source.ofLines ["@\" \x16| \\| \" c | d"]
    let inv : Invocation := { command := Command.lookup false ['@'], argumentPos := s.position 1 }
    inv.name ∉ ["vimgrep", "vimgrepadd", "lvimgrep", "lvimgrepadd"] ∧
      (∀ f ∈ [Flag.xfile, .files, .file1], inv.has f = false) ∧
      argumentEnd inv s 1 = .ok 8 9 ∧ IsLeast {p | 1 ≤ p ∧ EndsArgument inv s 1 p} 9 ∧
      ∃ edits stop more k, raw inv s 1 = .ok edits stop ∧ trail s stop = .ok more k := by
  intro s inv
  -- The name is looked up once, and not each time the command is run.
  have listed : Command.lookup false ['@'] = some registerCommand := by
    rw [Command.lookup_eq_byInitial]
    decide +kernel
  have known : inv = { command := some registerCommand, argumentPos := s.position 1 } := by simp only [inv, listed]
  clear_value inv
  subst known
  let inv : Invocation := { command := some registerCommand, argumentPos := s.position 1 }
  have noGrep : inv.name ∉ ["vimgrep", "vimgrepadd", "lvimgrep", "lvimgrepadd"] := by decide +kernel
  have noFiles : ∀ f ∈ [Flag.xfile, .files, .file1], inv.has f = false := by decide +kernel
  have found : argumentEnd inv s 1 = .ok 8 9 := by decide +kernel
  have recorded : (raw inv s 1).passes (fun edits => edits.length == 1) = true := by decide +kernel
  obtain ⟨edits, stop', ok, -⟩ := Reply.exists_of_passes _ recorded
  obtain ⟨first, after⟩ := raw_stops inv s 1
  obtain ⟨e, stop, run, least⟩ := first noGrep noFiles
  obtain ⟨rfl, rfl⟩ := Reply.ok.inj (found.symm.trans run)
  obtain ⟨-, more, k, trailed⟩ := after edits stop' ok
  exact ⟨noGrep, noFiles, found, least, edits, stop', more, k, ok, trailed⟩

end Statement

end VimScript
