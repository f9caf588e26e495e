import Mathlib.Data.List.Infix
import VimScript.Proofs.Overlap.Block
import VimScript.Proofs.Statement.Text
import VimScript.Proofs.Statement.Verbatim

/-!
Commands of blocks and jumps that stand alone. They take nothing but their names, so that what they come to is up to the
open blocks, whether the line ends after the name or goes on with a bar.
-/

set_option autoImplicit false

namespace VimScript

/-- Whether the command opens, divides, closes or leaves a block and takes no argument. -/
def CommandForm.isBare : CommandForm → Bool
  | .opener .tryBlock | .elseBranch | .finallyBranch | .closer _ | .jump _ => true
  | _ => false

/-- A line with such a command and nothing else on it. The name may be abbreviated. -/
structure BareCommand (neovim : Bool) where
  lead : List Char
  name : List Char
  blanks : List Char
  command : Command
  opens : ∀ c ∈ lead, CharClass.white.has c = true ∨ c = ':'
  ends : ∀ c ∈ blanks, CharClass.white.has c = true
  found : Command.lookup neovim name = some command
  bare : command.form.isBare = true

namespace BareCommand

variable {neovim : Bool} (x : BareCommand neovim)

def text : List Char :=
  x.lead ++ (x.name ++ x.blanks)

def line : String :=
  .ofList x.text

end BareCommand

namespace Statement

variable {s t : Source} {i j k : Nat} {b c : Blocks} {inv : Invocation} {edits : List Edit} {form : CommandForm}
  {lead cs : List Char}

/-! ### Blanks before a statement -/

theorem peekRun_two_of_ahead (h : s.ahead i = cs) (noShebang : ¬['#', '!'] <+: cs) :
    ∃ two, Scan.peekRun 2 s i = .ok two i ∧ (two == "#!") = false := by
  refine ⟨_, Scan.peekRun_of_ahead 2 h, ?_⟩
  rw [beq_eq_false_iff_ne]
  intro same
  have chars : (cs.take 2).takeWhile (· != '\n') = ['#', '!'] := by
    simpa using congrArg String.toList same
  exact noShebang (chars ▸ (List.takeWhile_prefix _).trans (List.take_prefix 2 cs))

/-- Blanks and colons before a statement are skipped. -/
theorem read_skip (setting : Setting) (opens : ∀ c ∈ lead, CharClass.white.has c = true ∨ c = ':') (h : s.ahead i = lead ++ cs)
    (noShebang : ¬['#', '!'] <+: cs) : read setting s i = read setting s (i + lead.length) := by
  have after := Source.ahead_of_append h
  -- The test for `#!` comes first, and fails before the blanks as it does after them.
  have noShebang' : ¬['#', '!'] <+: lead ++ cs := by
    cases lead with
    | nil => exact noShebang
    | cons c lead =>
      intro starts
      obtain rfl : '#' = c := (List.cons_prefix_cons.mp starts).1
      exact absurd (opens '#' (by simp)) (by decide)
  obtain ⟨two, peeked, other⟩ := peekRun_two_of_ahead h noShebang'
  obtain ⟨two', peeked', other'⟩ := peekRun_two_of_ahead after noShebang
  have skipped : Scan.skipWhiteAndColons s i = Scan.skipWhiteAndColons s (i + lead.length) := by
    have inside : ∀ c ∈ lead, (c != '\n' && (CharClass.white.has c || c == ':')) = true := by
      intro c place
      rcases opens c place with white | rfl
      · simp [white, Scan.ne_newline_of_has white]
      · decide
    rw [Scan.skipWhiteAndColons, Scan.skipWhile_eq, Scan.skipWhile_eq, h, after, Source.run,
      List.takeWhile_append_of_pos inside, List.length_append, Nat.add_assoc, Source.run]
  simp only [read, Scan.bind_of_ok peeked, Scan.bind_of_ok peeked', other, other', Bool.false_eq_true, if_false]
  rw [Scan.bind_apply, Scan.bind_apply, skipped]

/-! ### The command -/

/-- What a bare command hands over. -/
def bareEdit (inv : Invocation) : CommandForm → Edit
  | .elseBranch => .openBranch (.mk inv.commandPos (.elseBranch inv []))
  | .finallyBranch => .openBranch (.mk inv.commandPos (.finallyBranch inv []))
  | .closer block => .closeBlock (.mk inv.commandPos (.closer block inv))
  | .jump verb => .add (.mk inv.commandPos (.jump verb inv))
  | _ => .openBlock (.mk inv.commandPos (.tryBlock inv [] [] none none))

/-- What is open decides whether a bare command is taken, and nothing is read for it. -/
theorem body_of_bare (bare : form.isBare = true) (other : form ≠ .closer .function) (types : b.SameTypes c)
    (ok : body b inv form s i = .ok edits j) (inv' : Invocation) (t : Source) (k : Nat) :
    edits = [bareEdit inv form] ∧ j = i ∧ body c inv' form t k = .ok [bareEdit inv' form] k := by
  cases form with
  | opener block =>
    cases block <;> try contradiction
    obtain ⟨rfl, rfl⟩ := Reply.ok.inj ok
    exact ⟨rfl, rfl, rfl⟩
  | elseBranch =>
    simp only [body, elseCommand, ← types.innermost] at ok ⊢
    split at ok
    · cases ok
    · rename_i open_
      obtain ⟨rfl, rfl⟩ := Reply.ok.inj ok
      rw [if_neg open_]
      exact ⟨rfl, rfl, rfl⟩
  | finallyBranch =>
    simp only [body, finallyCommand, ← types.innermost] at ok ⊢
    split at ok
    · cases ok
    · rename_i open_
      obtain ⟨rfl, rfl⟩ := Reply.ok.inj ok
      rw [if_neg open_]
      exact ⟨rfl, rfl, rfl⟩
  | closer block =>
    have plain : (block == .function) = false := by simpa using other
    simp only [body, closer, plain, ← types.innermost, Bool.false_eq_true, if_false] at ok ⊢
    split at ok
    · cases ok
    · rename_i open_
      obtain ⟨rfl, rfl⟩ := Reply.ok.inj ok
      rw [if_neg open_]
      exact ⟨rfl, rfl, rfl⟩
  | jump verb =>
    simp only [body, jump, ← types.insideLoop] at ok ⊢
    split at ok
    · cases verb <;> cases ok
    · rename_i open_
      obtain ⟨rfl, rfl⟩ := Reply.ok.inj ok
      rw [if_neg open_]
      exact ⟨rfl, rfl, rfl⟩
  | _ => contradiction

end Statement

namespace BareCommand

open Statement

variable {neovim : Bool} (x : BareCommand neovim)

/-- The bare commands of the tables are plain ones, and so are their names. -/
theorem plain : IsPlainCommand x.command ∧ IsCommandName x.name := by
  have table : ∀ command ∈ Command.builtin ++ Command.neovimAdded, command.form.isBare = true →
      (command.name != "!") = true ∧ command.has .argopt = false ∧ command.has .editcmd = false ∧
        command.name ∉ ["write", "update", "read", "<", ">"] ∧
          ∀ name ∈ command.name.toList.inits, command.least ≤ name.length → checksName name = true := by
    rw [← charsOf_eq_toList]
    decide +kernel
  obtain ⟨listed, accepted⟩ := listed_of_lookup x.found
  obtain ⟨noShell, noOptions, noStart, noLeadIn, names⟩ := table _ listed x.bare
  obtain ⟨starts, least⟩ : x.name.isPrefixOf x.command.name.toList = true ∧ x.command.least ≤ x.name.length := by
    simpa [Command.accepts] using accepted
  have checks := names x.name ((List.mem_inits _ _).mpr (List.isPrefixOf_iff_prefix.mp starts)) least
  exact ⟨⟨noShell, noOptions, noStart, noLeadIn⟩, .of_checks checks⟩

/-- Up to the end of its line or a bar a bare command is read by its name. -/
theorem read_eq (setting : Setting) (editor : setting.neovim = neovim) {s : Source} {i : Nat} {gap cs : List Char} {d : Char}
    (white : ∀ c ∈ gap, CharClass.white.has c = true) (stop : d = '\n' ∨ d = '|')
    (h : s.ahead i = x.text ++ (gap ++ d :: cs)) :
    ∃ inv : Invocation, inv.placed (fun _ => .unset) = { command := some x.command } ∧
      read setting s i = (do
        let edits ← body setting.blocks inv x.command.form
        let more ← trail
        return (⟨edits ++ more, setting.known⟩ : Effect)) s (i + x.text.length + gap.length) := by
  obtain ⟨plain, name⟩ := x.plain
  have split : s.ahead i = x.lead ++ (x.name ++ ((x.blanks ++ gap) ++ d :: cs)) := by
    simpa [text] using h
  have noShebang : ¬['#', '!'] <+: x.name ++ ((x.blanks ++ gap) ++ d :: cs) := by
    obtain ⟨w, rest, same, letter, -⟩ := name.cons
    intro starts
    rw [same, List.cons_append] at starts
    exact ne_of_alpha '#' letter rfl (List.cons_prefix_cons.mp starts).1.symm
  have blank : ∀ c ∈ x.blanks ++ gap, CharClass.white.has c = true := by
    intro c place
    exact (List.mem_append.mp place).elim (x.ends c) (white c)
  have solid : CharClass.white.hasOpt (d :: cs).head? = false := by
    rcases stop with rfl | rfl <;> rfl
  have front : CharClass.alpha.hasOpt ((x.blanks ++ gap) ++ d :: cs).head? = false ∧
      ((x.blanks ++ gap) ++ d :: cs).head? ≠ some '!' := by
    generalize x.blanks ++ gap = blanks at blank
    cases blanks with
    | nil => rcases stop with rfl | rfl <;> exact ⟨rfl, by simp⟩
    | cons c blanks =>
      have space := blank c (by simp)
      refine ⟨CharClass.forall_of_table (p := fun c => CharClass.alpha.has c = false) (by decide) space, ?_⟩
      rintro ⟨⟩
      exact absurd space (by decide)
  have named := read_of_name setting name plain (editor ▸ x.found) _ blank solid front.1 front.2 (Source.ahead_of_append split)
  have place : i + x.lead.length + x.name.length + (x.blanks ++ gap).length = i + x.text.length + gap.length := by
    simp only [text, List.length_append]
    omega
  refine ⟨_, ?_, (read_skip setting x.opens split noShebang).trans (place ▸ named)⟩
  rfl

/-- A bare command other than the end of a function is the same before a bar as at the end of its line. -/
theorem read_bar {s t : Source} {k l j : Nat} {cs ds : List Char} {b c : Blocks} {known : UserNames}
    {effect : Effect} (other : x.command.form ≠ .closer .function) (types : b.SameTypes c)
    (left : s.ahead k = x.text ++ '\n' :: cs) (right : t.ahead l = x.text ++ ' ' :: '|' :: ds)
    (ok : read ⟨neovim, known, b⟩ s k = .ok effect j) :
    ∃ inv inv', inv.placed (fun _ => .unset) = inv'.placed (fun _ => .unset) ∧
      effect = ⟨[bareEdit inv x.command.form], known⟩ ∧ j = k + x.text.length + 1 ∧
        read ⟨neovim, known, c⟩ t l = .ok ⟨[bareEdit inv' x.command.form], known⟩ (l + x.text.length + 2) := by
  have left' : s.ahead k = x.text ++ ([] ++ '\n' :: cs) := left
  have right' : t.ahead l = x.text ++ ([' '] ++ '|' :: ds) := right
  -- Behind the name there is nothing in the first buffer, and a blank before the bar in the second.
  obtain ⟨inv, placed, run⟩ := x.read_eq ⟨neovim, known, b⟩ rfl (by simp) (.inl rfl) left'
  obtain ⟨inv', placed', run'⟩ := x.read_eq ⟨neovim, known, c⟩ rfl (by simp; rfl) (.inr rfl) right'
  refine ⟨inv, inv', placed.trans placed'.symm, ?_⟩
  rw [run] at ok
  obtain ⟨edits, i, taken, ok⟩ := Scan.bind_ok.mp ok
  obtain ⟨rfl, rfl, taken'⟩ := body_of_bare x.bare other types taken inv' t (l + x.text.length + 1)
  have ended := trail_of_stop (.inl rfl) (Source.ahead_of_append left)
  have ended' : trail t (l + x.text.length + 1) = .ok [] (l + x.text.length + 1 + 1) := by
    have bar : t.ahead (l + x.text.length) = [' '] ++ '|' :: ds := Source.ahead_of_append right
    exact trail_of_stop (.inr rfl) (Source.ahead_of_append bar)
  rw [List.length_nil, Nat.add_zero, Scan.bind_of_ok ended] at ok
  obtain ⟨rfl, rfl⟩ := Reply.ok.inj ok
  refine ⟨rfl, rfl, ?_⟩
  rw [run', List.length_singleton, Scan.bind_of_ok taken', Scan.bind_of_ok ended']
  rfl

end BareCommand

end VimScript
