import VimScript.Proofs.Statement.Order
import VimScript.Proofs.Statement.Verbatim

/-!
What statements hand over for the commands of one kind. It is enough to know what such a command comes to once its name
has been read: nothing else on the line hands over a node of the kind, and the statement ends behind the end of the
command.
-/

set_option autoImplicit false

namespace VimScript

namespace Statement

open Scan

variable {s : Source} {setting : Setting} {inv : Invocation} {asked : Node → Prop} {holds : Node → Nat → Prop} {i : Nat}

/-- The nodes that are asked about are accounted for: of each, `holds` is known with the cursor at which its command ends. -/
structure Accounts (s : Source) (blocks : Blocks) (asked : Node → Prop) (holds : Node → Nat → Prop) : Prop where
  comment : ∀ n : Node, n.type = .comment → ¬asked n
  bare : ∀ n : Node, n.IsBare → ¬asked n
  ends : ∀ n j, holds n j → ∀ c ∈ (s.ahead j).head?, c = '\n' ∨ c = '|'
  command : ∀ (inv : Invocation) (command : Command) (i : Nat),
    (command ∈ Command.builtin ++ Command.neovimAdded ∨ ∃ name, command = .user name) →
    inv.linePos.cursor ≤ s.size → inv.commandPos.cursor ≤ i → i ≤ lineEnd s inv.commandPos.cursor →
    i ≤ lineEnd s inv.linePos.cursor → i ≤ s.size →
    (invoked blocks inv command).Gives s i fun edits j =>
      ∀ e ∈ edits, asked e.node → e.node.position = inv.commandPos ∧ holds e.node j

theorem Accounts.not_asked (h : Accounts s setting.blocks asked holds) {ns : List Node} {j : Nat}
    (comment : Commented i ns j) : ∀ e ∈ ns.map Edit.add, ¬asked e.node := by
  rcases comment with rfl | ⟨c, rfl, comment, -⟩
  · simp
  · intro e only
    obtain rfl := List.mem_singleton.mp only
    exact h.comment c comment

theorem Accounts.commandPart (h : Accounts s setting.blocks asked holds) (bound : i ≤ s.size)
    (start : inv.linePos.cursor ≤ i) (line : i ≤ lineEnd s inv.linePos.cursor) (unnamed : inv.command = none) :
    (commandPart setting inv).Gives s i fun effect j =>
      ∀ e ∈ effect.edits, asked e.node → i ≤ e.node.position.cursor ∧ holds e.node j := by
  refine .step fun _ k skipped => .after (here_apply s k) (.step fun c l peeked => ?_)
  obtain ⟨later, line'⟩ := Overlap.Steady.stays bound skipped
  obtain ⟨-, inside⟩ := Overlap.Steady.moves bound skipped
  obtain ⟨-, rfl⟩ := Reply.ok.inj peeked
  rw [lineEnd_eq_of_le start line] at line'
  refine .ite (fun _ => .ite (fun _ => .pure (by simp)) fun _ => .step fun edits m run => .pure ?_) fun _ => ?_
  · obtain ⟨text, rfl⟩ := (commandUpTo_textual k).of_ok run
    intro e only own
    obtain rfl := List.mem_singleton.mp only
    exact absurd own (h.bare _ ⟨_, _, rfl, unnamed⟩)
  · refine .step fun found m run => ?_
    have listed := command_listed setting.neovim setting.known _ _ run
    obtain ⟨later', onLine⟩ := Overlap.Steady.stays inside run
    have within := (Overlap.Steady.moves inside run).2
    obtain ⟨_ | command, names⟩ := found
    · exact .step fun _ _ _ => .step fun _ _ _ => .fail
    have onLine' : m ≤ lineEnd s inv.linePos.cursor := by
      rwa [lineEnd_eq_of_le (by omega) line'] at onLine
    have hands := h.command { inv with commandPos := s.position k } command m (listed command rfl)
      (by exact Nat.le_trans start bound) later' onLine onLine' within
    refine hands.bind fun edits j hands => .pure fun e place own => ?_
    obtain ⟨position, known⟩ := hands e place own
    rw [position]
    exact ⟨later, known⟩

theorem Accounts.read (h : Accounts s setting.blocks asked holds) (bound : i ≤ s.size) :
    (read setting).Gives s i fun effect j => ∀ e ∈ effect.edits, asked e.node →
      i ≤ e.node.position.cursor ∧ ∃ k, holds e.node k ∧ j = if k < s.size then k + 1 else k := by
  refine .step fun two k peeked => ?_
  obtain ⟨first, within⟩ := Overlap.Steady.moves bound peeked
  refine .ite (fun _ => .step fun _ _ _ => .pure (by simp)) fun _ => .step fun _ l skipped => .step fun c m peeked' => ?_
  obtain ⟨later, within'⟩ := Overlap.Steady.moves within skipped
  obtain ⟨rfl, rfl⟩ := Reply.ok.inj peeked'
  split
  -- A line that ends here and a comment hand over nothing that is asked about, so only commands are left.
  · exact .step fun _ _ _ => .pure (by simp)
  · rename_i quote
    have more : l < s.size := by
      obtain ⟨char, -⟩ := Option.filter_eq_some_iff.mp quote
      exact (Array.getElem?_eq_some_iff.mp char).1
    refine (comment_gives more).bind ?_
    rintro _ j ⟨c, rfl, comment, place, less⟩
    have commented : Commented l [c] j := .inr ⟨c, rfl, comment, Nat.le_of_eq place.symm, by omega⟩
    exact .step fun _ _ _ => .pure fun e only own => absurd own (h.not_asked commented e only)
  · refine .after (here_apply s l) (.step fun modifiers k₁ run₁ => .step fun range k₂ run₂ => ?_)
    obtain ⟨later₁, line₁⟩ := Overlap.Steady.stays within' run₁
    have within₁ := (Overlap.Steady.moves within' run₁).2
    obtain ⟨later₂, line₂⟩ := Overlap.Steady.stays within₁ run₂
    have within₂ := (Overlap.Steady.moves within₁ run₂).2
    rw [lineEnd_eq_of_le later₁ line₁] at line₂
    have start : l ≤ k₂ := Nat.le_trans later₁ later₂
    refine ((commandPart_gives within₂ start line₂ rfl).both (h.commandPart within₂ start line₂ rfl)).bind ?_
    rintro effect m ⟨stepped, hands⟩
    refine .step fun edits j run => .pure fun e place own => ?_
    -- The command leaves the cursor where the statement ends: the trail takes nothing but a bar or the end of the line.
    rcases List.mem_append.mp place with inside | other
    · obtain ⟨later₃, known⟩ := hands e inside own
      rw [trail_of_stops (h.ends _ _ known)] at run
      exact ⟨by omega, m, known, (Reply.ok.inj run).2.symm⟩
    · obtain ⟨ns, rfl, comment, -⟩ := trail_gives stepped.bound _ _ run
      exact absurd own (h.not_asked comment e other)

end Statement

end VimScript
