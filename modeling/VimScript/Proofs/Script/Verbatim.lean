import VimScript.Proofs.Blocks.Verbatim
import VimScript.Proofs.Script.Parsed

/-!
Trees are verbatim. What a leaf, a comment or a command has as its text is what stands in the buffer, at a cursor that
can be told from the node.
-/

set_option autoImplicit false

namespace VimScript

namespace Node

variable {n : Node} {text : String}

/-- The text of a command that is kept as text. -/
def commandText? (n : Node) : Option String :=
  match n.kind with
  | .command _ text => some text
  | _ => none

theorem kind_of_leafText? (h : n.leafText? = some text) : ∃ sort, n.kind = .leaf sort text := by
  obtain ⟨position, kind⟩ := n
  cases kind <;> simp [leafText?, Kind.leafText?] at h ⊢
  exact h

theorem kind_of_commandText? (h : n.commandText? = some text) : ∃ inv, n.kind = .command inv text := by
  obtain ⟨position, kind⟩ := n
  cases kind <;> simp [commandText?] at h ⊢
  exact h

end Node

namespace Script

variable {neovim : Bool} {s : Source} {known names : Statement.UserNames} {edits : List Edit} {blocks : Blocks}
  {i j : Nat} {root : Node}

theorem Reaches.verbatim (h : Reaches neovim s known edits names blocks i) : blocks.Verbatim s := by
  induction h with
  | start => exact .single (.mk trivial .nil)
  | step before more read ih => exact ih.editAll (Statement.read_records _ _ read)

theorem readWith_verbatim (ok : (readWith neovim known s).1 = .ok root j) : root.Verbatim s := by
  obtain ⟨_, _, _, _, n, reached, _, stack, type, _, rfl⟩ := readWith_ok ok
  have verbatim : n.Verbatim s := reached.verbatim n (by simp [stack])
  have script : n.kind.body?.isSome = true := by simp [Kind.isSome_body?, ← Node.type.eq_1, type]
  exact .mk (Node.showsText_of_body? script) (verbatim.all_children (by simp [type]))

end Script

namespace Parsed

variable {s : Source} {root n : Node} {above : List Node} {text : String}

theorem verbatim (parsed : Parsed s root) : root.Verbatim s := by
  cases parsed with
  | expression ok => exact Expr.read_verbatim _ _ _ _ ok
  | target ok => exact Target.read_verbatim _ _ _ _ ok
  | script ok => exact Script.readWith_verbatim ok

/-- The text of a leaf stands where the leaf does; only a key without quotes is no text of the buffer. -/
theorem leaf_verbatim {sort : Leaf} (parsed : Parsed s root) (place : root.Occurs above n)
    (leaf : n.kind = .leaf sort text) :
    s.text n.position.cursor (n.position.cursor + text.length) = text ∨
      ∃ parent ∈ above.head?, parent.IsLiteralKey s n := by
  refine (place.verbatim parsed.verbatim).imp_left fun verbatim => ?_
  obtain ⟨position, kind⟩ := n
  obtain rfl := leaf
  exact verbatim.own

theorem leaf_verbatim_value :
    ∃ root j n sort, Expr.ofLine "#\x7ba: $B\x7d" = .ok root j ∧ root.Occurs [root] n ∧ n.kind = .leaf sort "$B" ∧
      ((Source.ofLines ["#\x7ba: $B\x7d"]).text n.position.cursor (n.position.cursor + "$B".length) = "$B" ∨
        ∃ parent ∈ [root].head?, parent.IsLiteralKey (.ofLines ["#\x7ba: $B\x7d"]) n) := by
  have value : (Expr.ofLine "#\x7ba: $B\x7d").passes
      (fun root => root.children.any fun n => n.leafText? == some "$B") = true := by decide +kernel
  obtain ⟨root, j, ok, found⟩ := Reply.exists_of_passes _ value
  obtain ⟨n, below, found⟩ := List.any_eq_true.mp found
  obtain ⟨sort, leaf⟩ := Node.kind_of_leafText? (eq_of_beq found)
  have parsed : Parsed (.ofLines ["#\x7ba: $B\x7d"]) root := .expression ok
  exact ⟨root, j, n, sort, ok, .child .root below, leaf, leaf_verbatim parsed (.child .root below) leaf⟩

/-- The text of a command stands from the start of its line on, that of a comment from the character after its quote to
the end of the line, and that of a highlighting where the argument starts. -/
theorem statement_verbatim (parsed : Parsed s root) (place : root.Occurs above n) :
    (∀ inv text, n.kind = .command inv text →
      s.text inv.linePos.cursor (inv.linePos.cursor + text.length) = text) ∧
    (∀ text, n.kind = .comment text →
      s.text (n.position.cursor + 1) (n.position.cursor + 1 + text.length) = text ∧ '\n' ∉ text.toList ∧
        ∀ c ∈ s.char? (n.position.cursor + 1 + text.length), c = '\n') ∧
    (∀ inv text, n.kind = .echoHl inv text →
      s.text inv.argumentPos.cursor (inv.argumentPos.cursor + text.length) = text) := by
  rcases place.verbatim parsed.verbatim with verbatim | ⟨dict, -, key⟩
  · obtain ⟨position, kind⟩ := n
    have own := verbatim.own
    refine ⟨?_, ?_, ?_⟩
    · rintro inv text rfl
      exact own
    · rintro text rfl
      exact ⟨own.shows, own.line, own.stop⟩
    · rintro inv text rfl
      exact own
  -- A literal key is no statement.
  · obtain ⟨_, _, leaf, -⟩ := key.key
    simp [leaf]

theorem statement_verbatim_append :
    ∃ root j n inv text, Script.ofLines false ["append", "x", "."] = .ok root j ∧ root.Occurs [root] n ∧
      n.kind = .command inv text ∧ text = "append\nx\n." ∧
      (Source.ofLines ["append", "x", "."]).text inv.linePos.cursor (inv.linePos.cursor + text.length) = text := by
  have lines : (Script.ofLines false ["append", "x", "."]).passes
      (fun root => root.children.any fun n => n.commandText? == some "append\nx\n.") = true := by decide +kernel
  obtain ⟨root, j, ok, found⟩ := Reply.exists_of_passes _ lines
  obtain ⟨n, below, found⟩ := List.any_eq_true.mp found
  obtain ⟨inv, kind⟩ := Node.kind_of_commandText? (eq_of_beq found)
  have parsed : Parsed (.ofLines ["append", "x", "."]) root := ofLines ok
  exact ⟨root, j, n, inv, _, ok, .child .root below, kind, rfl,
    (statement_verbatim parsed (.child .root below)).1 inv _ kind⟩

end Parsed

end VimScript
