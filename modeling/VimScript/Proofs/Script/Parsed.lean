import VimScript.Proofs.Script.Initials
import VimScript.Proofs.Script.Structure
import VimScript.Proofs.Tree.Entries

/-!
All trees that come from a buffer, of expressions and targets as well as of scripts, and their fingerprints: what the
page makes of a tree is its entries.
-/

set_option autoImplicit false

namespace VimScript

open Fingerprint (Puts)

/-- A tree read from a buffer: an expression or a target from any cursor on, or a whole script. -/
inductive Parsed (s : Source) : Node → Prop where
  | expression {n : Node} {i j : Nat} (ok : Expr.read s i = .ok n j) : Parsed s n
  | target {n : Node} {i j : Nat} (ok : Target.read s i = .ok n j) : Parsed s n
  | script {neovim : Bool} {known : Statement.UserNames} {n : Node} {j : Nat}
      (ok : (Script.readWith neovim known s).1 = .ok n j) : Parsed s n

namespace Parsed

variable {s : Source} {root n : Node} {above : List Node}

theorem ofLines {neovim : Bool} {lines : List String} {j : Nat} (ok : Script.ofLines neovim lines = .ok root j) :
    Parsed (.ofLines lines) root :=
  .script ok

/-- The parts of a tree are in their slots, and those below the root are finished. -/
theorem finished (parsed : Parsed s root) :
    root.kind.slots.Typed ∧ (∀ c ∈ root.children, c.Finished [root.type]) ∧ root.ownEntries = root.entries := by
  have expression {n : Node} (known : n.IsExpression) :
      n.kind.slots.Typed ∧ (∀ c ∈ n.children, c.Finished [n.type]) ∧ n.ownEntries = n.entries := by
    obtain ⟨position, kind⟩ := n
    have type := known.type
    refine ⟨?_, fun c below => (known.children c below).finished _, ?_⟩
    · cases kind <;> first | exact .empty | cases type
    · cases kind <;> first | rfl | cases type
  cases parsed with
  | expression ok => exact expression (Expr.read_delivers.of_ok ok)
  | target ok => exact expression (Target.read_delivers.of_ok ok)
  | script ok =>
    obtain ⟨_, _, _, _, n, _, _, _, type, grows, rfl⟩ := Script.readWith_ok ok
    refine ⟨grows.slots, grows.children, ?_⟩
    have same : (Node.mk .origin n.kind).type = .script := type
    rw [Node.ownEntries, same]
    rfl

theorem writtenByEntries (parsed : Parsed s root) (place : root.Occurs above n) : n.WrittenByEntries := by
  obtain ⟨slots, below, -⟩ := parsed.finished
  cases place with
  | root =>
    obtain ⟨position, kind⟩ := root
    exact Node.writtenByEntries_mk slots fun c child => (below c child).writtenByEntries
  | child place child => exact ((place.child child).finished below (by simp)).writtenByEntries

/-- A tree is printed as its entries, and whatever is printed in it, at any indent, is printed as its own entries and
leaves the indents as they are. -/
theorem fingerprint_eq_entries (parsed : Parsed s root) :
    root.fingerprint = root.entries ∧
      ∀ above n, root.Occurs above n → Puts (Fingerprint.ofNode n).write n.ownEntries := by
  refine ⟨?_, fun above n place => (parsed.writtenByEntries place).own⟩
  rw [← parsed.finished.2.2]
  exact (parsed.writtenByEntries .root).fingerprint

theorem fingerprint_eq_entries_nested :
    ∃ root j, Script.ofLines false ["if x", "if y", "echo 1", "else", "endif", "endif"] = .ok root j ∧
      root.fingerprint = root.entries ∧ root.entries = ["(if x", "  (if y", "    (echo 1)", "   else))"] := by
  have nested : (Script.ofLines false ["if x", "if y", "echo 1", "else", "endif", "endif"]).passes
      (fun root => root.entries == ["(if x", "  (if y", "    (echo 1)", "   else))"]) = true := by
    rw [Script.ofLines_eq_byInitial]
    decide +kernel
  obtain ⟨root, j, ok, found⟩ := Reply.exists_of_passes _ nested
  exact ⟨root, j, ok, (fingerprint_eq_entries (ofLines ok)).1, eq_of_beq found⟩

end Parsed

end VimScript
