import VimScript.Proofs.Overlap.Run
import VimScript.Proofs.Script.Initials
import VimScript.Proofs.Script.Structure
import VimScript.Proofs.Statement.Order

/-!
Scripts in the order of the source. Between any two statements the open blocks hold what was read so far in order, and
so does the tree at the end.
-/

set_option autoImplicit false

namespace VimScript

namespace Script

open Statement (UserNames)

variable {neovim : Bool} {s : Source} {known names : UserNames} {blocks : Blocks} {edits : List Edit} {i j : Nat}
  {root : Node}

theorem Reaches.rising (h : Reaches neovim s known edits names blocks i) : Blocks.Rising blocks.stack (s.beyond i) := by
  -- A statement starts where the one before it ended, and its edits come in order from there on.
  induction h with
  | start =>
    have fresh : (Node.mk (s.position 0) (.script [])).OrderedUpTo (s.beyond 0) := by
      refine ⟨.nil (Nat.zero_le _), ?_, ?_⟩
      · simp [Kind.slots, Slots.branches]
      · simp [Node.children, Kind.children]
    exact ⟨fresh, trivial⟩
  | step before more read ih =>
    have rises := (Statement.read_gives before.bound).of_ok read
    rw [Source.beyond_of_lt more] at ih
    exact ih.editAll before.stands ((Statement.read_delivers _).of_ok read) rises.1

end Script

end VimScript
