import VimScript.Proofs.Blocks.Takes
import VimScript.Proofs.Statement.Verbatim

/-!
Open blocks that are verbatim. A block has no text of its own, so it stays verbatim when it takes in what is.
-/

set_option autoImplicit false

namespace VimScript

namespace Node

variable {s : Source} {new : Node} {kind after : Kind Node} {position : Position}

theorem showsText_of_body? (holds : kind.body?.isSome = true) : (Node.mk position kind).ShowsText s := by
  cases kind <;> trivial

/-- A block stays verbatim when it takes in something verbatim. -/
theorem Verbatim.take (h : (Node.mk position kind).Verbatim s) (verbatim : new.Verbatim s)
    (takes : kind.Takes new after) : (Node.mk position after).Verbatim s := by
  have other : kind.nodeType ≠ .dict := by
    have holds := takes.block
    rw [Kind.isSome_body?] at holds
    rintro dict
    rw [dict] at holds
    cases holds
  refine .mk (showsText_of_body? takes.remains) fun c below => ?_
  rcases takes.parts c below with rfl | old
  · exact verbatim
  · exact h.all_children other c old

end Node

namespace Blocks

open Node (AllVerbatim)

variable {s : Source} {b : Blocks} {edits : List Edit}

def Verbatim (s : Source) (b : Blocks) : Prop :=
  AllVerbatim s b.stack

theorem Verbatim.editAll (h : b.Verbatim s) (new : Statement.Records s edits) : (b.editAll edits).Verbatim s :=
  All.editAll h (fun _ _ _ _ block verbatim takes => block.take verbatim takes) new

end Blocks

end VimScript
