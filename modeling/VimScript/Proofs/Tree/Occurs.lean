import VimScript.Proofs.Tree.Finished

/-!
Where nodes occur in a tree. In a finished tree every node is well placed below the nodes above it.
-/

set_option autoImplicit false

namespace VimScript.Node

/-- A node in a tree with the nodes above it, the nearest first. -/
inductive Occurs (root : Node) : List Node → Node → Prop where
  | root : Occurs root [] root
  | child {above : List Node} {n c : Node} (place : Occurs root above n) (below : c ∈ n.children) :
      Occurs root (n :: above) c

structure WellPlaced (above : List Node) (n : Node) : Prop where
  script : n.type = .script ↔ above = []
  closed : ∀ block, n.type = .ofBlock block → ∃ c ∈ n.kind.slots.close, c.type = .closer block
  slots : n.kind.slots.Typed
  jump : ∀ verb, n.type = .jump verb → ∃ a ∈ above, a.type = .whileLoop ∨ a.type = .forLoop
  returnValue : n.type = .returnValue → ∃ a ∈ above, a.type = .function

theorem Finished.wellPlaced {n parent : Node} {above : List Node}
    (h : n.Finished ((parent :: above).map Node.type)) : n.WellPlaced (parent :: above) := by
  cases h with
  | intro script closed slots jump returnValue children =>
    refine ⟨by simp [script], closed, slots, ?_, ?_⟩
    · intro verb type
      obtain ⟨t, place, loop⟩ := jump verb type
      obtain ⟨a, inside, rfl⟩ := List.mem_map.mp place
      exact ⟨a, inside, by simpa [NodeType.isLoop] using loop⟩
    · intro type
      obtain ⟨a, inside, same⟩ := List.mem_map.mp (returnValue type)
      exact ⟨a, inside, same⟩

theorem Occurs.finished {root n : Node} {above : List Node} (h : root.Occurs above n)
    (below : ∀ c ∈ root.children, c.Finished [root.type]) (inner : above ≠ []) :
    n.Finished (above.map Node.type) := by
  induction h with
  | root => exact absurd rfl inner
  | @child above parent c place inside ih =>
    cases place with
    | root => exact below c inside
    | child place inside' =>
      cases ih (by simp) with
      | intro _ _ _ _ _ children => exact children c inside

/-- The script is at the root alone. -/
theorem Occurs.wellPlaced {root n : Node} {above : List Node} (h : root.Occurs above n)
    (script : root.type = .script) (slots : root.kind.slots.Typed)
    (below : ∀ c ∈ root.children, c.Finished [root.type]) : n.WellPlaced above := by
  cases above with
  | nil =>
    cases h
    refine ⟨by simp [script], ?_, slots, by simp [script], by simp [script]⟩
    intro block type
    exact absurd (type.symm.trans script) (NodeType.ofBlock_ne_script block)
  | cons parent above => exact (h.finished below (by simp)).wellPlaced

end VimScript.Node
