import VimScript.Proofs.Blocks.Edits
import VimScript.Proofs.Tree.Map
import VimScript.Proofs.Tree.Occurs
import VimScript.Tree.Fold

/-!
Nodes counted by their labels. A node keeps its label while it grows, so the labels on the stack of open blocks are
those of all nodes that were ever handed to it, each as often as it was handed over.
-/

set_option autoImplicit false

namespace VimScript

/-- What stays the same about a node from its own line on: its place, its type and its command. -/
abbrev Label := Position × NodeType × Option Invocation

namespace Node

def label (n : Node) : Label :=
  (n.position, n.type, n.invocation?)

/-- The labels of all nodes of a tree. -/
def labels : Node → List Label :=
  fold fun position kind => (position, kind.nodeType, kind.invocation?) :: kind.children.flatten

theorem labels_eq (n : Node) : n.labels = n.label :: n.children.flatMap labels := by
  obtain ⟨position, kind⟩ := n
  simp [labels, fold_mk, Kind.children_map, label, type, invocation?, children, List.flatMap]

theorem label_mem_labels (n : Node) : n.label ∈ n.labels := by
  rw [labels_eq]
  exact List.mem_cons_self

theorem Occurs.labels {root n : Node} {above : List Node} (place : root.Occurs above n) : n.labels ⊆ root.labels := by
  induction place with
  | root => exact List.Subset.refl _
  | @child above n c _ inside ih =>
    intro label known
    apply ih
    rw [labels_eq]
    exact List.mem_cons_of_mem _ (List.mem_flatMap.mpr ⟨c, inside, known⟩)

/-- Expressions have no commands. -/
theorem IsExpression.labels {n : Node} (h : n.IsExpression) : ∀ label ∈ n.labels, label.2.2 = none := by
  induction h with
  | @intro n type children ih =>
    intro label place
    rw [labels_eq] at place
    rcases List.mem_cons.mp place with rfl | below
    · obtain ⟨position, kind⟩ := n
      cases kind <;> first | rfl | cases type
    · obtain ⟨c, child, inside⟩ := List.mem_flatMap.mp below
      exact ih c child label inside

theorem Gains.labels {child before after : Node} (h : child.Gains before after) :
    after.labels.Perm (child.labels ++ before.labels) := by
  have same : after.label = before.label := by
    simp [label, h.position, h.type, h.invocation]
  rw [labels_eq after, labels_eq before, same]
  have below : (after.children.flatMap Node.labels).Perm
      (child.labels ++ before.children.flatMap Node.labels) := by
    simpa using h.children.flatMap_right Node.labels
  exact (below.cons _).trans List.perm_middle.symm

end Node

def Edit.node : Edit → Node
  | .add n | .openBlock n | .openBranch n | .closeBlock n => n

namespace Blocks

/-- Below the node of an edit there are expressions alone. -/
theorem Admits.children {b : Blocks} {e : Edit} (ok : b.Admits e) : ∀ c ∈ e.node.children, c.IsExpression := by
  cases e with
  | add statement => exact ok.1.children
  | openBlock block => exact ok.1.children
  | openBranch branch => exact ok.1.children
  | closeBlock closer =>
    obtain ⟨sort, closes, -⟩ := ok
    obtain ⟨position, kind⟩ := closer
    cases kind <;> simp [Node.type, Kind.nodeType] at closes
    simp [Edit.node, Node.children, Kind.children]

def labels (b : Blocks) : List Label :=
  b.stack.flatMap Node.labels

theorem Stores.labels {n : Node} {before after : Blocks} (h : Stores n before after) :
    after.labels.Perm (n.labels ++ before.labels) := by
  obtain ⟨top, top', outer, stack, stack', gains⟩ := h
  simpa [Blocks.labels, stack, stack'] using gains.labels.append_right (outer.flatMap Node.labels)

theorem Leaves.labels {before after : Blocks} (h : Leaves before after) :
    after.labels.Perm before.labels := by
  unfold Leaves at h
  split at h
  · obtain ⟨branch, outer, stack, stores⟩ := h
    simpa [Blocks.labels, stack] using stores.labels
  · rw [h]

theorem Performs.labels {b : Blocks} {e : Edit} (h : b.Performs e) :
    (b.edit e).labels.Perm (e.node.labels ++ b.labels) := by
  cases e with
  | add statement => exact Stores.labels h
  | openBlock block =>
    have stack : (b.edit (.openBlock block)).stack = block :: b.stack := h
    simp [Blocks.labels, stack, Edit.node]
  | openBranch branch =>
    obtain ⟨leaves, stack⟩ := h
    simpa [Blocks.labels, stack, Edit.node] using leaves.labels.append_left branch.labels
  | closeBlock closer =>
    obtain ⟨leaves, block, block', outer, stack, gains, stores⟩ := h
    have left : (block.labels ++ outer.flatMap Node.labels).Perm b.labels := by
      simpa [Blocks.labels, stack] using leaves.labels
    have closed := gains.labels.append_right (outer.flatMap Node.labels)
    rw [List.append_assoc] at closed
    exact stores.labels.trans (closed.trans (left.append_left _))

theorem PerformsAll.labels {b : Blocks} {edits : List Edit} (h : b.PerformsAll edits) :
    (b.editAll edits).labels.Perm (edits.flatMap (fun e => e.node.labels) ++ b.labels) := by
  induction edits generalizing b with
  | nil => exact .refl _
  | cons e edits ih =>
    have rest := (ih h.2).trans (h.1.labels.append_left _)
    rw [List.flatMap_cons, List.append_assoc]
    refine rest.trans ?_
    rw [← List.append_assoc, ← List.append_assoc]
    exact List.perm_append_comm.append_right _

/-! ### The bottom of the stack -/

def bottom? (b : Blocks) : Option Label :=
  (b.stack.map Node.label).getLast?

theorem Stores.bottom? {n : Node} {before after : Blocks} (h : Stores n before after) :
    after.bottom? = before.bottom? := by
  obtain ⟨top, top', outer, stack, stack', gains⟩ := h
  have same : top'.label = top.label := by simp [Node.label, gains.position, gains.type, gains.invocation]
  simp [Blocks.bottom?, stack, stack', same]

theorem Leaves.bottom? {before after : Blocks} (h : Leaves before after) : after.bottom? = before.bottom? := by
  unfold Leaves at h
  split at h
  · obtain ⟨branch, outer, stack, stores⟩ := h
    rw [stores.bottom?]
    obtain ⟨top, _, rest, (below : outer = top :: rest), _⟩ := stores
    simp [Blocks.bottom?, stack, below]
  · rw [h]

theorem Performs.bottom? {b : Blocks} {e : Edit} {label : Label} (h : b.Performs e) (bottom : b.bottom? = some label) :
    (b.edit e).bottom? = some label := by
  have pushed : ∀ {n : Node} {before after : Blocks}, after.stack = n :: before.stack →
      before.bottom? = some label → after.bottom? = some label := by
    intro n before after stack bottom
    simp only [Blocks.bottom?] at bottom ⊢
    simp [stack, List.getLast?_cons, bottom]
  cases e with
  | add statement => exact (Stores.bottom? h).trans bottom
  | openBlock block => exact pushed h bottom
  | openBranch branch => exact pushed h.2 (h.1.bottom?.trans bottom)
  | closeBlock closer =>
    obtain ⟨leaves, block, block', outer, stack, gains, stores⟩ := h
    have left := leaves.bottom?.trans bottom
    rw [stores.bottom?]
    obtain ⟨top, _, rest, (below : outer = top :: rest), _⟩ := stores
    simpa [Blocks.bottom?, stack, below] using left

theorem PerformsAll.bottom? {b : Blocks} {edits : List Edit} {label : Label} (h : b.PerformsAll edits)
    (bottom : b.bottom? = some label) : (b.editAll edits).bottom? = some label := by
  induction edits generalizing b with
  | nil => exact bottom
  | cons e edits ih => exact ih h.2 (h.1.bottom? bottom)

end Blocks

end VimScript
