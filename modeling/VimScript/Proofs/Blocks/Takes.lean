import VimScript.Proofs.Blocks.Labels

/-!
What a block takes in: a statement, a branch or a closing command, and nothing else in it is new. A property that blocks
keep when they take in nodes that have it is kept by all edits.
-/

set_option autoImplicit false

namespace VimScript

namespace Kind

variable {α : Type} {kind after : Kind α} {new c : α}

/-- A block takes in one node, and nothing else in it is new. -/
structure Takes (kind : Kind α) (new : α) (after : Kind α) : Prop where
  block : kind.body?.isSome = true
  remains : after.body?.isSome = true
  parts : ∀ c ∈ after.children, c = new ∨ c ∈ kind.children

theorem append?_takes (h : kind.append? new = some after) : kind.Takes new after := by
  cases kind <;> simp only [append?, reduceCtorEq, Option.some.injEq] at h
  all_goals
    subst h
    refine ⟨rfl, rfl, fun c below => ?_⟩
    simp only [Kind.children, List.mem_append, List.mem_cons, List.not_mem_nil] at below ⊢
    grind

theorem link?_takes {type : NodeType} (h : kind.link? new type = some after) : kind.Takes new after := by
  cases kind <;> simp only [link?, reduceCtorEq] at h
  all_goals
    split at h
    all_goals
      obtain rfl := Option.some.inj h
      refine ⟨rfl, rfl, fun c below => ?_⟩
      simp only [Kind.children, List.mem_append, List.mem_cons, Option.mem_toList, Option.some.injEq] at below ⊢
      grind

/-- Only blocks are closed. -/
theorem closeWith_takes (new : α) (kind : Kind α) :
    kind.closeWith new = kind ∨ kind.Takes new (kind.closeWith new) := by
  cases kind <;> first | exact .inl rfl | refine .inr ⟨rfl, rfl, fun c below => ?_⟩
  all_goals
    simp only [closeWith, Kind.children, List.mem_append, List.mem_cons, Option.mem_toList, Option.some.injEq]
      at below ⊢
    grind

end Kind

namespace Blocks

variable {P : Node → Prop} {b : Blocks} {n : Node} {e : Edit} {edits : List Edit}

/-- A block that has a property still has it when it has taken in a node that has it too. -/
def KeptByTaking (P : Node → Prop) : Prop :=
  ∀ (position : Position) (kind after : Kind Node) (new : Node),
    P (.mk position kind) → P new → kind.Takes new after → P (.mk position after)

def All (P : Node → Prop) (b : Blocks) : Prop :=
  ∀ n ∈ b.stack, P n

theorem All.push (h : b.All P) (new : P n) : (b.push n).All P :=
  List.forall_mem_cons.mpr ⟨new, h⟩

theorem All.add (h : b.All P) (kept : KeptByTaking P) (new : P n) : (b.add n).All P := by
  obtain ⟨stack⟩ := b
  cases stack with
  | nil => exact h
  | cons top outer =>
    obtain ⟨position, kind⟩ := top
    obtain ⟨first, rest⟩ := List.forall_mem_cons.mp h
    simp only [Blocks.add]
    split
    · rename_i found
      exact List.forall_mem_cons.mpr ⟨kept _ _ _ _ first new (Kind.append?_takes found), rest⟩
    · exact h

theorem All.leaveBranch (h : b.All P) (kept : KeptByTaking P) : b.leaveBranch.All P := by
  obtain ⟨stack⟩ := b
  rw [Blocks.leaveBranch]
  split
  · rcases stack with _ | ⟨branch, _ | ⟨⟨position, kind⟩, outer⟩⟩
    · exact h
    · exact h
    · obtain ⟨new, below⟩ := List.forall_mem_cons.mp h
      obtain ⟨host, rest⟩ := List.forall_mem_cons.mp below
      simp only [closeBranch]
      split
      · rename_i found
        exact List.forall_mem_cons.mpr ⟨kept _ _ _ _ host new (Kind.link?_takes found), rest⟩
      · exact below
  · exact h

theorem All.closeBlock (h : b.All P) (kept : KeptByTaking P) (new : P n) : (b.closeBlock n).All P := by
  obtain ⟨stack⟩ := b
  cases stack with
  | nil => exact h
  | cons top outer =>
    obtain ⟨position, kind⟩ := top
    obtain ⟨first, rest⟩ := List.forall_mem_cons.mp h
    have closed : P (.mk position (kind.closeWith n)) := by
      rcases Kind.closeWith_takes n kind with same | takes
      · rwa [same]
      · exact kept _ _ _ _ first new takes
    exact All.add (b := ⟨outer⟩) rest kept closed

theorem All.edit (h : b.All P) (kept : KeptByTaking P) (new : P e.node) : (b.edit e).All P := by
  cases e with
  | add statement => exact h.add kept new
  | openBlock block => exact h.push new
  | openBranch branch => exact (h.leaveBranch kept).push new
  | closeBlock closer => exact (h.leaveBranch kept).closeBlock kept new

theorem All.editAll (h : b.All P) (kept : KeptByTaking P) (new : ∀ e ∈ edits, P e.node) : (b.editAll edits).All P := by
  induction edits generalizing b with
  | nil => exact h
  | cons e edits ih =>
    obtain ⟨first, rest⟩ := List.forall_mem_cons.mp new
    exact ih (h.edit kept first) rest

end Blocks

end VimScript
