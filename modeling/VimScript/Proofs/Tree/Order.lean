import VimScript.Proofs.Tree.Finished

/-!
Trees whose statements stand in the order of the source: what a body lists comes after the head of its block, one
statement after the other, and before the command that closes the block.
-/

set_option autoImplicit false

namespace VimScript

namespace Node

/-- A line of modifiers and a range without a command. -/
def IsBare (n : Node) : Prop :=
  ∃ inv text, n.kind = .command inv text ∧ inv.command = none

/-- A `:let` of the lines of a heredoc. -/
def AssignsHeredoc (n : Node) : Prop :=
  ∃ inv op single items rest value, n.kind = .assign .letVar inv op single items rest value ∧ value.type = .heredoc

theorem not_assignsHeredoc {n : Node} (other : n.type ≠ .assign .letVar) : ¬n.AssignsHeredoc := by
  rintro ⟨inv, op, single, items, rest, value, same, -⟩
  rw [Node.type, same] at other
  exact other rfl

end Node

/-- Nodes whose cursors go up from one bound on and stay below another. A comment may stand where the bare line before
it does, and between a heredoc's assignment and the comment after its marker no order is asked for. -/
inductive InOrder : Nat → List Node → Nat → Prop where
  | nil {i j : Nat} (bound : i ≤ j) : InOrder i [] j
  | cons {i j : Nat} {n : Node} {ns : List Node} (later : i ≤ n.position.cursor)
      (rest : InOrder (n.position.cursor + 1) ns j) : InOrder i (n :: ns) j
  | bare {i j : Nat} {n c : Node} {ns : List Node} (bare : n.IsBare) (comment : c.type = .comment)
      (later : i ≤ n.position.cursor) (later' : n.position.cursor ≤ c.position.cursor)
      (rest : InOrder (c.position.cursor + 1) ns j) : InOrder i (n :: c :: ns) j
  | heredoc {i j : Nat} {c n : Node} {ns : List Node} (comment : c.type = .comment) (heredoc : n.AssignsHeredoc)
      (later : i ≤ c.position.cursor) (later' : i ≤ n.position.cursor)
      (rest : InOrder (max c.position.cursor n.position.cursor + 1) ns j) : InOrder i (c :: n :: ns) j

namespace InOrder

variable {i j k l : Nat} {n : Node} {ns ms : List Node}

theorem mono (h : InOrder i ns j) (before : k ≤ i) (after : j ≤ l) : InOrder k ns l := by
  induction h generalizing k with
  | nil bound => exact .nil (by omega)
  | cons later rest ih => exact .cons (by omega) (ih (Nat.le_refl _) after)
  | bare bare comment later later' rest ih => exact .bare bare comment (by omega) later' (ih (Nat.le_refl _) after)
  | heredoc comment heredoc later later' rest ih =>
    exact .heredoc comment heredoc (by omega) (by omega) (ih (Nat.le_refl _) after)

theorem append (first : InOrder i ns k) (second : InOrder k ms j) : InOrder i (ns ++ ms) j := by
  induction first with
  | nil bound => exact second.mono bound (Nat.le_refl j)
  | cons later rest ih => exact .cons later (ih second)
  | bare bare comment later later' rest ih => exact .bare bare comment later later' (ih second)
  | heredoc comment heredoc later later' rest ih => exact .heredoc comment heredoc later later' (ih second)

theorem single (later : i ≤ n.position.cursor) : InOrder i [n] (n.position.cursor + 1) :=
  .cons later (.nil (Nat.le_refl _))

theorem bound (h : InOrder i ns j) : i ≤ j := by
  induction h with
  | nil bound => exact bound
  | cons later rest ih => omega
  | bare bare comment later later' rest ih => omega
  | heredoc comment heredoc later later' rest ih => omega

end InOrder

/-- The branches linked into a block. -/
def Slots.branches {α : Type} (s : Slots α) : List α :=
  s.elseIfs ++ s.otherwise.toList ++ s.catches ++ s.final.toList

namespace Node

/-- From where on statements of a block may stand: a script may start with one. -/
def first (n : Node) : Nat :=
  if n.type = .script then n.position.cursor else n.position.cursor + 1

/-- All bodies of the tree are in order. Those of a block and its branches end where the block is closed. -/
inductive Ordered : Node → Prop where
  | intro {n : Node} (stop : Nat) (body : InOrder n.first n.kind.slots.body stop)
      (branches : ∀ b ∈ n.kind.slots.branches, InOrder b.first b.kind.slots.body stop)
      (close : ∀ c ∈ n.kind.slots.close, c.position.cursor = stop)
      (children : ∀ c ∈ n.children, Ordered c) : Ordered n

theorem Ordered.of_slots_eq_empty {n : Node} (slots : n.kind.slots = {}) (children : ∀ c ∈ n.children, c.Ordered) :
    n.Ordered := by
  refine .intro n.first ?_ ?_ ?_ children
  · rw [slots]
    exact .nil (Nat.le_refl _)
  · simp [slots, Slots.branches]
  · simp [slots]

theorem Ordered.children {n : Node} (h : n.Ordered) : ∀ c ∈ n.children, c.Ordered := by
  cases h; assumption

theorem IsExpression.ordered {n : Node} (h : n.IsExpression) : n.Ordered := by
  induction h with
  | @intro n type children ih =>
    have single : n.type.block? = none := by
      cases t : n.type <;> simp [t, NodeType.isExpression] at type <;> rfl
    have script : n.type ≠ .script := by
      intro same
      simp [same, NodeType.isExpression] at type
    exact .of_slots_eq_empty (slots_eq_empty single script) ih

/-- What stands so far in a block or a branch, in order up to a cursor. -/
structure OrderedUpTo (n : Node) (stop : Nat) : Prop where
  body : InOrder n.first n.kind.slots.body stop
  branches : ∀ b ∈ n.kind.slots.branches, InOrder b.first b.kind.slots.body stop
  children : ∀ c ∈ n.children, c.Ordered

theorem OrderedUpTo.mono {n : Node} {i j : Nat} (h : n.OrderedUpTo i) (later : i ≤ j) : n.OrderedUpTo j where
  body := h.body.mono (Nat.le_refl _) later
  branches b place := (h.branches b place).mono (Nat.le_refl _) later
  children := h.children

end Node

end VimScript
