import VimScript.Proofs.Blocks.Labels
import VimScript.Proofs.Tree.Order

/-!
Open blocks in the order of the source. Every block comes before the one that is open in it, and an edit that comes
later than all the blocks hold is kept in its place.
-/

set_option autoImplicit false

namespace VimScript

namespace Kind

theorem SameHead.trans {α : Type} {a b c : Kind α} (first : a.SameHead b) (second : b.SameHead c) : a.SameHead c where
  nodeType := second.nodeType.trans first.nodeType
  invocation := second.invocation.trans first.invocation
  header := second.header.trans first.header

/-- A link adds to the branches of a block and to nothing else. -/
theorem slots_of_link? {α : Type} {branch : α} {type : NodeType} {kind after : Kind α}
    (h : kind.link? branch type = some after) :
    after.slots.body = kind.slots.body ∧ ∀ b ∈ after.slots.branches, b = branch ∨ b ∈ kind.slots.branches := by
  cases kind <;> simp only [link?, reduceCtorEq] at h
  all_goals
    split at h
    all_goals
      obtain rfl := Option.some.inj h
      exact ⟨rfl, fun b place => by grind [slots, Slots.branches]⟩

end Kind

namespace Node

variable {n : Node} {i j : Nat}

theorem first_le (n : Node) : n.first ≤ n.position.cursor + 1 := by
  unfold first
  split <;> omega

theorem le_first (n : Node) : n.position.cursor ≤ n.first := by
  unfold first
  split <;> omega

theorem IsSimple.ordered (h : n.IsSimple) : n.Ordered := by
  have script : n.type ≠ .script := by
    intro same
    have type := h.type
    simp [same, NodeType.isStatement] at type
  exact .of_slots_eq_empty (slots_eq_empty h.single script) fun c place => (h.children c place).ordered

theorem Fresh.orderedUpTo (h : n.Fresh) : n.OrderedUpTo (n.position.cursor + 1) where
  body := by
    rw [h.slots]
    exact .nil n.first_le
  branches := by simp [h.slots, Slots.branches]
  children c inside := (h.children c inside).ordered

/-- Statements that come later than all a block holds. -/
theorem OrderedUpTo.addAll {ns : List Node} {kind : Kind Node} (h : n.OrderedUpTo i) (head : n.kind.SameHead kind)
    (slots : kind.slots = { n.kind.slots with body := n.kind.slots.body ++ ns }) (order : InOrder i ns j)
    (all : ∀ c ∈ ns, c.Ordered) : (Node.mk n.position kind).OrderedUpTo j := by
  have first : (Node.mk n.position kind).first = n.first := by
    rw [Node.first, Node.first, Node.type, kind_mk, head.nodeType, position_mk, ← Node.type]
  refine ⟨?_, ?_, ?_⟩
  · rw [first, kind_mk, slots]
    exact h.body.append order
  · rw [kind_mk, slots]
    exact (h.mono order.bound).branches
  · intro c place
    simp only [Node.children, kind_mk, Kind.children_eq, head.header, slots, Slots.all] at place
    have either : c ∈ ns ∨ c ∈ n.children := by
      simp only [Node.children, Kind.children_eq, Slots.all]
      grind
    rcases either with new | old
    · exact all c new
    · exact h.children c old

/-- A branch that is linked into its block comes after all the block holds itself. -/
theorem OrderedUpTo.link {host : Node} {kind : Kind Node} (h : host.OrderedUpTo n.position.cursor)
    (branch : n.OrderedUpTo i) (unclosed : n.kind.slots.close = none)
    (gains : n.Gains host (Node.mk host.position kind)) (linked : host.kind.link? n n.type = some kind) : (Node.mk host.position kind).OrderedUpTo i := by
  obtain ⟨body, branches⟩ := Kind.slots_of_link? linked
  have first : (Node.mk host.position kind).first = host.first := by
    rw [Node.first, Node.first, gains.type, position_mk]
  -- The block holds nothing that is later than the head of the branch, the branch all that is.
  have later : n.position.cursor ≤ i := Nat.le_trans n.le_first branch.body.bound
  replace h := h.mono later
  refine ⟨?_, ?_, ?_⟩
  · rw [first, kind_mk, body]
    exact h.body
  · intro b place
    rcases branches b place with rfl | old
    · exact branch.body
    · exact h.branches b old
  · intro c place
    rcases List.mem_cons.mp (gains.children.mem_iff.mp place) with rfl | old
    · exact .intro i branch.body branch.branches (by simp [unclosed]) branch.children
    · exact h.children c old

/-- A block is in order with a closing command that comes after all it holds. -/
theorem OrderedUpTo.close {closer : Node} {sort : BlockSort} (h : n.OrderedUpTo i) (type : n.type = .ofBlock sort)
    (gains : closer.Gains n (Node.mk n.position (n.kind.closeWith closer))) (ordered : closer.Ordered)
    (later : i ≤ closer.position.cursor) : (Node.mk n.position (n.kind.closeWith closer)).Ordered := by
  have slots := Kind.slots_closeWith closer type
  have first : (Node.mk n.position (n.kind.closeWith closer)).first = n.first := by
    rw [Node.first, Node.first, gains.type, position_mk]
  replace h := h.mono later
  refine .intro closer.position.cursor ?_ ?_ ?_ ?_
  · rw [first, kind_mk, slots]
    exact h.body
  · rw [kind_mk, slots]
    exact h.branches
  · simp [slots]
  · intro c place
    rcases List.mem_cons.mp (gains.children.mem_iff.mp place) with rfl | old
    · exact ordered
    · exact h.children c old

end Node

namespace Blocks

variable {b : Blocks} {e : Edit} {edits : List Edit} {ns : List Node} {i j k : Nat}

/-- Every open block is in order up to where the block inside it stands, the innermost one up to a cursor. -/
def Rising : List Node → Nat → Prop
  | [], _ => True
  | n :: outer, stop => n.OrderedUpTo stop ∧ Rising outer n.position.cursor

theorem Rising.mono {stack : List Node} (h : Rising stack i) (later : i ≤ j) : Rising stack j := by
  cases stack with
  | nil => trivial
  | cons n outer => exact ⟨h.1.mono later, h.2⟩

/-- Statements added in turn stand at the end of the innermost body. -/
theorem editAll_adds (ns : List Node) {top : Node} {outer : List Node} (stack : b.stack = top :: outer)
    (holds : top.kind.body?.isSome = true) :
    ∃ kind, (b.editAll (ns.map .add)).stack = .mk top.position kind :: outer ∧ top.kind.SameHead kind ∧
      kind.slots = { top.kind.slots with body := top.kind.slots.body ++ ns } := by
  induction ns generalizing b top with
  | nil => exact ⟨top.kind, by simpa using stack, ⟨rfl, rfl, rfl⟩, by simp⟩
  | cons n ns ih =>
    obtain ⟨after, found, head, slots⟩ := Kind.append?_of_body? n holds
    have added : (b.edit (.add n)).stack = .mk top.position after :: outer := by
      obtain ⟨_⟩ := b
      obtain rfl := stack
      obtain ⟨position, kind⟩ := top
      simp only [Node.kind_mk] at found
      simp [Blocks.edit, Blocks.add, found]
    have holds' : after.body?.isSome = true := by
      rw [Kind.isSome_body?, head.nodeType, ← Kind.isSome_body?]
      exact holds
    obtain ⟨kind, stack', head', slots'⟩ := ih added holds'
    refine ⟨kind, by simpa using stack', head.trans head', ?_⟩
    rw [slots', Node.kind_mk, slots]
    simp

theorem Rising.addAll (h : Rising b.stack i) (stands : Stands b.stack) (order : InOrder i ns j)
    (all : ∀ n ∈ ns, n.Ordered) : Rising (b.editAll (ns.map .add)).stack j := by
  cases stack : b.stack with
  | nil =>
    rw [stack] at stands
    cases stands
  | cons top outer =>
    rw [stack] at h stands
    obtain ⟨kind, stack', head, slots⟩ := editAll_adds ns stack stands.isSome_body?
    rw [stack']
    exact ⟨h.1.addAll head slots order all, h.2⟩

theorem Rising.leaveBranch (h : Rising b.stack i) (stands : Stands b.stack) : Rising b.leaveBranch.stack i := by
  obtain ⟨stack⟩ := b
  -- Nothing is left unless a branch is innermost.
  cases stands with
  | @script n type grows => simpa [Blocks.leaveBranch, innermost, type, NodeType.isBranch] using h
  | @block n outer sort type grows below => simpa [Blocks.leaveBranch, innermost, type] using h
  | @branch n host outer sort isBranch belongs type grows below =>
    obtain ⟨kind, linked, gains, -, -⟩ := below.isOpen.link type belongs isBranch grows.toGrowing
    have result : (Blocks.leaveBranch ⟨n :: host :: outer⟩).stack = .mk host.position kind :: outer := by
      obtain ⟨position, before⟩ := host
      simp only [Node.kind_mk] at linked
      simp [Blocks.leaveBranch, innermost, isBranch, closeBranch, linked]
    obtain ⟨branch, inner, rest⟩ := h
    rw [result]
    exact ⟨inner.link branch grows.close gains linked, rest⟩

theorem Rising.closeBlock {closer : Node} {sort : BlockSort} (h : Rising b.stack i) (stands : Stands b.stack)
    (closes : closer.type = .closer sort) (inner : b.innermost.block? = some sort)
    (later : i ≤ closer.position.cursor) :
    Rising (b.edit (.closeBlock closer)).stack (closer.position.cursor + 1) := by
  obtain ⟨block, outer, left, type, growing, standing, -, -⟩ := stands.leaveBranch inner
  obtain ⟨gains, -⟩ := growing.complete type closes
  have leaves := h.leaveBranch stands
  rw [left] at leaves
  obtain ⟨top, below⟩ := leaves
  have ordered : closer.Ordered := by
    cases finished : closer.kind <;> simp [Node.type, finished, Kind.nodeType] at closes
    exact .of_slots_eq_empty (by rw [finished]; rfl) (by simp [Node.children, finished, Kind.children])
  have closed := top.close type gains ordered later
  have bound := Nat.le_trans block.le_first top.body.bound
  -- The block that was closed becomes a statement of the one around it, later than all that one holds.
  have placed : InOrder block.position.cursor [Node.mk block.position (block.kind.closeWith closer)]
      (closer.position.cursor + 1) :=
    (InOrder.single (Nat.le_refl _)).mono (Nat.le_refl _) (by simp only [Node.position_mk]; omega)
  have result : b.edit (.closeBlock closer) =
      Blocks.editAll ⟨outer⟩ ([Node.mk block.position (block.kind.closeWith closer)].map .add) := by
    cases block
    simp [Blocks.edit, Blocks.closeBlock, left]
  rw [result]
  exact Rising.addAll below standing placed (by simpa using closed)

/-- An edit of one node that comes later than all the open blocks hold. -/
theorem Rising.edit (h : Rising b.stack i) (stands : Stands b.stack) (ok : b.Admits e)
    (later : i ≤ e.node.position.cursor) : Rising (b.edit e).stack (e.node.position.cursor + 1) := by
  cases e with
  | add statement =>
    have ordered : ∀ n ∈ [statement], n.Ordered := by simpa using ok.1.ordered
    exact h.addAll stands (.single later) ordered
  | openBlock block => exact ⟨ok.1.orderedUpTo, h.mono later⟩
  | openBranch branch => exact ⟨ok.1.orderedUpTo, (h.leaveBranch stands).mono later⟩
  | closeBlock closer =>
    obtain ⟨sort, closes, inner⟩ := ok
    exact h.closeBlock stands closes inner later

/-! ### The edits of a statement -/

/-- Edits whose nodes come in the order of the source, from one bound on and up to another. -/
inductive Rises : Nat → List Edit → Nat → Prop where
  | adds {i j : Nat} {ns : List Node} (order : InOrder i ns j) : Rises i (ns.map .add) j
  | edit {i j : Nat} {e : Edit} {edits : List Edit} (later : i ≤ e.node.position.cursor)
      (rest : Rises (e.node.position.cursor + 1) edits j) : Rises i (e :: edits) j

theorem Rises.from (h : Rises j edits k) (later : i ≤ j) : Rises i edits k := by
  cases h with
  | adds order => exact .adds (order.mono later (Nat.le_refl k))
  | edit after rest => exact .edit (Nat.le_trans later after) rest

theorem Rises.append (h : Rises i edits j) (order : InOrder j ns k) : Rises i (edits ++ ns.map .add) k := by
  induction h with
  | adds order' =>
    rw [← List.map_append]
    exact .adds (order'.append order)
  | edit later rest ih => exact .edit later (ih order)

theorem isSimple_of_adds (ok : b.AdmitsAll (ns.map .add)) : ∀ n ∈ ns, n.IsSimple := by
  induction ns generalizing b with
  | nil => simp
  | cons n ns ih =>
    obtain ⟨⟨simple, -⟩, rest⟩ := ok
    simpa using ⟨simple, ih rest⟩

theorem Rising.editAll (h : Rising b.stack i) (stands : Stands b.stack) (ok : b.AdmitsAll edits)
    (rises : Rises i edits j) : Rising (b.editAll edits).stack j := by
  induction rises generalizing b with
  | adds order => exact h.addAll stands order fun n place => (isSimple_of_adds ok n place).ordered
  | edit later rest ih => exact ih (h.edit stands ok.1 later) (stands.edit ok.1).1 ok.2

end Blocks

end VimScript
