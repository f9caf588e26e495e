import VimScript.Proofs.Script.Initials
import VimScript.Proofs.Script.Run
import VimScript.Proofs.Tree.Occurs

/-!
The structure of scripts. A script that is read comes out with every block closed and every node in its place, and
on the way there no node handed to the open blocks is dropped.
-/

set_option autoImplicit false

namespace VimScript

namespace Reply

variable {α : Type}

/-- A value is given, and it passes the test. -/
def passes (test : α → Bool) : Reply α → Bool
  | .ok a _ => test a
  | _ => false

theorem exists_of_passes (test : α → Bool) {r : Reply α} (h : r.passes test = true) :
    ∃ a j, r = .ok a j ∧ test a = true := by
  cases r with
  | ok a j => exact ⟨a, j, rfl, h⟩
  | fail e j => simp [passes] at h
  | spent => simp [passes] at h

end Reply

namespace Blocks

/-- The types of frames other than the script. -/
def frameTypes : List NodeType :=
  [.function, .ifBlock, .elseIf, .elseBranch, .whileLoop, .forLoop, .tryBlock, .catchBranch, .finallyBranch]

/-- The script is at the bottom and nowhere else, and a branch stands directly on a block that lacks its last
branch. -/
structure WellStacked (b : Blocks) : Prop where
  bottom : ∃ inner script, b.stack = inner ++ [script] ∧ script.type = .script ∧
    ∀ n ∈ inner, n.type ∈ frameTypes
  ifBranch : ∀ inner n outer, b.stack = inner ++ n :: outer → n.type = .elseIf ∨ n.type = .elseBranch →
    ∃ host rest, outer = host :: rest ∧ host.type = .ifBlock ∧ host.kind.slots.otherwise = none
  tryBranch : ∀ inner n outer, b.stack = inner ++ n :: outer →
    n.type = .catchBranch ∨ n.type = .finallyBranch →
    ∃ host rest, outer = host :: rest ∧ host.type = .tryBlock ∧ host.kind.slots.final = none

theorem mem_frameTypes {t : NodeType} (sort : BlockSort) (h : t.block? = some sort) : t ∈ frameTypes := by
  cases t <;> simp [NodeType.block?] at h <;> decide

theorem Stands.bottom {stack : List Node} (h : Stands stack) :
    ∃ (inner : List Node) (script : Node), stack = inner ++ [script] ∧ script.type = .script ∧ ∀ n ∈ inner, n.type ∈ frameTypes := by
  induction h with
  | @script n type grows => exact ⟨[], n, rfl, type, by simp⟩
  | @block n outer sort type grows below ih =>
    obtain ⟨inner, script, rfl, bottom, frames⟩ := ih
    have frame : n.type ∈ frameTypes := mem_frameTypes sort (by simp [type])
    exact ⟨n :: inner, script, rfl, bottom, by simpa using ⟨frame, frames⟩⟩
  | @branch n host outer sort isBranch belongs type grows below ih =>
    obtain ⟨inner, script, stack, bottom, frames⟩ := ih
    exact ⟨n :: inner, script, by rw [stack]; rfl, bottom, by simpa using ⟨mem_frameTypes sort belongs, frames⟩⟩

theorem Stands.tail {top : Node} {outer : List Node} (h : Stands (top :: outer)) (more : outer ≠ []) :
    Stands outer := by
  cases h with
  | script type grows => exact absurd rfl more
  | block sort type grows below => exact below
  | branch sort isBranch belongs type grows below => exact below

theorem Stands.of_append {inner outer : List Node} {n : Node} (h : Stands (inner ++ n :: outer)) :
    Stands (n :: outer) := by
  induction inner with
  | nil => exact h
  | cons top inner ih => exact ih (h.tail (by simp))

/-- A branch stands on its own block, which is still open. -/
theorem Stands.host {n : Node} {outer : List Node} (sort : BlockSort) (h : Stands (n :: outer))
    (isBranch : n.type.isBranch = true) (belongs : n.type.block? = some sort) :
    ∃ host rest, outer = host :: rest ∧ host.type = .ofBlock sort ∧ host.kind.slots.otherwise = none ∧
      host.kind.slots.final = none := by
  cases h with
  | script type grows => simp [type, NodeType.isBranch] at isBranch
  | block sort type grows below => simp [type] at isBranch
  | @branch n host outer found _ belongs' type grows below =>
    obtain rfl : found = sort := by simpa [belongs'] using belongs
    exact ⟨host, outer, rfl, type, below.isOpen.otherwise, below.isOpen.final⟩

theorem Stands.wellStacked {b : Blocks} (h : Stands b.stack) : b.WellStacked where
  bottom := h.bottom
  ifBranch inner n outer stack type := by
    have top : Stands (n :: outer) := (stack ▸ h).of_append
    obtain ⟨host, rest, below, same, unset, -⟩ := top.host .ifBlock
      (by rcases type with type | type <;> simp [type, NodeType.isBranch])
      (by rcases type with type | type <;> simp [type, NodeType.block?])
    exact ⟨host, rest, below, same, unset⟩
  tryBranch inner n outer stack type := by
    have top : Stands (n :: outer) := (stack ▸ h).of_append
    obtain ⟨host, rest, below, same, -, unset⟩ := top.host .tryBlock
      (by rcases type with type | type <;> simp [type, NodeType.isBranch])
      (by rcases type with type | type <;> simp [type, NodeType.block?])
    exact ⟨host, rest, below, same, unset⟩

end Blocks

namespace Script

open Statement (UserNames)

theorem ofLines_wellPlaced (neovim : Bool) (lines : List String) {root : Node} {j : Nat}
    (ok : ofLines neovim lines = .ok root j) {above : List Node} {n : Node} (place : root.Occurs above n) :
    n.WellPlaced above := by
  obtain ⟨_, _, _, _, script, _, _, _, type, grows, rfl⟩ := readWith_ok ok
  refine place.wellPlaced type grows.slots ?_
  intro c inside
  have finished := grows.children c inside
  exact finished

theorem ofLines_wellPlaced_nested :
    ∃ root j above n, ofLines false ["while 1", "if 1", "break", "else", "endif", "endwhile"] = .ok root j ∧
      root.Occurs above n ∧ n.type = .jump .leave ∧ n.WellPlaced above := by
  have deep : (ofLines false ["while 1", "if 1", "break", "else", "endif", "endwhile"]).passes
      (fun root => root.children.any fun loop => loop.children.any fun block =>
        block.children.any fun n => n.type == .jump .leave) = true := by
    rw [ofLines_eq_byInitial]
    decide +kernel
  obtain ⟨root, j, ok, found⟩ := Reply.exists_of_passes _ deep
  simp only [List.any_eq_true, beq_iff_eq] at found
  obtain ⟨loop, inRoot, block, inLoop, n, inBlock, type⟩ := found
  have place : root.Occurs [block, loop, root] n := ((Node.Occurs.root.child inRoot).child inLoop).child inBlock
  exact ⟨root, j, _, n, ok, place, type, ofLines_wellPlaced false _ ok place⟩

/-- Whatever is handed to the open blocks is in the tree, once for each time it was handed over. -/
theorem readWith_keeps_nodes (neovim : Bool) (known : UserNames) (s : Source) :
    (∀ edits names blocks i, Reaches neovim s known edits names blocks i →
      blocks.WellStacked ∧
      (∀ effect j, Statement.read ⟨neovim, names, blocks⟩ s i = .ok effect j → blocks.PerformsAll effect.edits) ∧
      blocks.labels.Perm
        (edits.flatMap (fun e => e.node.labels) ++ (Blocks.start (s.position 0)).labels)) ∧
    (∀ root j, (readWith neovim known s).1 = .ok root j →
      ∃ edits names blocks i, Reaches neovim s known edits names blocks i ∧ s.size ≤ i ∧
        (root.children.flatMap Node.labels).Perm (edits.flatMap fun e => e.node.labels)) ∧
    ∀ fault j, (readWith neovim known s).1 = .fail fault j → fault.cause ≠ .stackUnderflow := by
  refine ⟨?_, ?_, fun fault j => readWith_fail⟩
  · intro edits names blocks i reached
    exact ⟨reached.stands.wellStacked, fun effect j => reached.performsAll, reached.labels⟩
  · intro root j ok
    obtain ⟨edits, names, blocks, i, n, reached, last, stack, _, _, rfl⟩ := readWith_ok ok
    exact ⟨edits, names, blocks, i, reached, last, by simpa [Node.children] using reached.labels_of_single stack⟩

end Script

end VimScript
