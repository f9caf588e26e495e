import VimScript.Proofs.Blocks.Stack

/-!
Edits that the open blocks admit. They keep the stack as it has to stand, one after the other.
-/

set_option autoImplicit false

namespace VimScript

/-- A statement of one line, with nothing but expressions below it. -/
structure Node.IsSimple (n : Node) : Prop where
  type : n.type.isStatement = true
  single : n.type.block? = none
  children : ∀ c ∈ n.children, c.IsExpression

namespace Blocks

def TakesBranch (b : Blocks) (branch : NodeType) : Prop :=
  ((branch = .elseIf ∨ branch = .elseBranch) ∧ (b.innermost = .ifBlock ∨ b.innermost = .elseIf)) ∨
    ((branch = .catchBranch ∨ branch = .finallyBranch) ∧
      (b.innermost = .tryBlock ∨ b.innermost = .catchBranch))

def Admits (b : Blocks) : Edit → Prop
  | .add statement => statement.IsSimple ∧
      (∀ verb, statement.type = .jump verb → b.insideLoop = true) ∧
      (statement.type = .returnValue → b.insideFunction = true)
  | .openBlock block => block.Fresh ∧ ∃ sort, block.type = .ofBlock sort
  | .openBranch branch => branch.Fresh ∧ b.TakesBranch branch.type
  | .closeBlock closer => ∃ sort, closer.type = .closer sort ∧ b.innermost.block? = some sort

def AdmitsAll : Blocks → List Edit → Prop
  | _, [] => True
  | b, e :: edits => b.Admits e ∧ (b.edit e).AdmitsAll edits

def PerformsAll : Blocks → List Edit → Prop
  | _, [] => True
  | b, e :: edits => b.Performs e ∧ (b.edit e).PerformsAll edits

theorem AdmitsAll.append {b : Blocks} {first second : List Edit} (one : b.AdmitsAll first)
    (two : (b.editAll first).AdmitsAll second) : b.AdmitsAll (first ++ second) := by
  induction first generalizing b with
  | nil => exact two
  | cons e first ih => exact ⟨one.1, ih one.2 two⟩

variable {b : Blocks} {e : Edit} {edits : List Edit}

theorem AdmitsAll.admits (h : b.AdmitsAll edits) : ∀ e ∈ edits, ∃ c : Blocks, c.Admits e := by
  induction edits generalizing b with
  | nil => simp
  | cons e edits ih =>
    intro d place
    rcases List.mem_cons.mp place with rfl | later
    · exact ⟨b, h.1⟩
    · exact ih h.2 d later

theorem exists_of_insideLoop (h : b.insideLoop = true) : ∃ t ∈ b.stack.map Node.type, t.isLoop = true := by
  obtain ⟨n, place, loop⟩ := List.any_eq_true.mp h
  exact ⟨n.type, List.mem_map_of_mem place, loop⟩

theorem mem_of_insideFunction (h : b.insideFunction = true) : .function ∈ b.stack.map Node.type := by
  obtain ⟨n, place, function⟩ := List.any_eq_true.mp h
  rw [← eq_of_beq function]
  exact List.mem_map_of_mem place

theorem finished_of_isSimple {statement : Node} (simple : statement.IsSimple)
    (jump : ∀ verb, statement.type = .jump verb → b.insideLoop = true)
    (returns : statement.type = .returnValue → b.insideFunction = true) :
    statement.Finished (b.stack.map Node.type) := by
  have script : statement.type ≠ .script := by
    intro same
    have type := simple.type
    simp [same, NodeType.isStatement] at type
  refine .of_slots_eq_empty (Node.slots_eq_empty simple.single script) simple.single script ?_ ?_ ?_
  · exact fun verb same => exists_of_insideLoop (jump verb same)
  · exact fun same => mem_of_insideFunction (returns same)
  · exact fun c inside => (simple.children c inside).finished _

/-- A branch belongs to the sort of the block that takes it. -/
theorem TakesBranch.block {branch : NodeType} (h : b.TakesBranch branch) :
    branch.isBranch = true ∧ (∃ sort, branch.block? = some sort ∧ b.innermost.block? = some sort) ∧
      b.innermost ≠ .elseBranch ∧ b.innermost ≠ .finallyBranch := by
  rcases h with ⟨rfl | rfl, inner | inner⟩ | ⟨rfl | rfl, inner | inner⟩ <;>
    simp [inner, NodeType.isBranch, NodeType.block?]

theorem Stands.edit (stands : Stands b.stack) (ok : b.Admits e) : Stands (b.edit e).stack ∧ b.Performs e := by
  cases e with
  | add statement =>
    obtain ⟨simple, jump, returns⟩ := ok
    exact stands.add simple.type (finished_of_isSimple simple jump returns)
  | openBlock block =>
    obtain ⟨fresh, sort, type⟩ := ok
    exact ⟨.block sort type (fresh.isOpen _) stands, rfl⟩
  | openBranch branch =>
    obtain ⟨fresh, takes⟩ := ok
    obtain ⟨isBranch, ⟨sort, belongs, inner⟩, notElse, notFinally⟩ := takes.block
    obtain ⟨block, outer, left, type, -, -, leaves, stays⟩ := stands.leaveBranch inner
    refine ⟨?_, leaves, rfl⟩
    show Stands (branch :: b.leaveBranch.stack)
    rw [left]
    exact .branch sort isBranch belongs type (fresh.isOpen _) (stays notElse notFinally)
  | closeBlock closer =>
    obtain ⟨sort, closes, inner⟩ := ok
    obtain ⟨block, outer, left, type, growing, standing, leaves, -⟩ := stands.leaveBranch inner
    obtain ⟨gains, finished⟩ := growing.complete type closes
    have result : b.edit (.closeBlock closer) =
        Blocks.add (.mk block.position (block.kind.closeWith closer)) ⟨outer⟩ := by
      cases block
      simp [Blocks.edit, Blocks.closeBlock, left]
    have type' : (Node.mk block.position (block.kind.closeWith closer)).type = .ofBlock sort :=
      gains.type.trans type
    have added := Stands.add (b := ⟨outer⟩) standing (by simp [type']) finished
    rw [result]
    refine ⟨added.1, leaves, block, _, outer, left, gains, ?_⟩
    rw [result]
    exact added.2

theorem Stands.editAll (stands : Stands b.stack) (ok : b.AdmitsAll edits) :
    Stands (b.editAll edits).stack ∧ b.PerformsAll edits := by
  induction edits generalizing b with
  | nil => exact ⟨stands, trivial⟩
  | cons e edits ih =>
    obtain ⟨first, performs⟩ := stands.edit ok.1
    obtain ⟨last, rest⟩ := ih first ok.2
    exact ⟨last, performs, rest⟩

end Blocks

end VimScript
