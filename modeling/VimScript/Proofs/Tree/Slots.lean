import VimScript.Blocks

/-!
The parts of a node that are filled after its own line was read: statements, branches and the closing command.
All other parts make up its header. Adding a statement, linking a branch and closing a block change one slot each.
-/

set_option autoImplicit false

namespace VimScript

structure Slots (α : Type) where
  body : List α := []
  elseIfs : List α := []
  otherwise : Option α := none
  catches : List α := []
  final : Option α := none
  close : Option α := none

namespace Slots

variable {α : Type}

def all (s : Slots α) : List α :=
  s.body ++ s.elseIfs ++ s.otherwise.toList ++ s.catches ++ s.final.toList ++ s.close.toList

end Slots

namespace Kind

variable {α : Type}

def slots : Kind α → Slots α
  | .script body | .elseIf _ _ body | .elseBranch _ body | .catchBranch _ _ body | .finallyBranch _ body =>
    { body }
  | .function _ _ _ _ _ body close | .whileLoop _ _ body close | .forLoop _ _ _ _ _ body close =>
    { body, close }
  | .ifBlock _ _ body elseIfs otherwise close => { body, elseIfs, otherwise, close }
  | .tryBlock _ body catches final close => { body, catches, final, close }
  | _ => {}

def header : Kind α → List α
  | .script _ | .elseBranch _ _ | .tryBlock _ _ _ _ _ | .catchBranch _ _ _ | .finallyBranch _ _ => []
  | .function _ name params defaults _ _ _ => name :: params ++ defaults
  | .ifBlock _ cond _ _ _ _ | .elseIf _ cond _ | .whileLoop _ cond _ _ => [cond]
  | .forLoop _ single items rest values _ _ => single.toList ++ items ++ rest.toList ++ [values]
  | kind => kind.children

theorem children_eq (kind : Kind α) : kind.children = kind.header ++ kind.slots.all := by
  cases kind <;> simp [children, header, slots, Slots.all]

/-- Two contents that differ in their slots at most. -/
structure SameHead (before after : Kind α) : Prop where
  nodeType : after.nodeType = before.nodeType
  invocation : after.invocation? = before.invocation?
  header : after.header = before.header

/-- The types of nodes that have statements. -/
theorem isSome_body? (kind : Kind α) :
    kind.body?.isSome = (kind.nodeType == .script || kind.nodeType.block?.isSome) := by
  cases kind <;> rfl

theorem append?_of_body? (statement : α) {kind : Kind α} (h : kind.body?.isSome = true) :
    ∃ after, kind.append? statement = some after ∧ kind.SameHead after ∧
      after.slots = { kind.slots with body := kind.slots.body ++ [statement] } := by
  cases kind <;> simp [body?] at h <;> exact ⟨_, rfl, ⟨rfl, rfl, rfl⟩, rfl⟩

theorem link?_ifBlock (branch : α) (type : NodeType) {kind : Kind α} (h : kind.nodeType = .ifBlock) :
    ∃ after, kind.link? branch type = some after ∧ kind.SameHead after ∧
      after.slots = if type = .elseBranch then { kind.slots with otherwise := some branch }
        else { kind.slots with elseIfs := kind.slots.elseIfs ++ [branch] } := by
  cases kind with
  | ifBlock inv cond body elseIfs otherwise close =>
    by_cases last : type = .elseBranch
    · exact ⟨.ifBlock inv cond body elseIfs (some branch) close, by simp [link?, last], ⟨rfl, rfl, rfl⟩,
        by simp [slots, last]⟩
    · exact ⟨.ifBlock inv cond body (elseIfs ++ [branch]) otherwise close, by simp [link?, last],
        ⟨rfl, rfl, rfl⟩, by simp [slots, last]⟩
  | _ => simp [nodeType] at h

theorem link?_tryBlock (branch : α) (type : NodeType) {kind : Kind α} (h : kind.nodeType = .tryBlock) :
    ∃ after, kind.link? branch type = some after ∧ kind.SameHead after ∧
      after.slots = if type = .finallyBranch then { kind.slots with final := some branch }
        else { kind.slots with catches := kind.slots.catches ++ [branch] } := by
  cases kind with
  | tryBlock inv body catches final close =>
    by_cases last : type = .finallyBranch
    · exact ⟨.tryBlock inv body catches (some branch) close, by simp [link?, last], ⟨rfl, rfl, rfl⟩,
        by simp [slots, last]⟩
    · exact ⟨.tryBlock inv body (catches ++ [branch]) final close, by simp [link?, last], ⟨rfl, rfl, rfl⟩,
        by simp [slots, last]⟩
  | _ => simp [nodeType] at h

theorem closeWith_sameHead (closer : α) (kind : Kind α) : kind.SameHead (kind.closeWith closer) := by
  cases kind <;> exact ⟨rfl, rfl, rfl⟩

theorem slots_closeWith (closer : α) {kind : Kind α} {block : BlockSort} (h : kind.nodeType = .ofBlock block) :
    (kind.closeWith closer).slots = { kind.slots with close := some closer } := by
  cases block <;> cases kind <;> simp [NodeType.ofBlock, nodeType] at h <;> rfl

end Kind

end VimScript
