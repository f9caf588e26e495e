import VimScript.Proofs.Tree.Map
import VimScript.Tree.Fold

/-!
Trees that differ in their positions. A sight says what is still seen of a position and of an invocation; two trees
are alike where they look the same, each in its own sight.
-/

set_option autoImplicit false

namespace VimScript

structure Sight where
  position : Position → Position
  invocation : Invocation → Invocation

namespace Invocation

/-- An invocation with other positions. -/
def placed (f : Position → Position) (inv : Invocation) : Invocation :=
  { inv with linePos := f inv.linePos, commandPos := f inv.commandPos, argumentPos := f inv.argumentPos }

end Invocation

namespace Kind

variable {α β : Type}

def mapInvocation (f : Invocation → Invocation) : Kind α → Kind α
  | .command inv text => .command (f inv) text
  | .function inv name params defaults flags body close => .function (f inv) name params defaults flags body close
  | .closer block inv => .closer block (f inv)
  | .operand verb inv value => .operand verb (f inv) value
  | .returnValue inv value => .returnValue (f inv) value
  | .assign verb inv op single items rest value => .assign verb (f inv) op single items rest value
  | .unlet inv targets => .unlet (f inv) targets
  | .lock verb inv depth targets => .lock verb (f inv) depth targets
  | .ifBlock inv cond body elseIfs otherwise close => .ifBlock (f inv) cond body elseIfs otherwise close
  | .elseIf inv cond body => .elseIf (f inv) cond body
  | .elseBranch inv body => .elseBranch (f inv) body
  | .whileLoop inv cond body close => .whileLoop (f inv) cond body close
  | .forLoop inv single items rest values body close => .forLoop (f inv) single items rest values body close
  | .jump verb inv => .jump verb (f inv)
  | .tryBlock inv body catches final close => .tryBlock (f inv) body catches final close
  | .catchBranch inv pattern body => .catchBranch (f inv) pattern body
  | .finallyBranch inv body => .finallyBranch (f inv) body
  | .echo verb inv values => .echo verb (f inv) values
  | .echoHl inv text => .echoHl (f inv) text
  | kind => kind

attribute [grind =] mapInvocation

@[simp] theorem nodeType_mapInvocation (f : Invocation → Invocation) (kind : Kind α) :
    (kind.mapInvocation f).nodeType = kind.nodeType := by
  cases kind <;> rfl

theorem map_mapInvocation (f : Invocation → Invocation) (g : α → β) (kind : Kind α) :
    (kind.mapInvocation f).map g = (kind.map g).mapInvocation f := by
  cases kind <;> rfl

end Kind

namespace Node

variable {v v' : Sight} {n m : Node}

/-- What is seen of a tree. -/
def seen (v : Sight) : Node → Node :=
  fold fun position kind => mk (v.position position) (kind.mapInvocation v.invocation)

@[simp] theorem seen_mk (v : Sight) (position : Position) (kind : Kind Node) :
    (mk position kind).seen v = mk (v.position position) ((kind.map (seen v)).mapInvocation v.invocation) :=
  fold_mk _ position kind

@[simp] theorem type_seen (v : Sight) (n : Node) : (n.seen v).type = n.type := by
  obtain ⟨position, kind⟩ := n
  simp [type]

@[simp] theorem position_seen (v : Sight) (n : Node) : (n.seen v).position = v.position n.position := by
  obtain ⟨position, kind⟩ := n
  simp

@[simp] theorem leafText?_seen (v : Sight) (n : Node) : (n.seen v).leafText? = n.leafText? := by
  obtain ⟨position, kind⟩ := n
  cases kind <;> simp [leafText?, Kind.leafText?, Kind.map, Kind.mapInvocation]

theorem type_of_seen (same : n.seen v = m.seen v') : n.type = m.type := by
  simpa using congrArg type same

theorem position_of_seen (same : n.seen v = m.seen v') : v.position n.position = v'.position m.position := by
  simpa using congrArg position same

theorem leafText?_of_seen (same : n.seen v = m.seen v') : n.leafText? = m.leafText? := by
  simpa using congrArg leafText? same

theorem kind_of_leaf {sort : Leaf} (type : n.type = .leaf sort) : ∃ text, n.kind = .leaf sort text := by
  obtain ⟨position, kind⟩ := n
  cases kind <;> simp_all [Node.type, Kind.nodeType]

theorem leaf_of_seen {sort : Leaf} {text : String} (same : n.seen v = m.seen v') (leaf : n.kind = .leaf sort text) :
    m.kind = .leaf sort text := by
  have type : m.type = .leaf sort := by
    rw [← type_of_seen same, Node.type, leaf]
    rfl
  obtain ⟨text', other⟩ := kind_of_leaf type
  have texts := leafText?_of_seen same
  simp only [leafText?, leaf, other, Kind.leafText?, Option.some.injEq] at texts
  rw [other, texts]

end Node

end VimScript
