import VimScript.Tree.NodeType

/-!
The syntax tree: a node is a position and a content whose parts are nodes again.
-/

set_option autoImplicit false

namespace VimScript

inductive Node where
  | mk (position : Position) (kind : Kind Node)

namespace Node

def position : Node → Position
  | mk position _ => position

def kind : Node → Kind Node
  | mk _ kind => kind

@[simp] theorem position_mk (position : Position) (kind : Kind Node) :
    (mk position kind).position = position := rfl

@[simp] theorem kind_mk (position : Position) (kind : Kind Node) : (mk position kind).kind = kind := rfl

@[simp] theorem eta (n : Node) : mk n.position n.kind = n := by
  cases n; rfl

instance : Inhabited Node :=
  ⟨mk .unset (.comment "")⟩

def type (n : Node) : NodeType :=
  n.kind.nodeType

/-- The nodes directly below a node. -/
def children (n : Node) : List Node :=
  n.kind.children

def invocation? (n : Node) : Option Invocation :=
  n.kind.invocation?

def body? (n : Node) : Option (List Node) :=
  n.kind.body?

def leafText? (n : Node) : Option String :=
  n.kind.leafText?

def leaf (sort : Leaf) (text : String) (position : Position) : Node :=
  mk position (.leaf sort text)

def identifier (name : String) (position : Position) : Node :=
  leaf .identifier name position

/-- A statement stands where its command does. -/
def command (inv : Invocation) (text : String) : Node :=
  mk inv.commandPos (.command inv text)

theorem sizeOf_lt_of_mem_children {n c : Node} (h : c ∈ n.children) : sizeOf c < sizeOf n := by
  obtain ⟨position, kind⟩ := n
  have member (xs : List Node) (inside : c ∈ xs) : sizeOf c < sizeOf xs := List.sizeOf_lt_of_mem inside
  have present (x : Option Node) (inside : c ∈ x.toList) : sizeOf c < sizeOf x := by
    cases x with
    | none => simp at inside
    | some d =>
      have same : c = d := by simpa using inside
      subst same
      simp
  have paired (xs : List (Node × Node)) (inside : c ∈ xs.flatMap fun (k, v) => [k, v]) :
      sizeOf c < sizeOf xs := by
    obtain ⟨⟨k, v⟩, entry, place⟩ := List.mem_flatMap.mp inside
    have below := List.sizeOf_lt_of_mem entry
    have either : c = k ∨ c = v := by simpa using place
    rcases either with rfl | rfl <;> simp at below <;> omega
  simp only [children, kind_mk] at h
  cases kind <;> simp only [Kind.children, List.mem_append, List.mem_cons, List.not_mem_nil,
    List.cons_append, or_false] at h <;> simp only [mk.sizeOf_spec] <;> grind

end Node

end VimScript
