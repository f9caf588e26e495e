import VimScript.Tree.Kind
import VimScript.Tree.NodeType

/-!
What a content keeps when its parts are replaced.
-/

set_option autoImplicit false

namespace VimScript.Kind

variable {α β : Type}

@[simp] theorem nodeType_map (f : α → β) (kind : Kind α) : (kind.map f).nodeType = kind.nodeType := by
  cases kind <;> rfl

@[simp] theorem invocation?_map (f : α → β) (kind : Kind α) :
    (kind.map f).invocation? = kind.invocation? := by
  cases kind <;> rfl

theorem children_map (f : α → β) (kind : Kind α) : (kind.map f).children = kind.children.map f := by
  cases kind <;> simp [map, children, List.map_flatMap, List.flatMap_map, Option.toList_map]

end VimScript.Kind
