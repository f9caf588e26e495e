import VimScript.Proofs.Source.Verbatim
import VimScript.Proofs.Tree.Occurs

/-!
Trees whose texts are those of the buffer. A leaf of an expression shows what stands at its place, a comment what is
left of its line, and a command with a text what stands from its line or its argument on. A key that a dictionary has
without quotes is a string for which only its letters are written.
-/

set_option autoImplicit false

namespace VimScript

/-- The string of a key without quotes. Its place is that of the second letter. -/
def Node.ShowsKey (s : Source) (n : Node) : Prop :=
  ∃ key start, n.kind = .leaf .string ("'" ++ key ++ "'") ∧ n.position.cursor = start + 1 ∧ s.Shows start key

/-- A key of a dictionary that is opened by `#` and a brace. -/
structure Node.IsLiteralKey (s : Source) (parent n : Node) : Prop where
  opened : s.Shows parent.position.cursor "#\x7b"
  entry : ∃ entries value, parent.kind = .dict entries ∧ (n, value) ∈ entries
  key : n.ShowsKey s

/-- The text of a node is what stands in the buffer where the node says it does. -/
def Node.ShowsText (s : Source) : Node → Prop
  | .mk position (.leaf _ text) => s.Shows position.cursor text
  | .mk position (.comment text) => s.ShowsLine (position.cursor + 1) text
  | .mk _ (.command inv text) => s.Shows inv.linePos.cursor text
  | .mk _ (.echoHl inv text) => s.Shows inv.argumentPos.cursor text
  | _ => True

namespace Node

variable {s : Source} {root n c : Node} {above : List Node} {position : Position} {kind : Kind Node}

/-- All texts of a tree are those of the buffer, but for literal keys. -/
inductive Verbatim (s : Source) : Node → Prop where
  | intro {n : Node} (own : n.ShowsText s) (children : ∀ c ∈ n.children, ¬n.IsLiteralKey s c → Verbatim s c) :
      Verbatim s n

def AllVerbatim (s : Source) (ns : List Node) : Prop :=
  ∀ n ∈ ns, n.Verbatim s

namespace Verbatim

theorem own (h : n.Verbatim s) : n.ShowsText s := by
  cases h with
  | intro own children => exact own

theorem children (h : n.Verbatim s) : ∀ c ∈ n.children, ¬n.IsLiteralKey s c → c.Verbatim s := by
  cases h with
  | intro own children => exact children

theorem mk (own : (Node.mk position kind).ShowsText s) (children : AllVerbatim s kind.children) :
    (Node.mk position kind).Verbatim s :=
  .intro own fun c below _ => children c below

theorem leaf {sort : Leaf} {text : String} (shows : s.Shows position.cursor text) :
    (leaf sort text position).Verbatim s :=
  .intro shows (by simp [Node.leaf, Node.children, Kind.children])

/-- A node that is no dictionary has verbatim children only. -/
theorem all_children (h : n.Verbatim s) (other : n.type ≠ .dict) : AllVerbatim s n.children := by
  intro c below
  refine h.children c below fun key => ?_
  obtain ⟨entries, value, dict, -⟩ := key.entry
  exact other (by rw [Node.type, dict, Kind.nodeType])

end Verbatim

theorem AllVerbatim.nil : AllVerbatim s [] := by
  simp [AllVerbatim]

theorem AllVerbatim.single (h : n.Verbatim s) : AllVerbatim s [n] := by
  simpa [AllVerbatim] using h

theorem AllVerbatim.concat {ns : List Node} (before : AllVerbatim s ns) (last : n.Verbatim s) :
    AllVerbatim s (ns ++ [n]) := by
  simpa [AllVerbatim, or_imp, forall_and] using ⟨before, last⟩

/-- A dictionary, with literal keys if it is opened as one that has them. -/
theorem Verbatim.dict {entries : List (Node × Node)}
    (keys : ∀ e ∈ entries, e.1.Verbatim s ∨ s.Shows position.cursor "#\x7b" ∧ e.1.ShowsKey s)
    (values : ∀ e ∈ entries, e.2.Verbatim s) : (Node.mk position (.dict entries)).Verbatim s := by
  refine .intro trivial fun c below other => ?_
  obtain ⟨⟨key, value⟩, place, either⟩ := List.mem_flatMap.mp below
  have either : c = key ∨ c = value := by simpa using either
  rcases either with rfl | rfl
  · exact (keys _ place).resolve_right fun literal => other ⟨literal.1, ⟨entries, value, rfl, place⟩, literal.2⟩
  · exact values _ place

/-- Whatever occurs in a verbatim tree is verbatim or a literal key of the dictionary above it. -/
theorem Occurs.verbatim (place : root.Occurs above n) (whole : root.Verbatim s) :
    n.Verbatim s ∨ ∃ parent ∈ above.head?, parent.IsLiteralKey s n := by
  induction place with
  | root => exact .inl whole
  | @child above parent n place below ih =>
    rcases ih with verbatim | ⟨dict, -, key⟩
    · by_cases literal : parent.IsLiteralKey s n
      · exact .inr ⟨parent, rfl, literal⟩
      · exact .inl (verbatim.children n below literal)
    -- A literal key is a leaf.
    · obtain ⟨_, _, leaf, -⟩ := key.key
      rw [Node.children, leaf] at below
      cases below

end Node

end VimScript
