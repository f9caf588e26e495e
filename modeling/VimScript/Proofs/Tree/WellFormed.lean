import VimScript.Expr.Postfix
import VimScript.Proofs.Tree.Occurs

/-!
Well-formed expressions: what stands before and after a dot, what a method calls, the parameters of lambdas and the
parts of names in braces. A tree of statements is built of such expressions; only statements have heredocs.
-/

set_option autoImplicit false

namespace VimScript

/-- The types of the parts of names in braces. Nothing else is made of them. -/
def NodeType.isNamePart : NodeType → Bool
  | .leaf .curlyPart | .curlyExpr => true
  | _ => false

theorem NodeType.isExpression_of_isNamePart {type : NodeType} (part : type.isNamePart = true) :
    type.isExpression = true ∧ type ≠ .heredoc := by
  unfold isNamePart at part
  split at part
  · exact ⟨rfl, by simp⟩
  · exact ⟨rfl, by simp⟩
  · cases part

/-- An option or the marker of a heredoc. -/
structure IsHeredocWord (text : String) : Prop where
  some : text.toList ≠ []
  chars : ∀ c ∈ text.toList, CharClass.word.has c = true

namespace Node

variable {n c root : Node} {above params parts : List Node} {position : Position} {text : String}

/-- The name of a member. -/
def IsWord (n : Node) : Prop :=
  ∃ text position, n = .identifier text position ∧ text.toList ≠ [] ∧ ∀ c ∈ text.toList, CharClass.word.has c = true

/-- A parameter with a name of its own. -/
def IsArgument (n : Node) : Prop :=
  ∃ text position, n = .identifier text position ∧ isArgumentName text = true

/-- The dots for the rest of the arguments. -/
def IsRest (n : Node) : Prop :=
  ∃ position, n = .identifier "..." position

/-- Parameters with names of their own, of which no two are the same. -/
structure AreArguments (params : List Node) : Prop where
  named : ∀ n ∈ params, n.IsArgument
  distinct : (params.map leafText?).Nodup

/-- The parameters of a lambda: no two are called the same, and only the last may be dots. -/
structure AreParameters (params : List Node) : Prop where
  named : ∀ n ∈ params.dropLast, n.IsArgument
  last : ∀ n ∈ params.getLast?, n.IsArgument ∨ n.IsRest
  distinct : (params.map leafText?).Nodup

/-- The parts of a name in braces; a single run of name characters would be an identifier. -/
structure AreNameParts (parts : List Node) : Prop where
  some : parts ≠ []
  types : ∀ n ∈ parts, n.type.isNamePart = true
  several : ∀ n, parts = [n] → n.type ≠ .leaf .curlyPart

theorem nodup_concat_identifier (distinct : (params.map leafText?).Nodup)
    (fresh : ∀ n ∈ params, n.leafText? ≠ some text) :
    ((params ++ [Node.identifier text position]).map leafText?).Nodup := by
  rw [List.map_append, List.nodup_append]
  refine ⟨distinct, by simp, ?_⟩
  rintro _ place _ ⟨⟩
  · obtain ⟨n, inside, rfl⟩ := List.mem_map.mp place
    exact fresh n inside
  · contradiction

theorem AreArguments.nil : AreArguments [] :=
  ⟨by simp, by simp⟩

theorem AreArguments.concat (known : AreArguments params) (name : isArgumentName text = true)
    (fresh : ∀ n ∈ params, n.leafText? ≠ some text) : AreArguments (params ++ [Node.identifier text position]) where
  named := by simpa [or_imp, forall_and] using ⟨known.named, text, position, rfl, name⟩
  distinct := nodup_concat_identifier known.distinct fresh

theorem IsArgument.leafText?_ne (h : n.IsArgument) : n.leafText? ≠ some "..." := by
  obtain ⟨text, position, rfl, name⟩ := h
  rintro ⟨⟩
  exact absurd name (by decide)

theorem AreArguments.parameters (known : AreArguments params) : AreParameters params where
  named n place := known.named n (List.dropLast_subset params place)
  last n place := .inl (known.named n (List.mem_of_getLast? place))
  distinct := known.distinct

theorem AreArguments.rest (known : AreArguments params) : AreParameters (params ++ [Node.identifier "..." position]) where
  named n place := known.named n (by simpa using place)
  last := by
    simp only [List.getLast?_append, List.getLast?_singleton]
    rintro _ ⟨⟩
    exact .inr ⟨position, rfl⟩
  distinct := nodup_concat_identifier known.distinct fun n place => (known.named n place).leafText?_ne

theorem AreParameters.mem (h : AreParameters params) (place : n ∈ params) : n.IsArgument ∨ n.IsRest := by
  rw [← List.dropLast_concat_getLast (List.ne_nil_of_mem place)] at place
  rcases List.mem_append.mp place with old | new
  · exact .inl (h.named n old)
  · exact h.last n (by rw [List.mem_singleton.mp new]; exact List.getLast?_eq_some_getLast _)

/-- The expressions that are read. -/
inductive WellFormed : Node → Prop where
  | leaf {sort : Leaf} {text : String} {position : Position} (whole : sort ≠ .curlyPart) :
    WellFormed (.mk position (.leaf sort text))
  | unary {op : UnaryOp} {value : Node} {position : Position} (inner : WellFormed value) :
    WellFormed (.mk position (.unary op value))
  | binary {op : BinaryOp} {left right : Node} {position : Position} (first : WellFormed left)
    (last : WellFormed right) : WellFormed (.mk position (.binary op left right))
  | ternary {cond yes no : Node} {position : Position} (first : WellFormed cond) (second : WellFormed yes)
    (last : WellFormed no) : WellFormed (.mk position (.ternary cond yes no))
  | subscript {left index : Node} {position : Position} (first : WellFormed left) (inner : WellFormed index) :
    WellFormed (.mk position (.subscript left index))
  | slice {left : Node} {lower upper : Option Node} {position : Position} (first : WellFormed left)
    (below : ∀ n ∈ lower, WellFormed n) (above : ∀ n ∈ upper, WellFormed n) :
    WellFormed (.mk position (.slice left lower upper))
  | dot {left name : Node} {position : Position} (first : WellFormed left) (members : Expr.hasMembers left = true)
    (word : name.IsWord) : WellFormed (.mk position (.dot left name))
  | call {callee : Node} {args : List Node} {position : Position} (first : WellFormed callee)
    (inner : ∀ n ∈ args, WellFormed n) : WellFormed (.mk position (.call callee args))
  | method {left right : Node} {position : Position} (first : WellFormed left) (call : right.type = .call)
    (last : WellFormed right) : WellFormed (.mk position (.method left right))
  | list {items : List Node} {position : Position} (inner : ∀ n ∈ items, WellFormed n) :
    WellFormed (.mk position (.list items))
  | dict {entries : List (Node × Node)} {position : Position} (keys : ∀ e ∈ entries, WellFormed e.1)
    (values : ∀ e ∈ entries, WellFormed e.2) : WellFormed (.mk position (.dict entries))
  | curlyName {parts : List Node} {position : Position} (known : AreNameParts parts)
    (inner : ∀ n ∈ parts, ∀ c ∈ n.children, WellFormed c) : WellFormed (.mk position (.curlyName parts))
  | lambda {params : List Node} {body : Node} {position : Position} (known : AreParameters params)
    (inner : WellFormed body) : WellFormed (.mk position (.lambda params body))

namespace WellFormed

@[simp] theorem identifier : (Node.identifier text position).WellFormed :=
  .leaf (by decide)

theorem of_isWord (h : n.IsWord) : n.WellFormed := by
  obtain ⟨_, _, rfl, -⟩ := h
  exact identifier

theorem of_parameter (h : n.IsArgument ∨ n.IsRest) : n.WellFormed := by
  rcases h with ⟨_, _, rfl, -⟩ | ⟨_, rfl⟩
  · exact identifier
  · exact identifier

theorem type (h : n.WellFormed) : n.type.isExpression = true ∧ n.type.isNamePart = false ∧ n.type ≠ .heredoc := by
  cases h with
  | @leaf sort text position whole => cases sort <;> simp_all [Node.type, Kind.nodeType, NodeType.isExpression,
      NodeType.isNamePart]
  | _ => exact ⟨rfl, rfl, by simp [Node.type, Kind.nodeType]⟩

end WellFormed

/-- A part of a name in braces, directly below it. -/
structure IsPartOf (above : List Node) (n : Node) : Prop where
  type : n.type.isNamePart = true
  inner : ∀ c ∈ n.children, c.WellFormed
  below : ∃ parent ∈ above.head?, parent.type = .curlyName

/-- Below a well-formed expression there are such expressions, but for names in braces. -/
theorem WellFormed.children (h : n.WellFormed) (other : n.type ≠ .curlyName) : ∀ c ∈ n.children, c.WellFormed := by
  cases h with
  | leaf => simp [Node.children, Kind.children]
  | unary inner => simpa [Node.children, Kind.children] using inner
  | binary first last => simpa [Node.children, Kind.children] using ⟨first, last⟩
  | ternary first second last => simpa [Node.children, Kind.children] using ⟨first, second, last⟩
  | subscript first inner => simpa [Node.children, Kind.children] using ⟨first, inner⟩
  | slice first below above =>
    simpa [Node.children, Kind.children, or_imp, forall_and] using ⟨first, fun n => below n, fun n => above n⟩
  | dot first members word => simpa [Node.children, Kind.children] using ⟨first, of_isWord word⟩
  | call first inner => simpa [Node.children, Kind.children] using ⟨first, inner⟩
  | method first call last => simpa [Node.children, Kind.children] using ⟨first, last⟩
  | list inner => exact inner
  | dict keys values =>
    intro c below
    obtain ⟨e, place, either⟩ := List.mem_flatMap.mp below
    have either : c = e.1 ∨ c = e.2 := by simpa using either
    rcases either with rfl | rfl
    · exact keys e place
    · exact values e place
  | curlyName => exact absurd rfl other
  | lambda known inner =>
    have params (n : Node) (place : n ∈ _) : n.WellFormed := of_parameter (known.mem place)
    simpa [Node.children, Kind.children, or_imp, forall_and] using ⟨params, inner⟩

theorem WellFormed.part (h : n.WellFormed) (name : n.type = .curlyName) (below : c ∈ n.children) :
    c.IsPartOf (n :: above) := by
  cases h with
  | curlyName known inner => exact ⟨known.types c below, inner c below, _, rfl, name⟩
  | leaf => cases below
  | _ => cases name

theorem WellFormed.child (h : n.WellFormed) (below : c ∈ n.children) : c.WellFormed ∨ c.IsPartOf (n :: above) := by
  by_cases name : n.type = .curlyName
  · exact .inr (h.part name below)
  · exact .inl (h.children name c below)

/-- What occurs in a well-formed expression is one, or a part of a name. -/
theorem Occurs.wellFormed (place : root.Occurs above n) (whole : root.WellFormed) :
    n.WellFormed ∨ n.IsPartOf above := by
  induction place with
  | root => exact .inl whole
  | child _ below ih =>
    rcases ih with formed | part
    · exact formed.child below
    · exact .inl (part.inner _ below)

/-! ### Trees of statements -/

/-- A node that is no expression, built of others like it and of nodes that are in a given set. -/
inductive BuiltOf (P : Node → Prop) : Node → Prop where
  | intro {n : Node} (type : n.type.isExpression = false) (children : ∀ c ∈ n.children, ¬P c → BuiltOf P c) :
    BuiltOf P n

namespace BuiltOf

variable {P : Node → Prop} {kind : Kind Node}

theorem type (h : n.BuiltOf P) : n.type.isExpression = false := by
  cases h with
  | intro type children => exact type

theorem children (h : n.BuiltOf P) : ∀ c ∈ n.children, ¬P c → c.BuiltOf P := by
  cases h with
  | intro type children => exact children

theorem mk (type : kind.nodeType.isExpression = false) (children : ∀ c ∈ kind.children, P c) :
    (Node.mk position kind).BuiltOf P :=
  .intro type fun c below other => absurd (children c below) other

end BuiltOf

/-- A heredoc as it is read: words in its head, and lines that have no end of line in them. -/
def IsHeredoc (n : Node) : Prop :=
  ∃ position options marker lines, n = .mk position (.heredoc options marker lines) ∧
    (∀ o ∈ options, IsHeredocWord o) ∧ IsHeredocWord marker ∧ ∀ l ∈ lines, '\n' ∉ l.toList

theorem IsHeredoc.type (h : n.IsHeredoc) : n.type = .heredoc := by
  obtain ⟨_, _, _, _, rfl, -⟩ := h
  rfl

/-- What a statement is about: an expression or a heredoc. -/
def IsOperand (n : Node) : Prop :=
  n.WellFormed ∨ n.IsHeredoc

/-- How a node stands in a tree that was read. -/
inductive Stands (above : List Node) (n : Node) : Prop where
  | statement (built : n.BuiltOf IsOperand) (outer : ∀ a ∈ above, a.type.isExpression = false)
  | heredoc (heredoc : n.IsHeredoc) (outer : ∀ a ∈ above, a.type.isExpression = false)
  | expression (formed : n.WellFormed)
  | namePart (part : n.IsPartOf above)

theorem children_of_heredoc (type : n.type = .heredoc) : n.children = [] := by
  obtain ⟨position, kind⟩ := n
  cases kind <;> simp [Node.type, Kind.nodeType] at type
  rfl

theorem Stands.child (h : n.Stands above) (below : c ∈ n.children) : c.Stands (n :: above) := by
  cases h with
  | statement built outer =>
    have outer : ∀ a ∈ n :: above, a.type.isExpression = false := List.forall_mem_cons.mpr ⟨built.type, outer⟩
    by_cases operand : c.IsOperand
    · rcases operand with formed | heredoc
      · exact .expression formed
      · exact .heredoc heredoc outer
    · exact .statement (built.children c below operand) outer
  | heredoc heredoc =>
    rw [children_of_heredoc heredoc.type] at below
    cases below
  | expression formed =>
    rcases formed.child below with inner | part
    · exact .expression inner
    · exact .namePart part
  | namePart part => exact .expression (part.inner c below)

theorem Occurs.stands (place : root.Occurs above n) (whole : root.Stands []) : n.Stands above := by
  induction place with
  | root => exact whole
  | child _ below ih => exact ih.child below

/-- The shape of what is in a tree, at any depth. -/
structure WellShaped (above : List Node) (n : Node) : Prop where
  dot : ∀ left name, n.kind = .dot left name →
    left.type ∈ [.leaf .identifier, .curlyName, .dict, .subscript, .call, .dot] ∧ name.IsWord
  method : ∀ left right, n.kind = .method left right → right.type = .call
  lambda : ∀ params body, n.kind = .lambda params body → AreParameters params
  curlyName : ∀ parts, n.kind = .curlyName parts → AreNameParts parts
  namePart : n.type.isNamePart = true → ∃ parent ∈ above.head?, parent.type = .curlyName
  inside : ∀ a ∈ above, a.type.isExpression = true → n.type.isExpression = true ∧ n.type ≠ .heredoc

theorem mem_of_hasMembers (h : Expr.hasMembers n = true) :
    n.type ∈ [.leaf .identifier, .curlyName, .dict, .subscript, .call, .dot] := by
  unfold Expr.hasMembers at h
  split at h
  case h_1 | h_2 | h_3 | h_4 | h_5 | h_6 => simp [*]
  · cases h

theorem WellFormed.shape (h : n.WellFormed) : n.WellShaped above := by
  obtain ⟨expression, whole, noHeredoc⟩ := h.type
  refine ⟨?_, ?_, ?_, ?_, fun part => by simp [whole] at part, fun _ _ _ => ⟨expression, noHeredoc⟩⟩
  · rintro left name same
    cases h with
    | dot first members word =>
      obtain ⟨rfl, rfl⟩ := Kind.dot.inj same
      exact ⟨mem_of_hasMembers members, word⟩
    | _ => cases same
  · rintro left right same
    cases h with
    | method first call last =>
      obtain ⟨rfl, rfl⟩ := Kind.method.inj same
      exact call
    | _ => cases same
  · rintro params body same
    cases h with
    | lambda known inner =>
      obtain ⟨rfl, rfl⟩ := Kind.lambda.inj same
      exact known
    | _ => cases same
  · rintro parts same
    cases h with
    | curlyName known inner =>
      obtain rfl := Kind.curlyName.inj same
      exact known
    | _ => cases same

theorem Stands.shape (h : n.Stands above) : n.WellShaped above := by
  -- Statements, heredocs and the parts of names have no shape of their own.
  have plain (other : n.type.isExpression = false ∨ n.type = .heredoc ∨ n.type.isNamePart = true)
      (part : n.type.isNamePart = true → ∃ parent ∈ above.head?, parent.type = .curlyName)
      (inside : ∀ a ∈ above, a.type.isExpression = true → n.type.isExpression = true ∧ n.type ≠ .heredoc) :
      n.WellShaped above := by
    refine ⟨fun _ _ same => ?_, fun _ _ same => ?_, fun _ _ same => ?_, fun _ same => ?_, part, inside⟩
    all_goals simp [Node.type, same, Kind.nodeType, NodeType.isExpression, NodeType.isNamePart] at other
  have outside {a : Node} (outer : ∀ a ∈ above, a.type.isExpression = false) (place : a ∈ above)
      (expression : a.type.isExpression = true) : n.type.isExpression = true ∧ n.type ≠ .heredoc :=
    absurd expression (by simp [outer a place])
  cases h with
  | statement built outer =>
    refine plain (.inl built.type) (fun part => ?_) fun _ => outside outer
    exact absurd (NodeType.isExpression_of_isNamePart part).1 (by simp [built.type])
  | heredoc heredoc outer =>
    exact plain (.inr (.inl heredoc.type)) (by simp [heredoc.type, NodeType.isNamePart]) fun _ => outside outer
  | expression formed => exact formed.shape
  | namePart part =>
    exact plain (.inr (.inr part.type)) (fun _ => part.below) fun _ _ _ => NodeType.isExpression_of_isNamePart part.type

end Node

end VimScript
