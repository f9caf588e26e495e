import VimScript.Tree.Fold

/-!
The forms that fingerprints spell: words, lists in parentheses, and texts that may hold any character. A tree is written
by its form alone, and what a form is headed by may be an operator, a keyword or a callee.
-/

set_option autoImplicit false

namespace VimScript

inductive Form where
  /-- A text that may hold blanks and parentheses as well: a string or the name of a register. -/
  | verbatim (text : List Char)
  /-- Characters, and forms in braces among them. -/
  | word (pieces : List (Char ⊕ Form))
  | group (items : List Form)

namespace Form

mutual

def written : Form → List Char
  | .verbatim text => text
  | .word pieces => glued pieces
  | .group items => '(' :: (spaced items ++ [')'])

def glued : List (Char ⊕ Form) → List Char
  | [] => []
  | piece :: pieces => pieceText piece ++ glued pieces

def pieceText : Char ⊕ Form → List Char
  | .inl c => [c]
  | .inr value => '\x7b' :: (value.written ++ ['\x7d'])

def spaced : List Form → List Char
  | [] => []
  | [item] => item.written
  | item :: next :: items => item.written ++ ' ' :: spaced (next :: items)

end

/-- A word without braces. -/
def spelled (text : String) : Form :=
  .word (text.toList.map .inl)

def pieces : Form → List (Char ⊕ Form)
  | .word pieces => pieces
  | form => [.inr form]

@[simp] theorem glued_append (xs ys : List (Char ⊕ Form)) : glued (xs ++ ys) = glued xs ++ glued ys := by
  induction xs with
  | nil => simp [glued]
  | cons x xs ih => simp [glued, ih]

@[simp] theorem glued_chars (text : List Char) : glued (text.map .inl) = text := by
  induction text with
  | nil => simp [glued]
  | cons c text ih => simp [glued, pieceText, ih]

@[simp] theorem written_spelled (text : String) : (spelled text).written = text.toList := by
  rw [spelled, written, glued_chars]

theorem spaced_cons (item : Form) {items : List Form} (more : items ≠ []) :
    spaced (item :: items) = item.written ++ ' ' :: spaced items := by
  cases items with
  | nil => exact absurd rfl more
  | cons next items => rw [spaced]

theorem map_inl_injective {xs ys : List Char} (same : (xs.map .inl : List (Char ⊕ Form)) = ys.map .inl) : xs = ys :=
  (List.map_inj_right fun _ _ => Sum.inl.inj).mp same

theorem spelled_injective {a b : String} (same : spelled a = spelled b) : a = b :=
  String.toList_inj.mp (map_inl_injective (Form.word.inj same))

end Form

/-- The form of a content from the forms of its parts. -/
def Kind.form : Kind Form → Form
  | .ternary cond yes no => .group [.spelled "?:", cond, yes, no]
  | .binary op left right => .group [.spelled op.symbol, left, right]
  | .unary op value => .group [.spelled op.symbol, value]
  | .subscript left index => .group [.spelled "subscript", left, index]
  | .slice left lower upper =>
    .group [.spelled "slice", left, lower.getD (.spelled "nil"), upper.getD (.spelled "nil")]
  | .dot left name => .group [.spelled "dot", left, name]
  | .method left right => .group [.spelled "method", left, right]
  | .call callee args => .group (callee :: args)
  | .list items => .group (.spelled "list" :: items)
  | .dict entries => .group (.spelled "dict" :: entries.map fun (k, v) => .group [k, v])
  | .leaf .string text | .leaf .register text => .verbatim text.toList
  | .leaf _ text => .spelled text
  | .curlyName parts => .word (parts.flatMap Form.pieces)
  | .curlyExpr value => .word [.inr value]
  | .lambda params body => .group [.spelled "lambda", .group params, body]
  | _ => .group []

namespace Node

/-- The form of an expression, its positions left out. -/
def form : Node → Form :=
  fold fun _ kind => kind.form

theorem form_mk (position : Position) (kind : Kind Node) : (mk position kind).form = (kind.map form).form :=
  fold_mk _ position kind

/-- The pieces of a name from those of its parts. -/
def namePieces (parts : List Node) : List (Char ⊕ Form) :=
  parts.flatMap fun n => n.form.pieces

theorem form_curlyName (position : Position) (parts : List Node) :
    (mk position (.curlyName parts)).form = .word (namePieces parts) := by
  rw [form_mk, Kind.map, Kind.form, List.flatMap_map, namePieces]

@[simp] theorem namePieces_nil : namePieces [] = [] :=
  rfl

@[simp] theorem namePieces_append (xs ys : List Node) : namePieces (xs ++ ys) = namePieces xs ++ namePieces ys := by
  rw [namePieces, List.flatMap_append, namePieces, namePieces]

@[simp] theorem namePieces_text (text : String) (position : Position) :
    namePieces [leaf .curlyPart text position] = text.toList.map .inl := by
  rw [namePieces, List.flatMap_singleton, leaf, form_mk]
  rfl

@[simp] theorem namePieces_braced (position : Position) (value : Node) :
    namePieces [mk position (.curlyExpr value)] = [.inr value.form] := by
  rw [namePieces, List.flatMap_singleton, form_mk]
  rfl

theorem mem_namePieces {parts : List Node} {piece : Char ⊕ Form} :
    piece ∈ namePieces parts ↔ ∃ n ∈ parts, piece ∈ namePieces [n] := by
  simp [namePieces]

end Node

end VimScript
