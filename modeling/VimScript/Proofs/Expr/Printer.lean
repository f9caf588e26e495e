import Mathlib.Data.List.Chain
import VimScript.Expr.Postfix
import VimScript.Proofs.Token.Literals
import VimScript.Proofs.Tree.Map
import VimScript.Tree.Fold

/-!
A printer of expressions that puts every proper subexpression in parentheses, and the trees it prints.
-/

set_option autoImplicit false

namespace VimScript

/-- How a concatenation is written: with one dot or with two. -/
inductive Dots where
  | one | two
deriving DecidableEq, Repr

def BinaryOp.sign (dots : Dots) : BinaryOp → List Char
  | .concat =>
    match dots with
    | .one => ['.']
    | .two => ['.', '.']
  | op => op.symbol.toList

namespace Node

/-- A tree without its positions. -/
def bare : Node → Node :=
  fold fun _ kind => mk .unset kind

@[simp] theorem bare_mk (position : Position) (kind : Kind Node) :
    (mk position kind).bare = mk .unset (kind.map bare) :=
  fold_mk _ position kind

@[simp] theorem bare_leaf (sort : Leaf) (text : String) (position : Position) :
    (leaf sort text position).bare = leaf sort text .unset := by
  simp [leaf, Kind.map]

theorem type_of_bare {n t : Node} (same : n.bare = t.bare) : n.type = t.type := by
  obtain ⟨p, kind⟩ := n
  obtain ⟨q, kind'⟩ := t
  have types := congrArg type same
  simpa [type] using types

/-! ### The printer -/

def enclosed (text : List Char) : List Char :=
  '(' :: (text ++ [')'])

@[simp] theorem length_enclosed (text : List Char) : (enclosed text).length = text.length + 2 := by
  simp [enclosed]

/-- Texts with a comma and a blank between them. -/
def listed : List (List Char) → List Char
  | [] => []
  | [text] => text
  | text :: next :: texts => text ++ ',' :: ' ' :: listed (next :: texts)

def bound (text : Option (List Char)) : List Char :=
  match text with
  | some text => enclosed text
  | none => []

/-- The text of a node from the texts of the nodes below it. -/
def renderKind (dots : Dots) : Kind (List Char) → List Char
  | .leaf _ text => text.toList
  | .binary op left right => enclosed left ++ ' ' :: (op.sign dots ++ ' ' :: enclosed right)
  | .unary op value => op.symbol.toList ++ enclosed value
  | .ternary cond yes no =>
    enclosed cond ++ ' ' :: '?' :: ' ' :: (enclosed yes ++ ' ' :: ':' :: ' ' :: enclosed no)
  | .subscript left index => enclosed left ++ '[' :: (enclosed index ++ [']'])
  | .slice left lower upper => enclosed left ++ '[' :: (bound lower ++ ':' :: (bound upper ++ [']']))
  | .dot left name => enclosed left ++ '.' :: name
  | .call callee args => enclosed callee ++ '(' :: (listed (args.map enclosed) ++ [')'])
  | .method left call => enclosed left ++ '-' :: '>' :: call
  | .list items => '[' :: (listed (items.map enclosed) ++ [']'])
  | .dict entries =>
    '\x7b' :: (listed (entries.map fun (key, value) => enclosed key ++ ':' :: ' ' :: enclosed value) ++ ['\x7d'])
  | .lambda params body => '\x7b' :: (listed params ++ ' ' :: '-' :: '>' :: ' ' :: (enclosed body ++ ['\x7d']))
  | .curlyName parts => parts.flatten
  | .curlyExpr value => '\x7b' :: (enclosed value ++ ['\x7d'])
  | _ => []

attribute [grind =] renderKind

def render (dots : Dots) : Node → List Char :=
  fold fun _ kind => renderKind dots kind

theorem render_mk (dots : Dots) (position : Position) (kind : Kind Node) :
    (mk position kind).render dots = renderKind dots (kind.map (render dots)) :=
  fold_mk _ position kind

@[simp] theorem render_leaf (dots : Dots) (sort : Leaf) (text : String) (position : Position) :
    (leaf sort text position).render dots = text.toList := by
  simp [leaf, render_mk, Kind.map, renderKind]

def print (dots : Dots) (n : Node) : String :=
  String.ofList (n.render dots)

/-! ### What is printed -/

/-- Parameters of a lambda: names without repetitions, and an ellipsis at most at the end. -/
structure Parameters (params : List Node) : Prop where
  names : ∀ param ∈ params, ∃ text position, param = .identifier text position ∧
    (Token.IsName text.toList ∨ text = "...")
  distinct : (params.map leafText?).Nodup
  last : ∀ param ∈ params.dropLast, param.leafText? ≠ some "..."

def isCurlyPart (n : Node) : Bool :=
  n.type == .leaf .curlyPart

/-- Parts of a name with expressions in it. -/
structure CurlyParts (parts : List Node) : Prop where
  each : ∀ part ∈ parts,
    (∃ text position, part = .leaf .curlyPart text position ∧ text.toList ≠ [] ∧
      ∀ c ∈ text.toList, CharClass.name.has c = true) ∨
    ∃ position value, part = .mk position (.curlyExpr value)
  start : ∀ part ∈ parts.head?, part.isCurlyPart = true →
    ∃ text, part.leafText? = some text ∧ CharClass.nameStart.hasOpt text.toList.head? = true
  some : parts ≠ []
  notLone : ∀ part, parts = [part] → part.isCurlyPart = false
  apart : parts.IsChain fun a b => a.isCurlyPart = false ∨ b.isCurlyPart = false

/-- Expressions that the printer writes so that they can be read back. -/
inductive Printable : Node → Prop where
  | number {position : Position} {text : String} (decimal : Token.IsDecimal text.toList) :
      Printable (.leaf .number text position)
  | singleQuoted {position : Position} {body : List Char} (quoted : Token.SingleQuoted body) :
      Printable (.leaf .string (String.ofList ('\'' :: (body ++ ['\'']))) position)
  | doubleQuoted {position : Position} {body : List Char} (quoted : Token.DoubleQuoted body) :
      Printable (.leaf .string (String.ofList ('"' :: (body ++ ['"']))) position)
  | name {position : Position} {text : String} (name : Token.IsName text.toList) :
      Printable (.leaf .identifier text position)
  | option {position : Position} {ws : List Char} (some : ws ≠ []) (word : ∀ c ∈ ws, CharClass.word.has c = true) :
      Printable (.leaf .option (String.ofList ('&' :: ws)) position)
  | env {position : Position} {ws : List Char} (word : ∀ c ∈ ws, CharClass.word.has c = true) :
      Printable (.leaf .env (String.ofList ('$' :: ws)) position)
  | register {position : Position} {c : Char} (line : c ≠ '\n') :
      Printable (.leaf .register (String.ofList ['@', c]) position)
  | binary {position : Position} {a b : Node} (op : BinaryOp) (left : Printable a) (right : Printable b) :
      Printable (.mk position (.binary op a b))
  | unary {position : Position} {a : Node} (op : UnaryOp) (value : Printable a) :
      Printable (.mk position (.unary op a))
  | ternary {position : Position} {a b c : Node} (cond : Printable a) (yes : Printable b) (no : Printable c) :
      Printable (.mk position (.ternary a b c))
  | subscript {position : Position} {a b : Node} (left : Printable a) (index : Printable b) :
      Printable (.mk position (.subscript a b))
  | slice {position : Position} {a : Node} {lower upper : Option Node} (left : Printable a)
      (below : ∀ n ∈ lower, Printable n) (above : ∀ n ∈ upper, Printable n) :
      Printable (.mk position (.slice a lower upper))
  | dot {position position' : Position} {a : Node} {text : String} (left : Printable a)
      (members : Expr.hasMembers a = true) (some : text.toList ≠ [])
      (word : ∀ c ∈ text.toList, CharClass.word.has c = true) :
      Printable (.mk position (.dot a (.identifier text position')))
  | call {position : Position} {a : Node} {args : List Node} (callee : Printable a)
      (all : ∀ arg ∈ args, Printable arg) (few : args.length ≤ Expr.maxArguments) :
      Printable (.mk position (.call a args))
  | method {position position' : Position} {a b : Node} {args : List Node} (left : Printable a)
      (callee : Printable b) (all : ∀ arg ∈ args, Printable arg) (few : args.length ≤ Expr.maxArguments) :
      Printable (.mk position (.method a (.mk position' (.call b args))))
  | list {position : Position} {items : List Node} (all : ∀ item ∈ items, Printable item) :
      Printable (.mk position (.list items))
  | dict {position : Position} {entries : List (Node × Node)} (keys : ∀ entry ∈ entries, Printable entry.1)
      (values : ∀ entry ∈ entries, Printable entry.2) : Printable (.mk position (.dict entries))
  | lambda {position : Position} {params : List Node} {a : Node} (names : Parameters params) (body : Printable a) :
      Printable (.mk position (.lambda params a))
  | curlyName {position : Position} {parts : List Node} (shape : CurlyParts parts)
      (inner : ∀ position value, mk position (.curlyExpr value) ∈ parts → Printable value) :
      Printable (.mk position (.curlyName parts))

end Node

end VimScript
