import VimScript.Tree.Fold

/-!
The fingerprint of a tree: prefix notation in parentheses, one statement a line, the statements of a block
indented under it. An expression has a form on one line; a statement is written onto a page.
-/

set_option autoImplicit false

namespace VimScript.Fingerprint

/-- Lines written so far, the last one first, and the indents of the open blocks, the innermost first. -/
structure Page where
  indents : List String := [""]
  written : List String := []
deriving DecidableEq, Repr

namespace Page

def indent (p : Page) : String :=
  p.indents.headD ""

def line (text : String) (p : Page) : Page :=
  { p with written := (p.indent ++ text) :: p.written }

/-- Closes a form at the end of the last line. -/
def close (p : Page) : Page :=
  match p.written with
  | [] => { p with written := [")"] }
  | last :: rest => { p with written := (last ++ ")") :: rest }

def deeper (p : Page) : Page :=
  { p with indents := (p.indent ++ "  ") :: p.indents }

def shallower (p : Page) : Page :=
  match p.indents with
  | _ :: outer :: rest => { p with indents := outer :: rest }
  | _ => p

def lines (p : Page) : List String :=
  p.written.reverse

end Page

/-- A branch of a block: the line it starts with and the way its statements are written. -/
structure Branch where
  header : String
  body : Page → Page

/-- A node as it is written: on one line, onto a page, and as a branch of the block around it. -/
structure Written where
  inline : String
  write : Page → Page
  elseIf : Option Branch := none
  otherwise : Option Branch := none
  catching : Option Branch := none
  final : Option Branch := none

def escapeText (s : String) : String :=
  String.ofList (s.toList.flatMap fun c => if c == '\\' || c == '"' then ['\\', c] else [c])

/-- A string of a heredoc in quotes; only line breaks and tabs are escaped. -/
def quoteString (s : String) : String :=
  let escape (c : Char) : List Char :=
    match c with
    | '\n' => ['\\', 'n']
    | '\t' => ['\\', 't']
    | '\r' => ['\\', 'r']
    | c => [c]
  String.ofList ('"' :: s.toList.flatMap escape ++ ['"'])

def stringList (items : List String) : String :=
  if items.isEmpty then "(list)" else "(list " ++ " ".intercalate (items.map quoteString) ++ ")"

def join (nodes : List Written) : String :=
  " ".intercalate (nodes.map Written.inline)

/-- The form of an expression; a statement has none. -/
def expressionText : Kind Written → Option String
  | .ternary cond yes no => some ("(?: " ++ cond.inline ++ " " ++ yes.inline ++ " " ++ no.inline ++ ")")
  | .binary op left right => some ("(" ++ op.symbol ++ " " ++ left.inline ++ " " ++ right.inline ++ ")")
  | .unary op value => some ("(" ++ op.symbol ++ " " ++ value.inline ++ ")")
  | .subscript left index => some ("(subscript " ++ left.inline ++ " " ++ index.inline ++ ")")
  | .slice left lower upper =>
    let bound (b : Option Written) : String := (b.map Written.inline).getD "nil"
    some ("(slice " ++ left.inline ++ " " ++ bound lower ++ " " ++ bound upper ++ ")")
  | .dot left name => some ("(dot " ++ left.inline ++ " " ++ name.inline ++ ")")
  | .method left right => some ("(method " ++ left.inline ++ " " ++ right.inline ++ ")")
  | .call callee args =>
    if args.isEmpty then some ("(" ++ callee.inline ++ ")")
    else some ("(" ++ callee.inline ++ " " ++ join args ++ ")")
  | .list items => if items.isEmpty then some "(list)" else some ("(list " ++ join items ++ ")")
  | .dict entries =>
    let entry := fun (e : Written × Written) => "(" ++ e.1.inline ++ " " ++ e.2.inline ++ ")"
    if entries.isEmpty then some "(dict)"
    else some ("(dict " ++ " ".intercalate (entries.map entry) ++ ")")
  | .leaf _ text => some text
  | .curlyName parts => some (String.join (parts.map Written.inline))
  | .curlyExpr value => some ("\x7b" ++ value.inline ++ "\x7d")
  | .lambda params body => some ("(lambda (" ++ join params ++ ") " ++ body.inline ++ ")")
  | .heredoc options marker lines =>
    some ("(heredoc " ++ stringList options ++ " " ++ quoteString marker ++ " " ++ stringList lines ++ ")")
  | _ => none

def writeAll (nodes : List Written) (p : Page) : Page :=
  nodes.foldl (fun p n => n.write p) p

/-- The statements of a block, indented, and the parenthesis that closes it. -/
def block (body : List Written) (p : Page) : Page :=
  (writeAll body p.deeper).close.shallower

/-- One target, or a list of them in parentheses with a dot before the one for the rest. -/
def targets (single : Option Written) (items : List Written) (rest : Option Written) : String :=
  match single with
  | some target => target.inline
  | none =>
    match rest with
    | some rest => "(" ++ join items ++ " . " ++ rest.inline ++ ")"
    | none => "(" ++ join items ++ ")"

/-- The name and parameters of a function. Defaults belong to the last parameters before the ellipsis. -/
def functionHeader (name : Written) (params defaults : List Written) : String :=
  let texts := params.map Written.inline
  let isVariadic := texts.getLast? == some "..."
  let texts := if isVariadic then texts.dropLast else texts
  let plain := texts.length - defaults.length
  let withDefaults := (texts.drop plain).zipWith (fun p (d : Written) => " (" ++ p ++ " " ++ d.inline ++ ")")
    defaults
  name.inline ++ String.join ((texts.take plain).map (" " ++ ·)) ++ String.join withDefaults ++
    (if isVariadic then " . ..." else "")

def branches (found : List (Option Branch)) (p : Page) : Page :=
  (found.filterMap id).foldl (fun p b => (b.body (p.line b.header).deeper).shallower) p

/-- Branches of a block whose statements are being written: each steps out for its header. -/
def innerBranches (found : List (Option Branch)) (p : Page) : Page :=
  (found.filterMap id).foldl (fun p b => b.body (p.shallower.line b.header).deeper) p

def statement : Kind Written → Page → Page
  | .script body, p => writeAll body p
  | .comment text, p => p.line (";" ++ text)
  | .command _ text, p => p.line ("(excmd \"" ++ escapeText text ++ "\")")
  | .function _ name params defaults _ body _, p =>
    block body (p.line ("(function (" ++ functionHeader name params defaults ++ ")"))
  | .operand verb _ value, p => p.line ("(" ++ verb.name ++ " " ++ value.inline ++ ")")
  | .returnValue _ none, p => p.line "(return)"
  | .returnValue _ (some value), p => p.line ("(return " ++ value.inline ++ ")")
  | .assign verb _ op single items rest value, p =>
    p.line ("(" ++ verb.name ++ " " ++ op ++ " " ++ targets single items rest ++ " " ++ value.inline ++ ")")
  | .unlet _ items, p => p.line ("(unlet " ++ join items ++ ")")
  | .lock verb _ none items, p => p.line ("(" ++ verb.name ++ " " ++ join items ++ ")")
  | .lock verb _ (some depth) items, p =>
    p.line ("(" ++ verb.name ++ " " ++ toString depth ++ " " ++ join items ++ ")")
  | .ifBlock _ cond body elseIfs otherwise _, p =>
    let p := (writeAll body (p.line ("(if " ++ cond.inline)).deeper).shallower
    let p := branches (elseIfs.map Written.elseIf) p
    (branches [otherwise.bind Written.otherwise] p).close
  | .whileLoop _ cond body _, p => block body (p.line ("(while " ++ cond.inline))
  | .forLoop _ single items rest values body _, p =>
    block body (p.line ("(for " ++ targets single items rest ++ " " ++ values.inline))
  | .jump verb _, p => p.line ("(" ++ verb.name ++ ")")
  | .tryBlock _ body catches final _, p =>
    let p := writeAll body (p.line "(try").deeper
    let p := innerBranches (catches.map Written.catching) p
    (innerBranches [final.bind Written.final] p).close.shallower
  | .echo verb _ values, p => p.line ("(" ++ verb.name ++ " " ++ join values ++ ")")
  | .echoHl _ text, p => p.line ("(echohl \"" ++ escapeText text ++ "\")")
  | .closer _ _, p | .elseIf _ _ _, p | .elseBranch _ _, p | .catchBranch _ _ _, p
  | .finallyBranch _ _, p => p
  | kind, p => p.line ((expressionText kind).getD "")

def ofKind (kind : Kind Written) : Written :=
  let write := statement kind
  let plain : Written :=
    { inline := (expressionText kind).getD ("\n".intercalate (write {}).lines)
      write := write }
  match kind with
  | .elseIf _ cond body => { plain with elseIf := some ⟨" elseif " ++ cond.inline, writeAll body⟩ }
  | .elseBranch _ body => { plain with otherwise := some ⟨" else", writeAll body⟩ }
  | .catchBranch _ pattern body =>
    let header :=
      match pattern with
      | some text => " catch /" ++ text ++ "/"
      | none => " catch"
    { plain with catching := some ⟨header, writeAll body⟩ }
  | .finallyBranch _ body => { plain with final := some ⟨" finally", writeAll body⟩ }
  | _ => plain

def ofNode : Node → Written :=
  Node.fold fun _ kind => ofKind kind

end Fingerprint

namespace Node

/-- A node on one line; the lines of a statement are joined. -/
def inlineText (n : Node) : String :=
  (Fingerprint.ofNode n).inline

/-- The lines of a statement or a script. -/
def fingerprint (n : Node) : List String :=
  ((Fingerprint.ofNode n).write {}).lines

end Node

end VimScript
