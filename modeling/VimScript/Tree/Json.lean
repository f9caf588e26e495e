import VimScript.Tree.Fold
import VimScript.Json

/-!
The syntax tree as JSON. A node is one object: its position, its type, then its content field by field; a
missing part is null.
-/

set_option autoImplicit false

namespace VimScript

def Position.toJson (p : Position) : Json :=
  .obj [("cursor", .num p.cursor), ("line", .num p.line), ("column", .num p.column),
    ("offset", .num p.offset)]

def Command.toJson (c : Command) : Json :=
  .obj [("name", .str c.name), ("minlen", .num c.least), ("flags", .str (Flag.join c.flags)),
    ("parser", .str c.form.tag)]

def Modifier.toJson (m : Modifier) : Json :=
  .obj [("name", .str m.name), ("bang", .bool m.bang), ("count", .ofOption .num m.count)]

def BinaryMode.toJson : BinaryMode → Json
  | .bin => .str "Bin"
  | .noBin => .str "NoBin"

namespace Invocation

def toJson (inv : Invocation) : Json :=
  .obj [("forceit", .bool inv.bang), ("append", .bool inv.append), ("usefilter", .bool inv.filter),
    ("amount", .num inv.shift), ("force_bin", .ofOption BinaryMode.toJson inv.binary),
    ("read_edit", .bool inv.readEdit), ("force_ff", .ofOption .str inv.fileFormat),
    ("force_enc", .ofOption .str inv.encoding), ("bad_char", .ofOption .str inv.badChar),
    ("do_ecmd_cmd", .ofOption .str inv.startCommand), ("linepos", inv.linePos.toJson),
    ("cmdpos", inv.commandPos.toJson), ("argpos", inv.argumentPos.toJson),
    ("cmd", .ofOption Command.toJson inv.command),
    ("modifiers", .arr (inv.modifiers.map Modifier.toJson)), ("range", .arr (inv.range.map .str))]

end Invocation

def FunctionFlags.toJson (f : FunctionFlags) : Json :=
  .obj [("range", .bool f.range), ("abort", .bool f.abort), ("dict", .bool f.dict),
    ("closure", .bool f.closure)]

namespace Kind

variable {α : Type}

/-- The name of a content; operators, echoing commands and the names of options share one each. -/
def tag : Kind α → String
  | .binary _ _ _ => "Binary"
  | .unary _ _ => "Unary"
  | .echo _ _ _ => "Echo"
  | .leaf .option _ => "VimOption"
  | k => k.nodeType.tag

def strings (items : List String) : Json :=
  .arr (items.map .str)

/-- The fields of a content whose parts are JSON already. -/
def fields : Kind Json → List (String × Json)
  | .script body => [("body", .arr body)]
  | .comment text => [("text", .str text)]
  | .command inv text => [("ea", inv.toJson), ("text", .str text)]
  | .function inv name params defaults flags body close =>
    [("ea", inv.toJson), ("left", name), ("rlist", .arr params), ("default_args", .arr defaults),
      ("attr", flags.toJson), ("body", .arr body), ("endfunction", .ofOption id close)]
  | .closer _ inv => [("ea", inv.toJson)]
  | .operand _ inv value => [("ea", inv.toJson), ("left", value)]
  | .returnValue inv value => [("ea", inv.toJson), ("left", .ofOption id value)]
  | .assign _ inv op single items rest value =>
    [("ea", inv.toJson), ("op", .str op), ("left", .ofOption id single), ("list", .arr items),
      ("rest", .ofOption id rest), ("right", value)]
  | .unlet inv targets => [("ea", inv.toJson), ("list", .arr targets)]
  | .lock _ inv depth targets =>
    [("ea", inv.toJson), ("depth", .ofOption .num depth), ("list", .arr targets)]
  | .ifBlock inv cond body elseIfs otherwise close =>
    [("ea", inv.toJson), ("cond", cond), ("body", .arr body), ("elseif", .arr elseIfs),
      ("else_", .ofOption id otherwise), ("endif", .ofOption id close)]
  | .elseIf inv cond body => [("ea", inv.toJson), ("cond", cond), ("body", .arr body)]
  | .elseBranch inv body => [("ea", inv.toJson), ("body", .arr body)]
  | .whileLoop inv cond body close =>
    [("ea", inv.toJson), ("cond", cond), ("body", .arr body), ("endwhile", .ofOption id close)]
  | .forLoop inv single items rest values body close =>
    [("ea", inv.toJson), ("left", .ofOption id single), ("list", .arr items),
      ("rest", .ofOption id rest), ("right", values), ("body", .arr body),
      ("endfor", .ofOption id close)]
  | .jump _ inv => [("ea", inv.toJson)]
  | .tryBlock inv body catches final close =>
    [("ea", inv.toJson), ("body", .arr body), ("catch", .arr catches), ("finally", .ofOption id final),
      ("endtry", .ofOption id close)]
  | .catchBranch inv pattern body =>
    [("ea", inv.toJson), ("pattern", .ofOption .str pattern), ("body", .arr body)]
  | .finallyBranch inv body => [("ea", inv.toJson), ("body", .arr body)]
  | .echo verb inv values =>
    [("ea", inv.toJson), ("command", .str (NodeType.echo verb).tag), ("list", .arr values)]
  | .echoHl inv text => [("ea", inv.toJson), ("text", .str text)]
  | .ternary cond yes no => [("cond", cond), ("left", yes), ("right", no)]
  | .binary op left right => [("op", .str (NodeType.binary op).tag), ("left", left), ("right", right)]
  | .unary op value => [("op", .str (NodeType.unary op).tag), ("left", value)]
  | .subscript left index => [("left", left), ("right", index)]
  | .slice left lower upper =>
    [("left", left), ("rlist", .arr [.ofOption id lower, .ofOption id upper])]
  | .method left right => [("left", left), ("right", right)]
  | .call callee args => [("left", callee), ("rlist", .arr args)]
  | .dot left name => [("left", left), ("right", name)]
  | .leaf _ text => [("value", .str text)]
  | .list items => [("value", .arr items)]
  | .dict entries => [("value", .arr (entries.map fun (k, v) => .arr [k, v]))]
  | .curlyName parts => [("value", .arr parts)]
  | .curlyExpr value => [("value", value)]
  | .lambda params body => [("rlist", .arr params), ("left", body)]
  | .heredoc options marker lines =>
    [("rlist", strings options), ("op", .str marker), ("body", strings lines)]

end Kind

def Node.toJson : Node → Json :=
  Node.fold fun position kind =>
    .obj (("pos", position.toJson) :: ("type", .str kind.tag) :: kind.fields)

end VimScript
