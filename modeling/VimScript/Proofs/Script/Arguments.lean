import Mathlib.Data.List.Nodup
import VimScript.Proofs.Expr.Arguments
import VimScript.Proofs.Expr.RoundTrip
import VimScript.Proofs.Script.WellFormed

/-!
The number of arguments in whole trees. No call in a tree that was read has more than the limit, at any depth. The
parameters of lambdas are not counted.
-/

set_option autoImplicit false

namespace VimScript

open Node

/-! ### Calls -/

theorem Node.BuiltOf.callsWithin {n : Node} {limit : Nat} (h : n.BuiltOf (CallsWithin limit)) :
    n.CallsWithin limit := by
  induction h with
  | @intro n type children ih =>
    -- A statement is no call itself, so the limit is a matter of what is below it.
    refine .intro (fun callee args call => ?_) fun c below => ?_
    · simp [Node.type, call, Kind.nodeType, NodeType.isExpression] at type
    · by_cases known : c.CallsWithin limit
      · exact known
      · exact ih c below known

theorem Statement.reads_callsWithin (s : Source) : Reads (CallsWithin Expr.maxArguments) s where
  expression _ _ _ run := Expr.read_limits.of_ok run
  target _ _ _ run := Target.read_limits.of_ok run
  parameter _ _ _ _ _ := callsWithin_leaf _ _
  heredoc inv i := (heredoc_isHeredoc inv s i).mono fun found _ known => by
    obtain ⟨_, _, _, _, same, -⟩ := known
    rw [same]
    exact .intro nofun nofun

theorem Parsed.callsWithin {s : Source} {root : Node} (parsed : Parsed s root) :
    root.CallsWithin Expr.maxArguments := by
  cases parsed with
  | expression ok => exact Expr.read_limits.of_ok ok
  | target ok => exact Target.read_limits.of_ok ok
  | script ok => exact (Script.readWith_built (Statement.reads_callsWithin s) ok).callsWithin

/-! ### Calls and lambdas of every length -/

namespace Expr

/-- A name for each number. -/
def numbered (n : Nat) : Node :=
  .identifier (String.ofList (List.replicate (n + 1) 'a')) .unset

@[simp] theorem leafText?_numbered (n : Nat) :
    (numbered n).leafText? = some (String.ofList (List.replicate (n + 1) 'a')) :=
  rfl

theorem isName_replicate (n : Nat) : Token.IsName (List.replicate (n + 1) 'a') where
  head := by rw [List.replicate_succ]; rfl
  word := by
    intro x place
    rw [List.eq_of_mem_replicate place]
    decide
  is := by simp [List.replicate_succ]
  isNot := by simp [List.replicate_succ]

theorem parameters_numbered (n : Nat) : Node.Parameters ((List.range n).map numbered) where
  names := by
    intro param place
    obtain ⟨k, -, rfl⟩ := List.mem_map.mp place
    exact ⟨_, _, rfl, .inl (by simpa using isName_replicate k)⟩
  distinct := by
    rw [List.map_map]
    refine List.Nodup.map (fun a b same => ?_) List.nodup_range
    have texts := congrArg (Option.map fun text => text.toList.length) same
    simpa using texts
  last := by
    intro param place dots
    obtain ⟨k, -, rfl⟩ := List.mem_map.mp (List.dropLast_subset _ place)
    have texts := congrArg (Option.map String.toList) dots
    simp [List.replicate_succ] at texts

theorem printable_numbered (n : Nat) : (numbered n).Printable :=
  .name (by simpa using isName_replicate n)

/-- A call can have any number of arguments within the limit. -/
theorem exists_call (n : Nat) (few : n ≤ maxArguments) :
    ∃ line root j callee args, ofLine line = .ok root j ∧ root.kind = .call callee args ∧ args.length = n := by
  let sample : Node := .mk .unset (.call (numbered 0) ((List.range n).map numbered))
  have all : ∀ arg ∈ (List.range n).map numbered, arg.Printable := by
    intro arg place
    obtain ⟨k, -, rfl⟩ := List.mem_map.mp place
    exact printable_numbered k
  have printable : sample.Printable := .call (printable_numbered 0) all (by simpa using few)
  obtain ⟨⟨position, kind⟩, j, ok, same, -⟩ := ofLine_print .one printable
  simp only [sample, bare_mk, mk.injEq, true_and] at same
  cases kind <;> simp only [Kind.map, reduceCtorEq, Kind.call.injEq] at same
  case call callee args =>
    have lengths := congrArg List.length same.2
    exact ⟨_, _, j, callee, args, ok, rfl, by simpa using lengths⟩

/-- A lambda can have any number of parameters. -/
theorem exists_lambda (n : Nat) :
    ∃ line root j params body, ofLine line = .ok root j ∧ root.kind = .lambda params body ∧ params.length = n := by
  let sample : Node := .mk .unset (.lambda ((List.range n).map numbered) (numbered 0))
  have printable : sample.Printable := .lambda (parameters_numbered n) (printable_numbered 0)
  obtain ⟨⟨position, kind⟩, j, ok, same, -⟩ := ofLine_print .one printable
  simp only [sample, bare_mk, mk.injEq, true_and] at same
  cases kind <;> simp only [Kind.map, reduceCtorEq, Kind.lambda.injEq] at same
  case lambda params body =>
    have lengths := congrArg List.length same.1
    exact ⟨_, _, j, params, body, ok, rfl, by simpa using lengths⟩

end Expr

/-! ### The limit -/

namespace Parsed

/-- Whether a node is a call with so many arguments. -/
def hasArguments (count : Nat) (n : Node) : Bool :=
  match n.kind with
  | .call _ args => args.length == count
  | _ => false

theorem occurs_of_passes {r : Reply Node} {count : Nat} (h : r.passes (·.children.any (hasArguments count)) = true) :
    ∃ root j n callee args, r = .ok root j ∧ root.Occurs [root] n ∧ n.kind = .call callee args ∧
      args.length = count := by
  obtain ⟨root, j, ok, found⟩ := Reply.exists_of_passes _ h
  obtain ⟨n, below, counted⟩ := List.any_eq_true.mp found
  unfold hasArguments at counted
  split at counted
  · exact ⟨root, j, n, _, _, ok, .child .root below, by assumption, eq_of_beq counted⟩
  · cases counted

/-- The limit holds for the calls of all trees: an expression with a call of more arguments is refused, and up to the
limit there are calls of every length. It does not hold for lambdas. -/
theorem arguments_limited (s : Source) :
    (∀ root above n callee args, Parsed s root → root.Occurs above n → n.kind = .call callee args →
      args.length ≤ Expr.maxArguments) ∧
    (∀ i root j above n callee args, Expr.readWith Expr.anyArguments s i = .ok root j → root.Occurs above n →
      n.kind = .call callee args → Expr.maxArguments < args.length →
      ∃ position k, Expr.read s i = .fail ⟨.tooManyArguments, position⟩ k) ∧
    (∀ count ≤ Expr.maxArguments, ∃ line root j callee args, Expr.ofLine line = .ok root j ∧
      root.kind = .call callee args ∧ args.length = count) ∧
    ∀ count, ∃ line root j params body, Expr.ofLine line = .ok root j ∧ root.kind = .lambda params body ∧
      params.length = count := by
  refine ⟨?_, ?_, Expr.exists_call, Expr.exists_lambda⟩
  · intro root above n callee args parsed place call
    exact (place.callsWithin parsed.callsWithin).few call
  · intro i root j above n callee args ok place call many
    -- Were it not refused, the limited reader would give the very tree with the long call in it.
    obtain refused | ⟨same, known⟩ := Expr.read_limits s i
    · exact refused
    · have few := (place.callsWithin (known root j (same.trans ok))).few call
      omega

/-- The method is within the limit; the call in the second line has an argument too many, and a comma at the end. -/
theorem arguments_limited_method :
    let s : Source :=
      .ofLines ["x->f(y, [1, 2])", "[g(1, 1, 1, 1, 1, 1, 1, 1, 1, 1, 1, 1, 1, 1, 1, 1, 1, 1, 1, 1, 1,)]"]
    (∃ root j n callee args, Expr.read s 0 = .ok root j ∧ root.Occurs [root] n ∧ n.kind = .call callee args ∧
      args.length = 2 ∧ args.length ≤ Expr.maxArguments) ∧
    (∃ root j n callee args, Expr.readWith Expr.anyArguments s 16 = .ok root j ∧ root.Occurs [root] n ∧
      n.kind = .call callee args ∧ args.length = 21 ∧
      ∃ position k, Expr.read s 16 = .fail ⟨.tooManyArguments, position⟩ k) ∧
    ∃ line root j callee args, Expr.ofLine line = .ok root j ∧ root.kind = .call callee args ∧ args.length = 20 := by
  intro s
  obtain ⟨within, refused, taken, -⟩ := arguments_limited s
  have laid : s = .ofChars (List.map charsOf _) := congrFun Source.ofLines_eq_ofChars _
  have two : (Expr.read s 0).passes (·.children.any (hasArguments 2)) = true := by
    rw [laid]
    decide +kernel
  have many : (Expr.readWith Expr.anyArguments s 16).passes (·.children.any (hasArguments 21)) = true := by
    rw [laid]
    decide +kernel
  refine ⟨?_, ?_, taken 20 (by decide)⟩
  · obtain ⟨root, j, n, callee, args, ok, place, call, count⟩ := occurs_of_passes two
    exact ⟨root, j, n, callee, args, ok, place, call, count, within root _ n callee args (.expression ok) place call⟩
  · obtain ⟨root, j, n, callee, args, ok, place, call, count⟩ := occurs_of_passes many
    have more : Expr.maxArguments < args.length := by rw [count]; decide
    exact ⟨root, j, n, callee, args, ok, place, call, count, refused 16 root j _ n callee args ok place call more⟩

/-- The parameters of a lambda are not counted. -/
theorem not_forall_lambda_limited :
    ¬∀ (s : Source) (root n : Node) (above params : List Node) (body : Node), Parsed s root → root.Occurs above n →
      n.kind = .lambda params body → params.length ≤ Expr.maxArguments := by
  intro limited
  let line := "\x7ba,b,c,d,e,f,g,h,i,j,k,l,m,n,o,p,q,r,s,t,u->1\x7d"
  have many : (Expr.ofLine line).passes (fun root => root.type == .lambda && root.children.length == 22) = true := by
    rw [Expr.ofLine, Source.ofLines_eq_ofChars]
    decide +kernel
  obtain ⟨root, j, ok, counted⟩ := Reply.exists_of_passes _ many
  obtain ⟨position, kind⟩ := root
  cases kind <;> simp [Node.type, Kind.nodeType, Node.children, Kind.children] at counted
  case lambda params body =>
    have few := limited _ _ _ [] params body (.expression ok) .root rfl
    exact absurd few (by rw [counted]; decide)

end Parsed

end VimScript
