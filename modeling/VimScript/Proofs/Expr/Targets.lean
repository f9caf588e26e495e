import VimScript.Proofs.Expr.Delivers
import VimScript.Proofs.Expr.Shape
import VimScript.Proofs.Overlap.Assignment
import VimScript.Proofs.Scan.Gives
import VimScript.Proofs.Script.Initials
import VimScript.Proofs.Statement.Operands
import VimScript.Proofs.Tree.Fold

/-!
Targets as expressions. The reader of targets and that of expressions go the same way as long as only names, brackets
and dots are met. The reader of expressions may go on from there, but only to a later cursor, so where both end at one
cursor they have read the same tree.
-/

set_option autoImplicit false

namespace VimScript

open Scan Overlap

variable {s : Source} {i j k : Nat} {n m : Node} {token : Token}

theorem Token.next_bounds (bound : i ≤ s.size) (run : next s i = .ok token j) : i ≤ j ∧ j ≤ s.size := by
  obtain ⟨_, -, -, -, -, -, bound', later, -⟩ := (next_follows (inside_whole bound)).of_whole run
  exact ⟨later, length_whole s ▸ bound'⟩

/-- What can be assigned to: a name, an option, a variable of the environment or a register, below any number of
subscripts, slices and members. -/
inductive Node.IsTarget : Node → Prop where
  | leaf {sort : Leaf} {text : String} {position : Position}
      (named : sort ∈ ([.identifier, .option, .env, .register] : List Leaf)) : IsTarget (.leaf sort text position)
  | curlyName {parts : List Node} {position : Position} : IsTarget (.mk position (.curlyName parts))
  | subscript {left index : Node} {position : Position} (inner : IsTarget left) :
      IsTarget (.mk position (.subscript left index))
  | slice {left : Node} {lower upper : Option Node} {position : Position} (inner : IsTarget left) :
      IsTarget (.mk position (.slice left lower upper))
  | dot {left name : Node} {position : Position} (inner : IsTarget left) : IsTarget (.mk position (.dot left name))

namespace Expr

variable {expr operand reader : Scan Node}

/-! ### Readers that move on -/

/-- A reader that moves on and stays inside the buffer. -/
def Moves (s : Source) (x : Scan Node) : Prop :=
  ∀ i, i ≤ s.size → x.Gives s i fun _ j => i < j ∧ j ≤ s.size

/-- Whatever is read starts with an operand. It is the operand itself unless more was read. -/
def BuildsOn (s : Source) (operand reader : Scan Node) : Prop :=
  ∀ i, i ≤ s.size → reader.Gives s i fun n k =>
    ∃ first j, operand s i = .ok first j ∧ i < j ∧ j ≤ k ∧ k ≤ s.size ∧ (j = k → n = first)

theorem moves_of_reads (reads : (whole s).Reads 0 expr expr) : Moves s expr := by
  intro i bound n j run
  obtain ⟨m, -, -, inside, more⟩ := (reads i (Nat.zero_le i) (inside_whole bound)).of_whole run
  exact ⟨more, length_whole s ▸ inside.le⟩

theorem moves_read (s : Source) : Moves s read :=
  moves_of_reads (reads (whole s) 0)

theorem BuildsOn.moves (h : BuildsOn s operand reader) : Moves s reader := by
  intro i bound n k run
  obtain ⟨first, j, -, more, later, inside, -⟩ := h i bound n k run
  exact ⟨by omega, inside⟩

theorem BuildsOn.trans {middle : Scan Node} (inner : BuildsOn s operand middle) (outer : BuildsOn s middle reader) :
    BuildsOn s operand reader := by
  intro i bound n k run
  obtain ⟨m, j, run', -, later, inside, same⟩ := outer i bound n k run
  obtain ⟨first, j', run'', more, later', -, same'⟩ := inner i bound m j run'
  refine ⟨first, j', run'', more, by omega, inside, fun last => ?_⟩
  rw [same (by omega), same' (by omega)]

theorem chain_buildsOn (operator : TokenKind → Option BinaryOp) (moves : Moves s operand) :
    BuildsOn s operand (chain operator operand) := by
  intro i bound
  refine .step fun first j run => ?_
  obtain ⟨more, inside⟩ := moves i bound first j run
  -- As long as no operator has been found the cursor is still behind the first operand.
  refine .loop (fun left k => j ≤ k ∧ k ≤ s.size ∧ (j = k → left = first)) ⟨Nat.le_refl j, inside, fun _ => rfl⟩ ?_
  rintro left k ⟨later, inside', same⟩
  refine .after (tell_apply s k) (.step fun token k' next => ?_)
  split
  · refine .step fun right m run' => .pure ?_
    obtain ⟨later', inside''⟩ := Token.next_bounds inside' next
    obtain ⟨more', bound'⟩ := moves k' inside'' right m run'
    exact ⟨by omega, bound', fun last => by omega⟩
  · exact .after (seek_apply k s k') (.pure ⟨first, j, run, more, later, inside', same⟩)

theorem comparison_buildsOn (moves : Moves s operand) : BuildsOn s operand (comparison operand) := by
  intro i bound
  refine .step fun first j run => .after (tell_apply s j) (.step fun token k next => ?_)
  obtain ⟨more, inside⟩ := moves i bound first j run
  split
  · refine .step fun right m run' => .pure ?_
    obtain ⟨later, inside'⟩ := Token.next_bounds inside next
    obtain ⟨more', bound'⟩ := moves k inside' right m run'
    exact ⟨first, j, run, more, by omega, bound', fun last => by omega⟩
  · exact .after (seek_apply j s k) (.pure ⟨first, j, run, more, Nat.le_refl j, inside, fun _ => rfl⟩)

theorem ternary_buildsOn (inner : Moves s expr) (moves : Moves s operand) :
    BuildsOn s operand (ternary expr operand) := by
  intro i bound
  refine .step fun first j run => .after (tell_apply s j) (.step fun token k next => ?_)
  obtain ⟨more, inside⟩ := moves i bound first j run
  refine .ite (fun _ => ?_) fun _ => ?_
  · obtain ⟨later, inside'⟩ := Token.next_bounds inside next
    refine .step fun yes k' run' => .step fun colon m next' => .ite (fun _ => .stop .fail) fun _ => ?_
    obtain ⟨more', bound'⟩ := inner k inside' yes k' run'
    obtain ⟨later', bound''⟩ := Token.next_bounds bound' next'
    refine .step fun no m' run'' => .pure ?_
    obtain ⟨more'', inside''⟩ := inner m bound'' no m' run''
    exact ⟨first, j, run, more, by omega, inside'', fun last => by omega⟩
  · exact .after (seek_apply j s k) (.pure ⟨first, j, run, more, Nat.le_refl j, inside, fun _ => rfl⟩)

theorem prefixed_moves (moves : Moves s operand) : Moves s (prefixed operand) := by
  intro i bound
  refine .bind (q := fun _ j => i ≤ j ∧ j ≤ s.size) ?_ fun ops j ⟨later, inside⟩ => ?_
  · refine .loop (fun _ j => i ≤ j ∧ j ≤ s.size) ⟨Nat.le_refl i, bound⟩ ?_
    rintro ops j ⟨later, inside⟩
    refine .after (tell_apply s j) (.step fun token k next => ?_)
    split
    · obtain ⟨later', inside'⟩ := Token.next_bounds inside next
      exact .pure ⟨by omega, inside'⟩
    · exact .after (seek_apply j s k) (.pure ⟨later, inside⟩)
  · refine .step fun value k run => .pure ?_
    obtain ⟨more, inside'⟩ := moves j inside value k run
    exact ⟨by omega, inside'⟩

/-- Without an operator before it an operand is read alone. -/
theorem operand_of_prefixed (next : Token.next s i = .ok token j) (plain : token.kind.unary? = none)
    (run : prefixed operand s i = .ok n k) : operand s i = .ok n k := by
  rw [prefixed_eq, bind_of_ok (signs_of_none next plain)] at run
  obtain ⟨value, k', run', last⟩ := bind_ok.mp run
  obtain ⟨rfl, rfl⟩ := Reply.ok.inj last
  exact run'

/-! ### All levels -/

theorem reads_nested (s : Source) : (whole s).Reads 1 (nested s.size) read := by
  intro p more inside
  have size : (whole s).text.length = s.size := length_whole s
  have bound := inside.le
  have follows := nested_follows s.size (s.size + 1) inside (by omega) (by omega)
  unfold Follows at follows ⊢
  exact follows

theorem stops_read (w : Overlap s s) (k : Nat) : Stops w k read read := by
  intro p _ _ _ _ _ ended
  have stops : w.Follows p (level (nested s.size)) (level (nested s.size)) fun _ _ _ => False := level_stops ended
  unfold Follows at stops ⊢
  exact stops

theorem stops_nested (s : Source) : Stops (whole s) 1 (nested s.size) read := by
  intro p value a b q more ended
  have size : (whole s).text.length = s.size := length_whole s
  have moved := ended.more (by simp)
  have bound := ended.bound
  obtain ⟨d, deep⟩ : ∃ d, s.size = d + 1 := ⟨s.size - 1, by omega⟩
  have stops : (whole s).Follows p (level (nested d)) (level (nested s.size)) fun _ _ _ => False := level_stops ended
  unfold Follows at stops ⊢
  rw [deep] at stops ⊢
  rw [read, deep]
  exact stops

/-- The depth to which expressions are nested never runs out. -/
theorem read_eq_level (bound : i ≤ s.size) : read s i = level read s i := by
  have later : 1 ≤ i + 1 := Nat.le_add_left 1 i
  -- What is nested starts at a later cursor, where one level less is enough.
  have levels := level_follows ((reads_nested s).from later)
    (fun p value a b q more => stops_nested s p value a b q (by omega)) (inside_whole bound)
  apply Follows.eq_of_whole (x := level (nested s.size)) (y := level read)
  apply levels.mono
  rintro n m q ⟨alike, -⟩
  have same : n.seen ⟨id, id⟩ = m.seen ⟨id, id⟩ := alike
  rwa [Node.seen_id, Node.seen_id] at same

theorem reads_primary (w : Overlap s s) (k : Nat) : w.Reads k (primary read) (primary read) :=
  fun p _ inside => primary_follows (reads w (p + 1)) (stops_read w (p + 1)) inside

theorem moves_operand (s : Source) : Moves s (postfixed read (primary read)) :=
  moves_of_reads fun p _ inside => postfixed_follows (reads (whole s) (p + 1)) (reads_primary (whole s) p) inside

theorem level_buildsOn (s : Source) : BuildsOn s (prefixed (postfixed read (primary read))) (level read) := by
  have product := chain_buildsOn TokenKind.multiplicative? (prefixed_moves (moves_operand s))
  have sum := product.trans (chain_buildsOn TokenKind.additive? product.moves)
  have test := sum.trans (comparison_buildsOn sum.moves)
  have conjunction := test.trans (chain_buildsOn TokenKind.conjunction? test.moves)
  have disjunction := conjunction.trans (chain_buildsOn TokenKind.disjunction? conjunction.moves)
  exact disjunction.trans (ternary_buildsOn (moves_read s) disjunction.moves)

/-- One turn goes on from a later cursor, or it stops no earlier. -/
theorem postfixTurn_gives {left : Node} (bound : i ≤ s.size) :
    (postfixTurn read (primary read) left).Gives s i
      (Turn.Goes (fun _ j => i < j ∧ j ≤ s.size) fun _ j => i ≤ j ∧ j ≤ s.size) := by
  intro turn j run
  have size : (whole s).text.length = s.size := length_whole s
  have alike : (whole s).Alike left left := rfl
  obtain ⟨turn', -, met⟩ := (postfixTurn_follows (reads (whole s) (i + 1)) (reads_primary (whole s) (i + 1))
    (inside_whole bound) alike).of_whole run
  cases turn <;> cases turn' <;> simp only [Turned] at met
  case again.again => exact ⟨met.1, size ▸ met.2.1⟩
  case done.done => exact ⟨met.2.2, size ▸ met.2.1.le⟩

theorem le_of_postfixTurns {fuel : Nat} {left : Node} (bound : i ≤ s.size)
    (run : repeatUpTo (postfixTurn read (primary read)) fuel left s i = .ok n j) : i ≤ j := by
  obtain ⟨last, k, ⟨later, inside⟩, stops⟩ :=
    repeatUpTo_ok_of_invariant (s := s) (fun _ k => i ≤ k ∧ k ≤ s.size)
      (fun left k next k' ⟨later, inside⟩ goes => by
        obtain ⟨more, inside'⟩ := (postfixTurn_gives inside).of_ok goes
        exact ⟨by omega, inside'⟩)
      fuel left i n j ⟨Nat.le_refl i, bound⟩ run
  have later' := ((postfixTurn_gives inside).of_ok stops).1
  omega

end Expr

namespace Target

open VimScript.Expr

/-- What is read after a target in one turn. -/
def turn (left : Node) : Scan (Turn Node Node) := do
  let start ← Scan.tell
  let adjacent := !CharClass.white.hasOpt (← Scan.peek)
  let token ← Token.next
  part left start token adjacent

theorem read_eq_turns : read = base >>= fun first => Scan.loop first turn := read_eq

/-- A target stops where an operand would be called; else both go the same way. -/
theorem turn_cases (left : Node) (s : Source) (i : Nat) :
    turn left s i = postfixTurn Expr.read (primary Expr.read) left s i ∨
      turn left s i = .ok (.done left) i ∧
        ∀ last j, postfixTurn Expr.read (primary Expr.read) left s i ≠ .ok (.done last) j := by
  simp only [turn, part, postfixTurn, postfixPart, bind_of_ok (tell_apply s i),
    bind_of_ok (peek_of_ahead (s := s) (i := i) rfl)]
  cases run : Token.next s i with
  | ok token j =>
    simp only [bind_of_ok run]
    obtain ⟨kind, value, position⟩ := token
    generalize (!CharClass.white.hasOpt (s.ahead i).head?) = adjacent
    cases kind
    case arrow =>
      refine .inr ⟨rfl, fun last k run => ?_⟩
      obtain ⟨_, _, -, goes⟩ := bind_ok.mp run
      cases goes
    case parenOpen =>
      refine .inr ⟨rfl, fun last k run => ?_⟩
      obtain ⟨_, _, -, goes⟩ := bind_ok.mp run
      cases goes
    all_goals cases adjacent <;> exact .inl rfl
  | fail e j => exact .inl (by rw [bind_apply, bind_apply, run])
  | spent => exact .inl (by rw [bind_apply, bind_apply, run])

/-- From one operand on, what ends at the same cursor is the same tree. -/
theorem turns_agree {fuel : Nat} {left : Node} (bound : i ≤ s.size) (target : repeatUpTo turn fuel left s i = .ok n j)
    (operand : repeatUpTo (postfixTurn Expr.read (primary Expr.read)) fuel left s i = .ok m k) :
    j ≤ k ∧ (j = k → m = n) := by
  -- The loops share their fuel and what was read so far, until the target stops and the operand goes on.
  induction fuel generalizing left i with
  | zero => cases target
  | succ fuel ih =>
    simp only [repeatUpTo] at target operand
    cases run : postfixTurn Expr.read (primary Expr.read) left s i with
    | ok goes i' =>
      have moved := (postfixTurn_gives bound).of_ok run
      rw [run] at operand
      rcases turn_cases left s i with same | ⟨stops, further⟩
      · rw [same, run] at target
        cases goes with
        | again next => exact ih moved.2 target operand
        | done last =>
          obtain ⟨rfl, rfl⟩ := Reply.ok.inj target
          obtain ⟨rfl, rfl⟩ := Reply.ok.inj operand
          exact ⟨Nat.le_refl i', fun _ => rfl⟩
      · rw [stops] at target
        obtain ⟨rfl, rfl⟩ := Reply.ok.inj target
        cases goes with
        | again next =>
          have later := le_of_postfixTurns moved.2 operand
          have more := moved.1
          exact ⟨by omega, fun last => by omega⟩
        | done last => exact absurd run (further last i')
    | fail e i' =>
      rw [run] at operand
      cases operand
    | spent =>
      rw [run] at operand
      cases operand

/-! ### What a target starts with -/

/-- No brace is the first character that is not blank. -/
theorem kind_ne_braceOpen (noBrace : ((s.ahead i).dropWhile CharClass.white.has).head? ≠ some '\x7b')
    (next : Token.next s i = .ok token j) : token.kind ≠ .braceOpen := by
  intro brace
  obtain ⟨ws, k, before, blanks, solid, taken⟩ := Token.gives_next s i token j next
  cases taken with
  | eof | eol => cases brace
  | @lexeme kind xs _ spans spelled =>
    obtain rfl : kind = .braceOpen := brace
    -- Only one operator gives the token, and its character is the one that was ruled out.
    have table : ∀ form ∈ Token.operators, form.2 = .braceOpen → form.1 = "\x7b" := by decide
    have text := table _ (spelled.mem_operators (by decide)) rfl
    obtain rfl : xs = ['\x7b'] := by simpa using congrArg String.toList text
    rw [before.ahead, List.dropWhile_append_of_pos blanks, spans.ahead] at noBrace
    exact noBrace rfl

theorem primary_of_base (noBrace : ((s.ahead i).dropWhile CharClass.white.has).head? ≠ some '\x7b')
    (run : base s i = .ok n j) :
    primary Expr.read s i = .ok n j ∧ ∃ token k, Token.next s i = .ok token k ∧ token.kind.unary? = none := by
  rw [base, bind_of_ok (tell_apply s i)] at run
  obtain ⟨token, k, next, run⟩ := bind_ok.mp run
  have other := kind_ne_braceOpen noBrace next
  rw [primary, bind_of_ok (tell_apply s i), bind_of_ok next]
  obtain ⟨kind, value, position⟩ := token
  cases kind
  case braceOpen => exact absurd rfl other
  case option | env | register | identifier => exact ⟨run, _, k, next, rfl⟩
  case compare test mode =>
    cases test <;> cases mode
    case smaller.byOption => exact ⟨run, _, k, next, rfl⟩
    all_goals cases run
  all_goals cases run

theorem nameOfParts_isTarget (position : Position) (parts : List Node) : (nameOfParts position parts).IsTarget := by
  unfold nameOfParts
  split
  · exact .leaf (by simp)
  · exact .curlyName

theorem base_isTarget : base.Delivers Node.IsTarget fun _ => True := by
  have name : (name Expr.read).Delivers Node.IsTarget fun _ => True :=
    .past fun _ => .past fun position => .past fun parts => .pure (nameOfParts_isTarget position parts)
  refine .past fun start => .past fun token => ?_
  split
  case h_1 | h_2 | h_3 => exact .pure (.leaf (by simp))
  case h_4 | h_5 => exact .past fun _ => name
  · exact .past fun found => .ite (fun _ => .past fun _ => name) fun _ => .fail trivial _
  · exact .fail trivial _

/-! ### What follows it -/

theorem index_isTarget {left : Node} (position : Position) (inner : left.IsTarget) :
    (index Expr.read left position).Delivers Node.IsTarget fun _ => True := by
  refine .past fun lower => .past fun colon => ?_
  dsimp only
  split
  · exact .past fun close => .ite (fun _ => .stop (.fail trivial _)) fun _ => .pure (.subscript inner)
  · exact .past fun _ => .past fun upper => .past fun close => .ite (fun _ => .stop (.fail trivial _)) fun _ =>
      .pure (.slice inner)

theorem member_isTarget {left : Node} (position : Position) (inner : left.IsTarget) :
    (member left position).Delivers (fun found => ∀ n ∈ found, n.IsTarget) fun _ => True := by
  refine .past fun c => .ite (fun _ => ?_) fun _ => .pure (by simp)
  refine .past fun place => .past fun name => .past fun d => .ite (fun _ => .pure (by simp)) fun _ => .pure ?_
  rintro _ ⟨⟩
  exact .dot inner

theorem read_isTarget : read.Delivers Node.IsTarget fun _ => True := by
  refine base_isTarget.bind fun first known => .loop Node.IsTarget known fun left known => ?_
  refine .past fun start => .past fun c => .past fun token => ?_
  split
  · exact (index_isTarget _ known).bind fun node found => .pure found
  · refine (member_isTarget _ known).bind fun found members => ?_
    cases found with
    | none => exact .past fun _ => .pure known
    | some node => exact .pure (members node rfl)
  · exact .past fun _ => .pure known

/-! ### The agreement -/

/-- Where both readers end at one cursor they have read the same tree. -/
theorem eq_of_reads (noBrace : ((s.ahead i).dropWhile CharClass.white.has).head? ≠ some '\x7b')
    (target : read s i = .ok n j) (expr : Expr.read s i = .ok m j) : n = m := by
  rw [read_eq_turns] at target
  obtain ⟨first, k, start, target⟩ := bind_ok.mp target
  obtain ⟨operand, token, k', next, plain⟩ := primary_of_base noBrace start
  have bound : i ≤ s.size := by
    by_contra outside
    have empty : s.ahead i = [] := by
      rw [← List.length_eq_zero_iff, s.length_ahead]
      omega
    rw [base, bind_of_ok (tell_apply s i), bind_of_ok (Token.next_of_empty empty)] at start
    cases start
  -- The expression starts with an operand that ends no earlier than the target.
  rw [read_eq_level bound] at expr
  obtain ⟨inner, k'', run, -, later, -, same⟩ := level_buildsOn s i bound m j expr
  replace run := operand_of_prefixed next plain run
  rw [postfixed_eq, bind_of_ok operand] at run
  have inside : k ≤ s.size := (moves_of_reads (reads_primary (whole s) 0) i bound first k operand).2
  obtain ⟨later', agree⟩ := turns_agree inside target run
  obtain rfl : j = k'' := by omega
  rw [same rfl, agree rfl]

/-- The two readers agree, and what the reader of targets gives can be assigned to. -/
theorem read_agrees (s : Source) (i : Nat) :
    (((s.ahead i).dropWhile CharClass.white.has).head? ≠ some '\x7b' →
        ∀ n m j, read s i = .ok n j → Expr.read s i = .ok m j → n = m) ∧
      ∀ n j, read s i = .ok n j → n.IsTarget :=
  ⟨fun noBrace _ _ _ target expr => eq_of_reads noBrace target expr, fun _ _ run => read_isTarget.of_ok run⟩

/-- Where a value is assigned both stop before the operator. -/
theorem read_agrees_nested :
    (((Source.ofLines ["let  a\x7bb\x7dc[2:][d(1)].e = 3"]).ahead 3).dropWhile CharClass.white.has).head? ≠
        some '\x7b' ∧
      ∃ n m j, read (.ofLines ["let  a\x7bb\x7dc[2:][d(1)].e = 3"]) 3 = .ok n j ∧
        Expr.read (.ofLines ["let  a\x7bb\x7dc[2:][d(1)].e = 3"]) 3 = .ok m j ∧ n = m ∧ n.IsTarget := by
  have noBrace : (((Source.ofLines ["let  a\x7bb\x7dc[2:][d(1)].e = 3"]).ahead 3).dropWhile CharClass.white.has).head? ≠
      some '\x7b' := by decide +kernel
  have target : (read >>= fun _ => tell) (.ofLines ["let  a\x7bb\x7dc[2:][d(1)].e = 3"]) 3 = .ok 22 22 := by
    rw [Source.ofLines_eq_ofChars]
    decide +kernel
  have expr : (Expr.read >>= fun _ => tell) (.ofLines ["let  a\x7bb\x7dc[2:][d(1)].e = 3"]) 3 = .ok 22 22 := by
    rw [Source.ofLines_eq_ofChars]
    decide +kernel
  obtain ⟨n, j, target, here⟩ := bind_ok.mp target
  obtain ⟨m, k, expr, there⟩ := bind_ok.mp expr
  obtain ⟨-, rfl⟩ := Reply.ok.inj here
  obtain ⟨-, rfl⟩ := Reply.ok.inj there
  obtain ⟨agree, isTarget⟩ := read_agrees (.ofLines ["let  a\x7bb\x7dc[2:][d(1)].e = 3"]) 3
  exact ⟨noBrace, n, m, 22, target, expr, agree noBrace n m 22 target expr, isTarget n 22 target⟩

end Target

end VimScript
