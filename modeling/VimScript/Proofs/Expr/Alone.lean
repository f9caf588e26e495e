import VimScript.Proofs.Cut.Expression
import VimScript.Proofs.Overlap.Assignment
import VimScript.Proofs.Overlap.Mirror
import VimScript.Proofs.Expr.RoundTrip
import VimScript.Proofs.Expr.Targets

/-!
What is read is decided by the text that it takes. Behind the end of an expression the buffer may be cut off: the tokens
that were looked at and put back do not show. What is left then stands on a line of its own.
-/

set_option autoImplicit false

namespace VimScript

open Scan Overlap

variable {s t : Source} {i j k : Nat} {n : Node}

/-! ### The buffer with line ends from a cursor on -/

namespace Source

/-- From a cursor on there are line ends in place of what the buffer has, and one more. -/
def cutAt (s : Source) (j : Nat) : Source :=
  { s with chars := (s.chars.toList.take j ++ List.replicate (s.size - j + 1) '\n').toArray }

theorem ahead_cutAt (bound : j ≤ s.size) (h : i ≤ j) :
    (s.cutAt j).ahead i = s.between i j ++ List.replicate (s.size - j + 1) '\n' := by
  obtain ⟨n, rfl⟩ := Nat.exists_eq_add_of_le h
  have length : s.chars.toList.length = s.size := Array.length_toList
  rw [between_add, ahead, ahead, cutAt, List.drop_append_of_le_length (by rw [List.length_take]; omega), List.take_drop]

theorem cut_cutAt (bound : j ≤ s.size) (stop : CharClass.name.hasOpt (s.char? j) = false) : s.Cut (s.cutAt j) j where
  bound := bound
  size := by
    have length : s.chars.toList.length = s.size := Array.length_toList
    have whole : (s.cutAt j).size = (s.chars.toList.take j ++ List.replicate (s.size - j + 1) '\n').length := rfl
    rw [whole, List.length_append, List.length_take, List.length_replicate]
    omega
  front i h := by
    rw [ahead_cutAt bound h, ahead_cutAt bound (Nat.le_refl j)]
    simp [between]
  blank := ⟨s.size - j, by
    rw [ahead_cutAt bound (Nat.le_refl j)]
    simp [between]⟩
  places _ := rfl
  stop := by rwa [← char?_eq]

/-- A text within one line of the buffer. -/
theorem newline_notMem_between (h : i ≤ j) (within : j ≤ Statement.lineEnd s i) : '\n' ∉ s.between i j := by
  obtain ⟨n, rfl⟩ := Nat.exists_eq_add_of_le h
  have short : n ≤ (run (fun _ => true) (s.ahead i)).length := by
    rw [Statement.lineEnd] at within
    omega
  have front : (s.ahead i).take n <+: run (fun _ => true) (s.ahead i) := by
    refine List.prefix_of_prefix_length_le (List.take_prefix ..) (List.takeWhile_prefix _) ?_
    exact Nat.le_trans (List.length_take_le n (s.ahead i)) short
  rw [between_add]
  intro place
  have inRun := List.mem_takeWhile_imp (front.subset place)
  simp at inRun

end Source

/-! ### Alone on a line -/

/-- A text that ends a line of the first buffer is shared with that text alone, and is seen there where it stands. -/
theorem exists_alone (cut : s.Cut t j) (order : i ≤ j) :
    ∃ w : Overlap t (.ofLines [s.text i j]), w.left = i ∧ w.right = 0 ∧ w.Inside 0 ∧ w.leftSight = ⟨id, id⟩ ∧
      w.rightSight = .through fun p => s.position (i + p.cursor) := by
  obtain ⟨more, newline⟩ := cut.newline
  have bound := cut.bound
  have size := cut.size
  let text : SharedText t (.ofLines [s.text i j]) :=
    { text := s.between i j ++ ['\n'], left := i, right := 0, leftRest := more, rightRest := [],
      leftAhead := by
        rw [cut.front i order, newline, List.append_assoc]
        rfl
      rightAhead := by rw [Expr.ahead_ofLines, Source.text, String.toList_ofList, List.append_nil]
      leftBound := by omega
      rightBound := Nat.zero_le _
      closed := .inr ⟨s.between i j, rfl⟩ }
  have places (p : Nat) (_ : text.Inside p) :
      t.position (i + p) = s.position (i + ((Source.ofLines [s.text i j]).position (0 + p)).cursor) := by
    rw [cut.places, Source.cursor_position, Nat.zero_add]
  refine ⟨text.seen ⟨id, id⟩ (.through fun p => s.position (i + p.cursor)) places fun _ _ same => same, rfl, rfl, ?_, rfl, rfl⟩
  exact .inl (List.length_pos_of_ne_nil (List.concat_ne_nil _ _))

/-- A reader that does not tell two shared texts apart, and that keeps what it reads before a cut, reads alone what it
reads in a buffer. -/
theorem alone_of_holds {reader : Scan Node} (bound : i ≤ s.size)
    (follows : ∀ {s t : Source} (w : Overlap s t) p, w.Inside p → w.Follows p reader reader (w.Grown p))
    (holds : ∀ {t : Source} (cut : s.Cut t j), cut.Reads reader) (run : reader s i = .ok n j)
    (stop : CharClass.name.hasOpt (s.char? j) = false) :
    '\n' ∉ s.between i j ∧ ∃ m, reader (.ofLines [s.text i j]) 0 = .ok m (s.text i j).length ∧
      m.seen (.through fun p => s.position (i + p.cursor)) = n := by
  obtain ⟨order, within⟩ := stays_of_follows bound
    (fun w start => (follows w 0 start).mono fun _ _ _ grown => grown.2.1) run
  obtain ⟨_, -, -, inside, -⟩ := (follows (whole s) i (inside_whole bound)).of_whole run
  have last : j ≤ s.size := length_whole s ▸ inside.le
  have cut := Source.cut_cutAt last stop
  refine ⟨Source.newline_notMem_between order within, ?_⟩
  -- The end itself is not lost, so the buffer that is cut off gives the same.
  have cutRun : reader (s.cutAt j) i = .ok n j := by
    rcases holds cut i n j run with ⟨-, -, -, same⟩ | lost
    · exact same
    · exact absurd rfl lost.1
  obtain ⟨w, left, right, start, leftSight, rightSight⟩ := exists_alone cut order
  have alone := follows w 0 start
  rw [Follows, left, right, Nat.add_zero, cutRun] at alone
  obtain ⟨m, q, rfl, read, alike, -⟩ := alone
  have length := cut.length_between order
  have whole : 0 + q = (s.text i (i + q)).length := by
    rw [Source.text, String.length_ofList]
    omega
  have seen : n.seen w.leftSight = m.seen w.rightSight := alike
  rw [leftSight, rightSight, Node.seen_id] at seen
  exact ⟨m, whole ▸ read, seen.symm⟩

/-! ### Expressions and targets -/

theorem Expr.lt_size_of_read (run : Expr.read s i = .ok n j) : i < s.size := by
  by_contra past
  have empty : s.ahead i = [] := List.drop_eq_nil_of_le (by
    have length : s.chars.toList.length = s.size := Array.length_toList
    omega)
  have next := Token.next_of_empty empty
  -- Down all levels to the operand: there is none at the end of input.
  have levels : Expr.ternary (Expr.nested s.size) (Expr.disjunction (Expr.nested s.size)) s i = .ok n j := run
  obtain ⟨_, _, disjunction, -⟩ := bind_ok.mp levels
  obtain ⟨_, _, conjunction, -⟩ := bind_ok.mp disjunction
  obtain ⟨_, _, comparison, -⟩ := bind_ok.mp conjunction
  obtain ⟨_, _, sum, -⟩ := bind_ok.mp comparison
  obtain ⟨_, _, product, -⟩ := bind_ok.mp sum
  obtain ⟨_, _, signed, -⟩ := bind_ok.mp product
  obtain ⟨_, _, operand, -⟩ := bind_ok.mp (Expr.operand_of_prefixed next rfl signed)
  rw [Expr.primary, bind_of_ok (tell_apply s i), bind_of_ok next] at operand
  cases operand

theorem Target.lt_size_of_read (run : Target.read s i = .ok n j) : i < s.size := by
  by_contra past
  have empty : s.ahead i = [] := List.drop_eq_nil_of_le (by
    have length : s.chars.toList.length = s.size := Array.length_toList
    omega)
  obtain ⟨_, _, base, -⟩ := bind_ok.mp run
  rw [Target.base, bind_of_ok (tell_apply s i), bind_of_ok (Token.next_of_empty empty)] at base
  cases base

/-- An expression or a target that is not followed by a character of names is decided by the text that it takes: the text
is on one line, and alone it is read to its end as the same tree, with positions that far before. -/
theorem read_alone {reader : Scan Node} (known : reader = Expr.read ∨ reader = Target.read) (run : reader s i = .ok n j)
    (stop : CharClass.name.hasOpt (s.char? j) = false) :
    '\n' ∉ s.between i j ∧ ∃ m, reader (.ofLines [s.text i j]) 0 = .ok m (s.text i j).length ∧
      m.seen (.through fun p => s.position (i + p.cursor)) = n := by
  rcases known with rfl | rfl
  · have bound := Nat.le_of_lt (Expr.lt_size_of_read run)
    exact alone_of_holds bound (fun _ _ => Expr.read_follows) (fun cut => cut.read_holds) run stop
  · have bound := Nat.le_of_lt (Target.lt_size_of_read run)
    exact alone_of_holds bound (fun _ _ => Target.read_follows) (fun cut => cut.target_holds) run stop

/-- Both sides of an assignment, of which the second ends before a bar. -/
theorem read_alone_assignment :
    let s := Source.ofLines ["let  a\x7bb\x7dc[2:][0].e = [0z12, x ? 1.5 : '|'] | echo"]
    (∃ n, Target.read s 3 = .ok n 19 ∧ CharClass.name.hasOpt (s.char? 19) = false ∧
        ∃ m, Target.read (.ofLines [s.text 3 19]) 0 = .ok m (s.text 3 19).length ∧
          m.seen (.through fun p => s.position (3 + p.cursor)) = n) ∧
      ∃ n, Expr.read s 21 = .ok n 43 ∧ CharClass.name.hasOpt (s.char? 43) = false ∧
        ∃ m, Expr.read (.ofLines [s.text 21 43]) 0 = .ok m (s.text 21 43).length ∧
          m.seen (.through fun p => s.position (21 + p.cursor)) = n := by
  intro s
  have laid : s = .ofChars (List.map charsOf _) := congrFun Source.ofLines_eq_ofChars _
  have target : (Target.read >>= fun _ => tell) s 3 = .ok 19 19 := by
    rw [laid]
    decide +kernel
  have expr : (Expr.read >>= fun _ => tell) s 21 = .ok 43 43 := by
    rw [laid]
    decide +kernel
  obtain ⟨n, _, target, here⟩ := bind_ok.mp target
  obtain ⟨m, _, expr, there⟩ := bind_ok.mp expr
  obtain ⟨-, rfl⟩ := Reply.ok.inj here
  obtain ⟨-, rfl⟩ := Reply.ok.inj there
  have behindTarget : CharClass.name.hasOpt (s.char? 19) = false := by decide +kernel
  have behindExpr : CharClass.name.hasOpt (s.char? 43) = false := by decide +kernel
  exact ⟨⟨n, target, behindTarget, (read_alone (.inr rfl) target behindTarget).2⟩,
    m, expr, behindExpr, (read_alone (.inl rfl) expr behindExpr).2⟩

end VimScript
