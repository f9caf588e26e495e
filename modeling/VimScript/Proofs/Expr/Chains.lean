import VimScript.Proofs.Expr.RoundTrip

/-!
Numbers joined by binary operators. The tree that is read is the one that the precedence of the operators gives, and it
goes as far as no two comparisons meet.
-/

set_option autoImplicit false

namespace VimScript

variable {s : Source} {i j k : Nat} {cs : List Char}

/-! ### Grouping by precedence -/

/-- An operator and its right operand in a chain. -/
structure Joint where
  op : BinaryOp
  position : Position
  operand : Node

/-- The tree of a chain of operands. An operator that is the last of those that bind the least is on top. -/
inductive Groups : Node → List Joint → Node → Prop where
  | operand (n : Node) : Groups n [] n
  | split {n a b : Node} {before after : List Joint} {joint : Joint}
      (loosest : ∀ other ∈ before, other.op.level ≤ joint.op.level)
      (last : ∀ other ∈ after, other.op.level < joint.op.level) (left : Groups n before a)
      (right : Groups joint.operand after b) :
      Groups n (before ++ joint :: after) (.mk joint.position (.binary joint.op a b))

/-- There is one operator that can be on top. -/
theorem top_unique {before after before' after' : List Joint} {joint joint' : Joint}
    (same : before ++ joint :: after = before' ++ joint' :: after')
    (loosest : ∀ other ∈ before, other.op.level ≤ joint.op.level)
    (last : ∀ other ∈ after, other.op.level < joint.op.level)
    (loosest' : ∀ other ∈ before', other.op.level ≤ joint'.op.level)
    (last' : ∀ other ∈ after', other.op.level < joint'.op.level) :
    before = before' ∧ joint = joint' ∧ after = after' := by
  rcases List.append_eq_append_iff.mp same with ⟨between, whole, tail⟩ | ⟨between, whole, tail⟩
  · cases between with
    | nil => simpa [whole] using tail
    | cons first between =>
      obtain ⟨rfl, rfl⟩ : joint = first ∧ after = between ++ joint' :: after' := by simpa using tail
      have later := last joint' (by simp)
      have earlier := loosest' joint (by simp [whole])
      omega
  · cases between with
    | nil => simpa [whole, eq_comm] using tail
    | cons first between =>
      obtain ⟨rfl, rfl⟩ : joint' = first ∧ after' = between ++ joint :: after := by simpa using tail
      have later := last' joint (by simp)
      have earlier := loosest joint' (by simp [whole])
      omega

theorem Groups.unique {n a b : Node} {joints : List Joint} (first : Groups n joints a) (second : Groups n joints b) :
    a = b := by
  induction first generalizing b with
  | operand n =>
    generalize none : ([] : List Joint) = joints at second
    cases second with
    | operand => rfl
    | split => simp at none
  | @split n a a' before after joint loosest last left right ihLeft ihRight =>
    generalize whole : before ++ joint :: after = joints at second
    cases second with
    | operand => simp at whole
    | split loosest' last' left' right' =>
      obtain ⟨rfl, rfl, rfl⟩ := top_unique whole loosest last loosest' last'
      rw [ihLeft left', ihRight right']

/-! ### Chains of comparisons -/

namespace BinaryOp

def isComparison : BinaryOp → Bool
  | .compare _ _ => true
  | _ => false

theorem isComparison_iff (op : BinaryOp) : op.isComparison = true ↔ op.level = 2 := by
  cases op <;> simp [isComparison, level]

theorem level_le_two (op : BinaryOp) : op.level ≤ 2 ↔ op ≠ .and ∧ op ≠ .or := by
  cases op <;> simp [level]

end BinaryOp

/-- Each operand of `&&` and `||` has at most one comparison. -/
def OneComparison (ops : List BinaryOp) : Prop :=
  ∀ part, part <:+: ops → .and ∉ part → .or ∉ part → part.countP BinaryOp.isComparison ≤ 1

variable {op : BinaryOp} {ops others : List BinaryOp}

theorem OneComparison.within (h : OneComparison ops) (inside : others <:+: ops) : OneComparison others :=
  fun part place => h part (place.trans inside)

theorem oneComparison_of_count (h : ops.countP BinaryOp.isComparison ≤ 1) : OneComparison ops :=
  fun _ place _ _ => (place.sublist.countP_le).trans h

theorem count_eq_zero (tight : ∀ op ∈ ops, op.level < 2) : ops.countP BinaryOp.isComparison = 0 := by
  rw [List.countP_eq_zero]
  intro op place
  have level := tight op place
  rw [op.isComparison_iff]
  omega

/-- A part of a list that leaves out a member is on one side of it. -/
theorem infix_of_not_mem {α : Type} {x : α} {part xs ys : List α} (place : part <:+: xs ++ x :: ys) (out : x ∉ part) :
    part <:+: xs ∨ part <:+: ys := by
  induction xs with
  | nil =>
    rcases List.infix_cons_iff.mp place with start | later
    · cases part with
      | nil => exact .inl (List.infix_refl _)
      | cons y part =>
        obtain ⟨rfl, -⟩ := List.cons_prefix_cons.mp start
        simp at out
    · exact .inr later
  | cons z xs ih =>
    rcases List.infix_cons_iff.mp place with start | later
    · rcases List.prefix_or_prefix_of_prefix start (List.prefix_append (z :: xs) (x :: ys)) with within | beyond
      · exact .inl within.isInfix
      · obtain ⟨rest, rfl⟩ := beyond
        cases rest with
        | nil => exact .inl (by simp)
        | cons y rest =>
          have next := (List.prefix_append_right_inj (z :: xs)).mp start
          obtain ⟨rfl, -⟩ := List.cons_prefix_cons.mp next
          simp at out
    · exact (ih later).imp_left fun inside => inside.trans (List.suffix_cons z xs).isInfix

theorem OneComparison.joined (left : OneComparison ops) (right : OneComparison others) (joins : op = .and ∨ op = .or) :
    OneComparison (ops ++ op :: others) := by
  intro part place noAnd noOr
  have out : op ∉ part := by
    rcases joins with rfl | rfl
    · exact noAnd
    · exact noOr
  exact (infix_of_not_mem place out).elim (left part · noAnd noOr) (right part · noAnd noOr)

theorem OneComparison.snoc (one : OneComparison ops) (other : op.isComparison = false) : OneComparison (ops ++ [op]) := by
  intro part place noAnd noOr
  rcases List.infix_concat_iff.mp place with ends | inside
  · rcases List.suffix_concat_iff.mp ends with rfl | ⟨part, rfl, suffix⟩
    · simp
    · rw [List.countP_append, List.countP_singleton, other]
      exact one part suffix.isInfix (by simp_all) (by simp_all)
  · exact one part inside noAnd noOr

/-- A second comparison with no `&&` or `||` after the first is one too many. -/
theorem not_oneComparison {first second : BinaryOp} (begins : first.isComparison = true)
    (tight : ∀ op ∈ ops, op.level < 2) (again : second.isComparison = true) :
    ¬OneComparison (others ++ first :: (ops ++ [second])) := by
  intro one
  have tightAll : ∀ op ∈ first :: (ops ++ [second]), op ≠ .and ∧ op ≠ .or := by
    intro op place
    rw [← op.level_le_two]
    simp only [List.mem_cons, List.mem_append, List.not_mem_nil, or_false] at place
    rcases place with rfl | inside | rfl
    · exact Nat.le_of_eq (BinaryOp.isComparison_iff _ |>.mp begins)
    · exact Nat.le_of_lt (tight op inside)
    · exact Nat.le_of_eq (BinaryOp.isComparison_iff _ |>.mp again)
  have count := one _ (List.suffix_append others _).isInfix (fun place => (tightAll _ place).1 rfl)
    fun place => (tightAll _ place).2 rfl
  simp [List.countP_append, begins, again] at count

/-! ### Chains as they are written -/

/-- A number as it is written. -/
structure Numeral where
  text : String
  decimal : Token.IsDecimal text.toList

/-- An operator between blanks, and the number after it. -/
structure Link where
  op : BinaryOp
  dots : Dots
  operand : Numeral

namespace Link

def written (l : Link) : List Char :=
  ' ' :: (l.op.sign l.dots ++ ' ' :: l.operand.text.toList)

def writtenAll (links : List Link) : List Char :=
  links.flatMap written

/-- What the links of a chain stand for, the first of them at a cursor. -/
def joints (s : Source) : Nat → List Link → List Joint
  | _, [] => []
  | k, l :: ls =>
    ⟨l.op, s.position (k + 1), .leaf .number l.operand.text (s.position (k + 1 + (l.op.sign l.dots).length + 1))⟩ ::
      joints s (k + l.written.length) ls

theorem joints_append (s : Source) (k : Nat) (links others : List Link) :
    joints s k (links ++ others) = joints s k links ++ joints s (k + (writtenAll links).length) others := by
  induction links generalizing k with
  | nil => rfl
  | cons l links ih => simp [joints, ih, writtenAll, Nat.add_assoc]

theorem forall_joints {p : BinaryOp → Prop} (s : Source) (k : Nat) {links : List Link} (all : ∀ l ∈ links, p l.op) :
    ∀ joint ∈ joints s k links, p joint.op := by
  induction links generalizing k with
  | nil => simp [joints]
  | cons l links ih =>
    simp only [joints, List.mem_cons, forall_eq_or_imp] at all ⊢
    exact ⟨all.1, ih _ all.2⟩

end Link

open Link

/-- A chain of which a part is grouped: the operators of the part bind tighter than one level, and the next one does not
bind tighter than another or is one comparison too many. -/
structure Grown (s : Source) (k : Nat) (n : Node) (low high : Nat) (taken rest : List Link) (tree : Node) : Prop where
  groups : Groups n (joints s k taken) tree
  tight : ∀ l ∈ taken, l.op.level < high
  one : OneComparison (taken.map Link.op)
  stops : ∀ l ∈ rest.head?, low ≤ l.op.level ∨ ¬OneComparison (taken.map Link.op ++ [l.op])

variable {n a b tree : Node} {low high level : Nat} {l : Link} {links taken more rest rest' : List Link}

theorem Grown.start (s : Source) (k : Nat) (n : Node) (links : List Link) : Grown s k n 0 0 [] links n where
  groups := .operand n
  tight := by simp
  one := oneComparison_of_count (by simp)
  stops := by simp

theorem Grown.weaken (grown : Grown s k n low level taken rest tree) (within : level ≤ high) :
    Grown s k n low high taken rest tree where
  groups := grown.groups
  tight l place := Nat.lt_of_lt_of_le (grown.tight l place) within
  one := grown.one
  stops := grown.stops

/-- Where no operator of a level comes next, the part is as far as the next level goes. -/
theorem Grown.finish (grown : Grown s k n level high taken rest tree) (other : ∀ l ∈ rest.head?, l.op.level ≠ level) :
    Grown s k n (level + 1) high taken rest tree where
  groups := grown.groups
  tight := grown.tight
  one := grown.one
  stops l first := (grown.stops l first).imp_left fun bound => by
    have differs := other l first
    omega

/-- An operator of a level joins what is grouped before it with the operand of that level after it. -/
theorem Grown.join (left : Grown s k n level (level + 1) taken (l :: rest) a) (isLevel : l.op.level = level)
    (fresh : level = 2 → ∀ l ∈ taken, l.op.level < 2) {position : Position}
    (right : Grown s (k + (writtenAll taken).length + l.written.length) (.leaf .number l.operand.text position) level
      level more rest' b)
    (here : position = s.position (k + (writtenAll taken).length + 1 + (l.op.sign l.dots).length + 1)) :
    Grown s k n level (level + 1) (taken ++ l :: more) rest'
      (.mk (s.position (k + (writtenAll taken).length + 1)) (.binary l.op a b)) where
  groups := by
    rw [joints_append, joints]
    have before : ∀ joint ∈ joints s k taken, joint.op.level ≤ l.op.level :=
      forall_joints (p := fun op => op.level ≤ l.op.level) s k fun other place =>
        isLevel ▸ Nat.le_of_lt_succ (left.tight other place)
    have after : ∀ joint ∈ joints s (k + (writtenAll taken).length + l.written.length) more,
        joint.op.level < l.op.level :=
      forall_joints (p := fun op => op.level < l.op.level) s _ fun other place => isLevel ▸ right.tight other place
    exact .split before after left.groups (here ▸ right.groups)
  tight other place := by
    simp only [List.mem_append, List.mem_cons] at place
    rcases place with before | rfl | after
    · exact left.tight other before
    · omega
    · exact Nat.lt_succ_of_lt (right.tight other after)
  one := by
    rw [List.map_append, List.map_cons]
    have none {links : List Link} (tight : ∀ l ∈ links, l.op.level < 2) :
        (links.map Link.op).countP BinaryOp.isComparison = 0 :=
      count_eq_zero (by simpa using tight)
    rcases Nat.lt_trichotomy level 2 with below | rfl | above
    · have tight : ∀ other ∈ taken, other.op.level < 2 := fun other place => by
        have bound := left.tight other place
        omega
      have tight' : ∀ other ∈ more, other.op.level < 2 := fun other place => by
        have bound := right.tight other place
        omega
      refine oneComparison_of_count ?_
      rw [List.countP_append, List.countP_cons, none tight, none tight']
      split <;> omega
    · refine oneComparison_of_count ?_
      rw [List.countP_append, List.countP_cons, none (fresh rfl), none right.tight]
      split <;> omega
    · refine left.one.joined right.one ?_
      have loose : ¬(l.op ≠ .and ∧ l.op ≠ .or) := by
        rw [← l.op.level_le_two]
        omega
      tauto
  stops other first := by
    refine (right.stops other first).imp_right fun two one => two (one.within ?_)
    rw [List.map_append, List.map_cons, List.append_assoc, List.cons_append]
    exact ((List.suffix_cons _ _).trans (List.suffix_append _ _)).isInfix

/-- After a comparison the next one is one too many. -/
theorem Grown.finish_comparison (grown : Grown s k n 2 3 (taken ++ l :: more) rest tree) (begins : l.op.level = 2)
    (tight : ∀ l ∈ more, l.op.level < 2) : Grown s k n 3 3 (taken ++ l :: more) rest tree where
  groups := grown.groups
  tight := grown.tight
  one := grown.one
  stops other first := by
    by_cases again : other.op.level = 2
    · right
      rw [List.map_append, List.map_cons, List.append_assoc, List.cons_append]
      exact not_oneComparison (l.op.isComparison_iff.mpr begins) (by simpa using tight)
        (other.op.isComparison_iff.mpr again)
    · exact (grown.stops other first).imp_left fun bound => by omega

/-! ### Reading a chain -/

theorem BinaryOp.operatorAbove_ne {dots : Dots} (other : op.level ≠ level) :
    Expr.operatorAbove level (op.token dots) = none := by
  match level with
  | 0 | 1 | 2 | 3 | 4 => cases op <;> cases dots <;> first | rfl | simp [BinaryOp.level] at other
  | _ + 5 => rfl

namespace Expr

open Link

variable {expr operand : Scan Node}

theorem next_of_link {dots : Dots} (h : s.ahead j = ' ' :: (op.sign dots ++ ' ' :: cs)) :
    Token.next s j = .ok ⟨op.token dots, String.ofList (op.sign dots), s.position (j + 1)⟩
      (j + 1 + (op.sign dots).length) := by
  rw [Token.next_blanks [' '] h (by simp [CharClass.has])]
  exact op.next (Source.ahead_of_cons h)

theorem ahead_of_link (h : s.ahead j = writtenAll (l :: links) ++ '\n' :: cs) :
    s.ahead j = ' ' :: (l.op.sign l.dots ++ ' ' :: (l.operand.text.toList ++ (writtenAll links ++ '\n' :: cs))) := by
  simpa [writtenAll, written] using h

/-- Where the operators of a level do not come next, the token that does is none of the level's. -/
theorem exists_next_other (h : s.ahead j = writtenAll rest ++ '\n' :: cs) (other : ∀ l ∈ rest.head?, l.op.level ≠ level) :
    ∃ token m, Token.next s j = .ok token m ∧ operatorAbove level token.kind = none ∧ token.kind ≠ .question := by
  cases rest with
  | nil => exact ⟨_, _, Token.next_of_newline h, operatorAbove_of_isEnd level rfl, by simp⟩
  | cons l rest =>
    refine ⟨_, _, next_of_link (ahead_of_link h), BinaryOp.operatorAbove_ne (other l rfl), ?_⟩
    cases l.op <;> cases l.dots <;> simp [BinaryOp.token]

theorem postfixed_of_numeral {expr primary : Scan Node} (h : s.ahead j = writtenAll rest ++ '\n' :: cs)
    (read : primary s i = .ok n j) : postfixed expr primary s i = .ok n j := by
  cases rest with
  | nil => exact postfixed_of_ends read ⟨_, _, Token.next_of_newline h, rfl⟩
  | cons l rest =>
    have link := ahead_of_link h
    have kind := l.op.token_ne l.dots
    exact postfixed_of_operator read (next_of_link link) (by rw [link]; rfl) kind.1 kind.2

/-- What a level reads of a chain, from the blanks before its first number on. -/
def ReadsPart (operand : Scan Node) (level : Nat) : Prop :=
  ∀ ⦃s : Source⦄ ⦃i : Nat⦄ ⦃blanks cs : List Char⦄ ⦃first : Numeral⦄ ⦃links : List Link⦄,
    s.ahead i = blanks ++ (first.text.toList ++ (writtenAll links ++ '\n' :: cs)) →
    (∀ x ∈ blanks, CharClass.white.has x = true) → ∃ taken rest tree, links = taken ++ rest ∧
      operand s i = .ok tree (i + blanks.length + first.text.toList.length + (writtenAll taken).length) ∧
      Grown s (i + blanks.length + first.text.toList.length)
        (.leaf .number first.text (s.position (i + blanks.length))) level level taken rest tree

theorem readsPart_operand (expr : Scan Node) : ReadsPart (tier expr 0) 0 := by
  intro s i blanks cs first links h white
  have start : s.ahead (i + blanks.length) = first.text.toList ++ (writtenAll links ++ '\n' :: cs) :=
    Source.ahead_of_append h
  have after := Source.ahead_of_append start
  have stop : ∃ d ds, writtenAll links ++ '\n' :: cs = d :: ds ∧ (d = ' ' ∨ d = '\n') := by
    cases links with
    | nil => exact ⟨'\n', cs, rfl, .inr rfl⟩
    | cons l links => exact ⟨' ', _, rfl, .inl rfl⟩
  obtain ⟨d, ds, tail, mark⟩ := stop
  have next : Token.next s i = .ok ⟨.number, first.text, s.position (i + blanks.length)⟩
      (i + blanks.length + first.text.toList.length) := by
    rw [Token.next_blanks blanks h white, Token.next_of_decimal start first.decimal, String.ofList_toList]
    · rw [tail]
      rcases mark with rfl | rfl <;> rfl
    · rw [tail]
      rcases mark with rfl | rfl <;> simp
  have read : primary expr s i = .ok (.leaf .number first.text (s.position (i + blanks.length)))
      (i + blanks.length + first.text.toList.length) := by
    simp only [primary, Scan.bind_of_ok (Scan.tell_apply s i), Scan.bind_of_ok next]
    rfl
  refine ⟨[], links, _, rfl, ?_, .start s _ _ links⟩
  exact prefixed_of_operand next rfl (postfixed_of_numeral after read)

/-- One turn of a chain of operands. -/
def chainTurn (operator : TokenKind → Option BinaryOp) (operand : Scan Node) (left : Node) :
    Scan (Scan.Turn Node Node) := do
  let start ← Scan.tell
  let token ← Token.next
  match operator token.kind with
  | some op =>
    let right ← operand
    return .again (.mk token.position (.binary op left right))
  | none =>
    Scan.seek start
    return .done left

theorem chain_eq (operator : TokenKind → Option BinaryOp) (operand : Scan Node) :
    chain operator operand = (do Scan.loop (← operand) (chainTurn operator operand)) := rfl

theorem tier_eq_chain (expr : Scan Node) (few : level < 5) (several : level ≠ 2) :
    tier expr (level + 1) = chain (operatorAbove level) (tier expr level) := by
  match level with
  | 0 | 1 | 3 | 4 => rfl
  | 2 => exact absurd rfl several
  | _ + 5 => omega

/-- The operand after an operator of a level, and the two joined. -/
theorem exists_join (reads : ReadsPart operand level) (h : s.ahead k = writtenAll (taken ++ l :: rest) ++ '\n' :: cs)
    (left : Grown s k n level (level + 1) taken (l :: rest) tree) (isLevel : l.op.level = level)
    (fresh : level = 2 → ∀ l ∈ taken, l.op.level < 2) :
    ∃ more rest' right, rest = more ++ rest' ∧ (∀ l ∈ more, l.op.level < level) ∧
      Token.next s (k + (writtenAll taken).length) = .ok ⟨l.op.token l.dots, String.ofList (l.op.sign l.dots),
        s.position (k + (writtenAll taken).length + 1)⟩ (k + (writtenAll taken).length + 1 + (l.op.sign l.dots).length) ∧
      operand s (k + (writtenAll taken).length + 1 + (l.op.sign l.dots).length) =
        .ok right (k + (writtenAll (taken ++ l :: more)).length) ∧
      Grown s k n level (level + 1) (taken ++ l :: more) rest'
        (.mk (s.position (k + (writtenAll taken).length + 1)) (.binary l.op tree right)) := by
  have whole : s.ahead k = writtenAll taken ++ (writtenAll (l :: rest) ++ '\n' :: cs) := by
    simpa [writtenAll] using h
  have link := ahead_of_link (Source.ahead_of_append whole)
  have operands : s.ahead (k + (writtenAll taken).length + 1 + (l.op.sign l.dots).length) =
      [' '] ++ (l.operand.text.toList ++ (writtenAll rest ++ '\n' :: cs)) :=
    Source.ahead_of_append (Source.ahead_of_cons link)
  obtain ⟨more, rest', right, rfl, read, grown⟩ := reads operands (by simp [CharClass.has])
  have size : k + (writtenAll taken).length + 1 + (l.op.sign l.dots).length + 1 + l.operand.text.toList.length =
      k + (writtenAll taken).length + l.written.length := by
    simp [written]
    omega
  simp only [List.length_singleton, size] at read grown
  refine ⟨more, rest', right, rfl, grown.tight, next_of_link link, ?_, left.join isLevel fresh grown rfl⟩
  rw [read]
  simp [writtenAll]
  omega

/-- The turns of a chain from a part on: an operator of the level is joined, another one ends the chain. -/
theorem rounds_of_grown (reads : ReadsPart operand level) (several : level ≠ 2)
    (h : s.ahead k = writtenAll (taken ++ rest) ++ '\n' :: cs) (grown : Grown s k n level (level + 1) taken rest tree) :
    ∃ taken' rest' tree', taken ++ rest = taken' ++ rest' ∧
      Scan.Rounds (chainTurn (operatorAbove level) operand) s tree (k + (writtenAll taken).length) tree'
        (k + (writtenAll taken').length) ∧
      Grown s k n (level + 1) (level + 1) taken' rest' tree' := by
  induction size : rest.length using Nat.strong_induction_on generalizing taken rest tree with
  | _ size ih =>
    by_cases other : ∀ l ∈ rest.head?, l.op.level ≠ level
    · have after : s.ahead (k + (writtenAll taken).length) = writtenAll rest ++ '\n' :: cs :=
        Source.ahead_of_append (by simpa [writtenAll] using h)
      obtain ⟨token, m, next, none, -⟩ := exists_next_other after other
      refine ⟨taken, rest, tree, rfl, .last ?_, grown.finish other⟩
      simp only [chainTurn, Scan.bind_of_ok (Scan.tell_apply s _), Scan.bind_of_ok next, none]
      rfl
    · obtain ⟨l, first, isLevel⟩ : ∃ l ∈ rest.head?, l.op.level = level := by simpa using other
      obtain ⟨rest, rfl⟩ := List.head?_eq_some_iff.mp first
      obtain ⟨more, rest', right, rfl, -, sign, read, joined⟩ :=
        exists_join reads h grown isLevel fun two => absurd two several
      have split : taken ++ l :: (more ++ rest') = (taken ++ l :: more) ++ rest' := by simp
      rw [split] at h
      obtain ⟨taken', rest'', tree', same, rounds, whole⟩ :=
        ih rest'.length (by simp at size; omega) h joined rfl
      refine ⟨taken', rest'', tree', by rw [split, same], .turn ?_ ?_ ?_ rounds, whole⟩
      · simp only [chainTurn, Scan.bind_of_ok (Scan.tell_apply s _), Scan.bind_of_ok sign, ← isLevel,
          l.op.operatorAbove_level, Scan.bind_of_ok read]
        rfl
      · simp [writtenAll, written]
      · have left := Source.length_ahead s k
        rw [h] at left
        simp [writtenAll] at left ⊢
        omega

theorem readsPart_chain (reads : ReadsPart operand level) (several : level ≠ 2) :
    ReadsPart (chain (operatorAbove level) operand) (level + 1) := by
  intro s i blanks cs first links h white
  obtain ⟨taken, rest, tree, rfl, read, grown⟩ := reads h white
  have after : s.ahead (i + blanks.length + first.text.toList.length) = writtenAll (taken ++ rest) ++ '\n' :: cs :=
    Source.ahead_of_append (Source.ahead_of_append h)
  obtain ⟨taken', rest', tree', same, rounds, whole⟩ :=
    rounds_of_grown reads several after (grown.weaken (Nat.le_succ level))
  refine ⟨taken', rest', tree', same, ?_, whole⟩
  rw [chain_eq, Scan.bind_of_ok read]
  exact rounds.loop

theorem readsPart_comparison (reads : ReadsPart operand 2) : ReadsPart (comparison operand) 3 := by
  intro s i blanks cs first links h white
  obtain ⟨taken, rest, tree, rfl, read, grown⟩ := reads h white
  have after : s.ahead (i + blanks.length + first.text.toList.length) = writtenAll (taken ++ rest) ++ '\n' :: cs :=
    Source.ahead_of_append (Source.ahead_of_append h)
  by_cases other : ∀ l ∈ rest.head?, l.op.level ≠ 2
  · have next : s.ahead (i + blanks.length + first.text.toList.length + (writtenAll taken).length) =
        writtenAll rest ++ '\n' :: cs := Source.ahead_of_append (by simpa [writtenAll] using after)
    obtain ⟨token, m, next, none, -⟩ := exists_next_other next other
    exact ⟨taken, rest, tree, rfl, comparison_of_operand read next none, (grown.weaken (by omega)).finish other⟩
  · obtain ⟨l, first, isLevel⟩ : ∃ l ∈ rest.head?, l.op.level = 2 := by simpa using other
    obtain ⟨rest, rfl⟩ := List.head?_eq_some_iff.mp first
    obtain ⟨more, rest', right, rfl, tight, sign, read', joined⟩ :=
      exists_join reads after (grown.weaken (by omega)) isLevel fun _ => grown.tight
    have found : TokenKind.comparison? (l.op.token l.dots) = some l.op := by
      have above : operatorAbove l.op.level (l.op.token l.dots) = some l.op := l.op.operatorAbove_level
      rwa [isLevel] at above
    exact ⟨taken ++ l :: more, rest', _, by simp, comparison_of_pair read sign found read',
      joined.finish_comparison isLevel tight⟩

theorem readsPart_tier (expr : Scan Node) (within : level ≤ 5) : ReadsPart (tier expr level) level := by
  induction level with
  | zero => exact readsPart_operand expr
  | succ level ih =>
    have reads : ReadsPart (tier expr level) level := ih (by omega)
    rcases Decidable.em (level = 2) with rfl | several
    · exact readsPart_comparison reads
    · rw [tier_eq_chain expr (by omega) several]
      exact readsPart_chain reads several

/-- A chain as one line. -/
def chainText (first : Numeral) (links : List Link) : String :=
  String.ofList (first.text.toList ++ writtenAll links)

/-- A chain of numbers is read as its operators group it, up to the second comparison in an operand of `&&` or `||`. The
cursor stays before the blank in front of that. -/
theorem ofLine_chain (first : Numeral) (links : List Link) :
    ∃ kept rest tree, links = kept ++ rest ∧ OneComparison (kept.map Link.op) ∧
      (∀ longer, longer <+: links → OneComparison (longer.map Link.op) → longer.length ≤ kept.length) ∧
      (∀ l ∈ rest.head?, l.op.isComparison = true) ∧
      (∀ other, Groups (.leaf .number first.text ((Source.ofLines [chainText first links]).position 0))
        (joints (.ofLines [chainText first links]) first.text.length kept) other ↔ other = tree) ∧
      ofLine (chainText first links) = .ok tree (chainText first kept).length := by
  have start : (Source.ofLines [chainText first links]).ahead 0 =
      [] ++ (first.text.toList ++ (writtenAll links ++ '\n' :: [])) := by
    simp [ahead_ofLines, chainText]
  obtain ⟨kept, rest, tree, rfl, read, grown⟩ :=
    readsPart_tier (nested (Source.ofLines [chainText first links]).size) (Nat.le_refl 5) start (by simp)
  simp only [List.length_nil, Nat.add_zero, Nat.zero_add] at read grown
  have blocked : ∀ l ∈ rest.head?, ¬OneComparison (kept.map Link.op ++ [l.op]) := fun l first =>
    (grown.stops l first).resolve_left (Nat.not_le_of_lt l.op.level_lt)
  refine ⟨kept, rest, tree, rfl, grown.one, ?_, ?_, ?_, ?_⟩
  · intro longer starts one
    by_contra more
    obtain ⟨tail, rfl⟩ : kept <+: longer :=
      List.prefix_of_prefix_length_le (List.prefix_append kept rest) starts (by omega)
    obtain ⟨l, tail, rfl⟩ : ∃ l later, tail = l :: later := List.exists_cons_of_ne_nil (by rintro rfl; simp at more)
    obtain ⟨later, rfl⟩ := (List.prefix_append_right_inj kept).mp starts
    refine blocked l rfl (one.within ?_)
    exact ⟨[], tail.map Link.op, by simp⟩
  · intro l first
    by_contra other
    exact blocked l first (grown.one.snoc (by simpa using other))
  · exact fun other => ⟨fun groups => groups.unique grown.groups, fun same => same ▸ grown.groups⟩
  · have after : (Source.ofLines [chainText first (kept ++ rest)]).ahead (first.text.length + (writtenAll kept).length) =
        writtenAll rest ++ '\n' :: [] := by
      have whole : (Source.ofLines [chainText first (kept ++ rest)]).ahead 0 =
          (first.text.toList ++ writtenAll kept) ++ (writtenAll rest ++ '\n' :: []) := by
        simpa [writtenAll] using start
      have after := Source.ahead_of_append whole
      rwa [List.length_append, String.length_toList, Nat.zero_add] at after
    have others : ∀ l ∈ rest.head?, l.op.level ≠ 5 := fun l _ => Nat.ne_of_lt l.op.level_lt
    obtain ⟨token, m, next, -, noQuestion⟩ := exists_next_other after others
    have stop : (chainText first kept).length = first.text.length + (writtenAll kept).length := by
      simp [chainText]
    rw [stop]
    exact ternary_of_operand read next noQuestion

end Expr

end VimScript
