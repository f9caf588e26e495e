import VimScript.Proofs.Statement.Lines

/-!
Names of variables and parameters where they are used, assigned to and bound. The words of the identity tests are names
in an expression only: everywhere else they are read as operators.
-/

set_option autoImplicit false

namespace VimScript

variable {s : Source} {i j k : Nat} {v : String} {c : Char} {cs rest : List Char}

namespace Token

theorem isArgumentName_iff :
    isArgumentName v = true ↔
      CharClass.nameStart.hasOpt v.toList.head? = true ∧ ∀ x ∈ v.toList, CharClass.word.has x = true := by
  have word {c : Char} (start : CharClass.nameStart.has c = true) : CharClass.word.has c = true :=
    CharClass.forall_of_table (p := fun c => CharClass.word.has c = true) (by decide) start
  unfold isArgumentName
  cases v.toList with
  | nil => simp
  | cons c cs => simpa [and_assoc] using fun start _ => word start

theorem isName_of_isArgumentName (name : isArgumentName v = true) (other : v ∉ ["is", "isnot"]) : IsName v.toList := by
  obtain ⟨head, word⟩ := isArgumentName_iff.mp name
  refine ⟨head, word, fun same => other ?_, fun same => other ?_⟩
  · simp [String.toList_inj.mp (same.trans (by rfl : ['i', 's'] = "is".toList))]
  · simp [String.toList_inj.mp (same.trans (by rfl : ['i', 's', 'n', 'o', 't'] = "isnot".toList))]

end Token

namespace Expr

open Token

/-- Every name is one in an expression, also the word of an identity test. -/
theorem read_of_variable (name : isArgumentName v = true) (h : s.ahead i = v.toList ++ '\n' :: cs) :
    read s i = .ok (.identifier v (s.position i)) (i + v.toList.length) := by
  obtain ⟨head, word⟩ := isArgumentName_iff.mp name
  have some : v.toList ≠ [] := by
    intro none
    simp [none] at head
  have inside : ∀ x ∈ v.toList, CharClass.name.has x = true := by
    intro x place
    exact CharClass.forall_of_table (p := fun c => CharClass.name.has c = true) (by decide) (word x place)
  obtain ⟨token, k, first, starts⟩ := next_of_nameStart h head inside rfl (by simp)
  have named := name_of_text (nested s.size) some head inside rfl (by simp) h
  rw [String.ofList_toList] at named
  have operand := (primary_of_startsName first starts).trans named
  have ends : EndsAt s (i + v.toList.length) := endsAt_of_mark (Source.ahead_of_append h) (by decide)
  exact nested_of_postfixed first (isPlain_of_startsName starts).1 (postfixed_of_ends operand ends) ends

theorem nested_of_one (depth : Nat) (h : s.ahead i = ' ' :: '1' :: c :: cs) (mark : c = '\x7d' ∨ c = '\n') :
    nested (depth + 1) s i = .ok (.leaf .number "1" (s.position (i + 1))) (i + 2) := by
  have blank : s.ahead i = [' '] ++ '1' :: c :: cs := h
  have digit : s.ahead (i + 1) = ['1'] ++ c :: cs := Source.ahead_of_cons h
  have stop : CharClass.name.hasOpt (c :: cs).head? = false ∧ (c :: cs).head? ≠ some '.' := by
    rcases mark with rfl | rfl <;> exact ⟨rfl, by simp⟩
  have number := next_of_decimal digit (.whole (by simp) (List.all_eq_true.mp rfl)) stop.1 stop.2
  have first : next s i = _ := (next_blanks [' '] blank (List.all_eq_true.mp rfl)).trans number
  have ends : EndsAt s (i + 2) := by
    apply endsAt_of_mark (Source.ahead_of_append digit)
    rcases mark with rfl | rfl <;> decide
  apply nested_of_postfixed first rfl (postfixed_of_ends ?_ ends) ends
  simp only [primary, Scan.bind_of_ok (Scan.tell_apply s i), Scan.bind_of_ok first]
  rfl

theorem exists_of_bare_identifier {n : Node} (same : n.bare = (Node.identifier v .unset).bare) :
    ∃ p, n = .identifier v p := by
  obtain ⟨p, kind⟩ := n
  cases kind <;> simp_all [Node.identifier, Node.leaf, Kind.map]

theorem parameters_of_name (name : IsName v.toList) (h : s.ahead i = v.toList ++ ' ' :: '-' :: '>' :: rest) :
    ∃ first j k p, next s i = .ok first j ∧ promisesLambda first s j = .ok true j ∧
      parameters first s j = .ok (some [.identifier v p]) k ∧ s.ahead k = rest := by
  have shape : Node.Parameters [.identifier v .unset] :=
    { names := fun p place => ⟨v, .unset, by simpa using place, .inl name⟩
      distinct := by simp
      last := by simp }
  have listed : s.ahead i = Node.listed ([Node.identifier v .unset].map (Node.render .one)) ++ ' ' :: '-' :: '>' :: rest := by
    simpa [Node.listed, Node.identifier] using h
  obtain ⟨first, j, found, k, first', promise, read, same, after⟩ := parameters_of_listed shape listed
  obtain ⟨n, rfl⟩ : ∃ n, found = [n] := List.length_eq_one_iff.mp (by simpa using congrArg List.length same)
  obtain ⟨p, rfl⟩ := exists_of_bare_identifier (by simpa using same)
  exact ⟨first, j, k, p, first', promise, read, after⟩

/-- A lambda with one parameter. -/
theorem read_of_lambda (name : IsName v.toList)
    (h : s.ahead i = '\x7b' :: (v.toList ++ " -> 1\x7d".toList ++ '\n' :: cs)) :
    ∃ p q r j, read s i = .ok (.mk p (.lambda [.identifier v q] (.leaf .number "1" r))) j ∧ s.ahead j = '\n' :: cs := by
  have inside : s.ahead (i + 1) = v.toList ++ ' ' :: '-' :: '>' :: ' ' :: '1' :: '\x7d' :: '\n' :: cs := by
    rw [Source.ahead_of_cons h, List.append_assoc]
    rfl
  obtain ⟨first, j, k, q, first', promise, params, after⟩ := parameters_of_name name inside
  have size : 0 < s.size := Nat.lt_of_le_of_lt (Nat.zero_le i) (Source.lt_size_of_cons h)
  obtain ⟨depth, deep⟩ : ∃ depth, s.size = depth + 1 := ⟨s.size - 1, by omega⟩
  have body := nested_of_one depth after (.inl rfl)
  have atClose : s.ahead (k + 2) = '\x7d' :: '\n' :: cs := Source.ahead_of_cons (Source.ahead_of_cons after)
  have close : next s (k + 2) = .ok ⟨.braceClose, "\x7d", s.position (k + 2)⟩ (k + 3) := next_of_symbol atClose rfl
  have last : s.ahead (k + 3) = '\n' :: cs := Source.ahead_of_cons atClose
  have whole : lambda (nested s.size) first (s.position i) s j =
      .ok (some (.mk (s.position i) (.lambda [.identifier v q] (.leaf .number "1" (s.position (k + 1)))))) (k + 3) := by
    rw [deep]
    simp only [lambda, Scan.bind_of_ok params, Scan.bind_of_ok body, Scan.bind_of_ok close]
    rfl
  have operand : primary (nested s.size) s i =
      .ok (.mk (s.position i) (.lambda [.identifier v q] (.leaf .number "1" (s.position (k + 1))))) (k + 3) := by
    rw [primary_of_brace h]
    simp only [braces, bind_assoc, Scan.bind_of_ok (Scan.tell_apply s _), Scan.bind_of_ok first',
      Scan.bind_of_ok promise, if_true, Scan.bind_of_ok whole]
    rfl
  have ends : EndsAt s (k + 3) := endsAt_of_mark last (by decide)
  exact ⟨_, q, _, k + 3, nested_of_postfixed (next_of_brace h) rfl (postfixed_of_ends operand ends) ends, last⟩

end Expr

namespace Statement

open Token

/-! ### Assignments -/

theorem target_of_name (name : IsName v.toList) (h : s.ahead k = v.toList ++ " = 1".toList ++ '\n' :: cs) :
    targets target s k = .ok { single := some (.identifier v (s.position k)) } (k + v.toList.length) := by
  rw [List.append_assoc] at h
  have behind := Source.ahead_of_append h
  have sign : Stands s (k + v.toList.length) .assign (' ' :: '1' :: '\n' :: cs) :=
    .blank behind (.symbol "=" (Source.ahead_of_cons behind) rfl rfl)
  have read := Target.read_of_name name h rfl (by simp) sign nofun nofun
  rw [String.ofList_toList] at read
  have valid := isVariableName_of_isArgumentName (Expr.isArgumentName_of_isName name)
  have single : target s k = .ok (.identifier v (s.position k)) (k + v.toList.length) := by
    simp only [target, Scan.bind_of_ok read, Node.identifier, Node.leaf, Node.kind_mk, valid, if_true]
    rfl
  have first := peek_of_next (next_of_name h name rfl)
  simp only [targets, Scan.bind_of_ok first]
  exact Scan.bind_of_ok single

theorem letCommand_of_name (inv : Invocation) (name : IsName v.toList) (h : s.ahead k = v.toList ++ " = 1".toList ++ '\n' :: cs) :
    ∃ q j, letCommand inv s k =
        .ok [assignment .letVar inv "=" { single := some (.identifier v (s.position k)) } (.leaf .number "1" q)] j ∧
      s.ahead j = '\n' :: cs := by
  have left := target_of_name name h
  rw [List.append_assoc] at h
  have behind : s.ahead (k + v.toList.length) = [' '] ++ '=' :: ' ' :: '1' :: '\n' :: cs := Source.ahead_of_append h
  have atSign : s.ahead (k + v.toList.length + 1) = ['='] ++ ' ' :: '1' :: '\n' :: cs := Source.ahead_of_cons behind
  have atValue : s.ahead (k + v.toList.length + 1 + 1) = ' ' :: '1' :: '\n' :: cs := Source.ahead_of_cons atSign
  have value : Expr.read s (k + v.toList.length + 1 + 1) = _ := Expr.nested_of_one s.size atValue (.inr rfl)
  have skipped : Scan.skipWhite s (k + v.toList.length) = .ok () (k + v.toList.length + 1) :=
    Scan.skipWhite_of_ahead [' '] behind (List.all_eq_true.mp rfl) rfl
  have taken : Scan.take 1 s (k + v.toList.length + 1) = .ok "=" (k + v.toList.length + 1 + 1) :=
    Scan.take_of_ahead ['='] atSign (by decide)
  have short : Scan.peekRun 1 s (k + v.toList.length + 1) = .ok "=" (k + v.toList.length + 1) :=
    Scan.peekRun_of_ahead 1 atSign
  have long : longOperator s (k + v.toList.length + 1) = .ok "= " (k + v.toList.length + 1) := by
    rw [longOperator, Scan.bind_of_ok (Scan.peekRun_of_ahead 2 atSign)]
    rfl
  have front : CharClass.white.hasOpt (v.toList ++ (" = 1".toList ++ '\n' :: cs)).head? = false ∧
      endsCommand (v.toList ++ (" = 1".toList ++ '\n' :: cs)).head? = false := by
    obtain ⟨c, tail, written⟩ := List.exists_cons_of_ne_nil name.ne_nil
    have letter : CharClass.nameStart.has c = true := by simpa [written] using name.head
    rw [written]
    exact CharClass.forall_of_table (p := fun c => CharClass.white.has c = false ∧ endsCommand (some c) = false)
      (by decide) letter
  refine ⟨s.position (k + v.toList.length + 1 + 1 + 1), _, ?_, Source.ahead_of_cons (Source.ahead_of_cons atValue)⟩
  have noLong : compoundOperators.contains "= " = false ∧ ("= " == "=<<") = false := by decide
  simp only [letCommand, Scan.bind_of_ok (Scan.tell_apply s k), Scan.bind_of_ok (Scan.skipWhite_of_solid h front.1),
    Scan.bind_of_ok (Scan.peek_of_ahead h), front.2, Bool.false_eq_true, if_false, Scan.bind_of_ok left]
  rw [Scan.bind_of_ok skipped, Scan.bind_of_ok short, Scan.bind_of_ok long]
  simp only [noLong, Bool.false_eq_true, if_false, beq_self_eq_true, if_true]
  rw [Scan.bind_of_ok taken, Scan.bind_of_ok value]
  rfl

/-! ### Parameters -/

theorem functionParameters_of_name (name : IsName v.toList) (notFirst : v ≠ "firstline") (notLast : v ≠ "lastline")
    (h : s.ahead k = v.toList ++ ')' :: cs) :
    functionParameters s k = .ok { names := [.identifier v (s.position k)] } (k + v.toList.length + 1) := by
  have first := next_of_name h name rfl
  rw [String.ofList_toList] at first
  have atClose := Source.ahead_of_append h
  have close : next s (k + v.toList.length) = .ok ⟨.parenClose, ")", s.position (k + v.toList.length)⟩
      (k + v.toList.length + 1) := next_of_symbol atClose rfl
  have valid := Expr.isArgumentName_of_isName name
  have taken : functionParameter {} ⟨.identifier, v, s.position k⟩ s (k + v.toList.length) =
      .ok ({ names := [.identifier v (s.position k)] }, ⟨.parenClose, ")", s.position (k + v.toList.length)⟩)
        (k + v.toList.length + 1) := by
    have allowed : (!isArgumentName v || v == "firstline" || v == "lastline") = false := by simp [valid, notFirst, notLast]
    have noAssign : (TokenKind.parenClose == .assign) = false := by decide
    simp only [functionParameter, allowed, Bool.false_eq_true, if_false, List.any_nil, bind_assoc,
      Scan.bind_of_ok (peek_of_next close), noAssign, List.isEmpty_nil, Bool.not_true, pure_bind,
      Scan.bind_of_ok (Scan.peek_of_ahead atClose)]
    exact Scan.bind_of_ok close
  simp only [functionParameters, Scan.bind_of_ok (peek_of_next first)]
  refine Scan.loop_of_done ?_
  simp only [Scan.bind_of_ok first]
  exact Scan.bind_of_ok taken

/-! ### Lines -/

/-- A line of a command with a blank and an argument after its name, which makes the edits its form does. -/
theorem read_of_body {ws argument : List Char} {found : Command} {edits : List Edit} (setting : Setting)
    (name : IsCommandName ws) (plain : IsPlainCommand found) (lookup : Command.lookup setting.neovim ws = some found)
    (h : s.ahead i = ws ++ ' ' :: (argument ++ '\n' :: cs))
    (solid : CharClass.white.hasOpt (argument ++ '\n' :: cs).head? = false)
    (made : body setting.blocks (plainInvocation s i (i + ws.length + 1) found) found.form s (i + ws.length + 1) =
      .ok edits j) (after : s.ahead j = '\n' :: cs) : read setting s i = .ok ⟨edits, setting.known⟩ (j + 1) := by
  have result := read_of_name setting name plain lookup [' '] (List.all_eq_true.mp rfl) solid rfl (by simp) h
  rw [result]
  refine (Scan.bind_of_ok made).trans ((Scan.bind_of_ok (trail_of_stop (.inl rfl) after)).trans ?_)
  rw [List.append_nil]
  rfl

end Statement

end VimScript
