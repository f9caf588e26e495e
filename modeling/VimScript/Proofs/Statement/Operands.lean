import VimScript.Proofs.Expr.RoundTrip
import VimScript.Statement

/-!
Reading the simplest arguments: a number, a name and the names that loops and functions bind.
-/

set_option autoImplicit false

namespace VimScript

variable {s : Source} {i k : Nat} {ws cs rest : List Char}

namespace Expr

theorem read_of_readsBack {t : Node} {dots : Dots} (back : ReadsBack dots t)
    (h : s.ahead i = t.render dots ++ rest) (closes : Closes rest) : t.ReadBy read s i rest := by
  have length := Source.length_ahead s i
  rw [h, List.length_append] at length
  have deep : (t.render dots).length < s.size + 1 := by omega
  obtain ⟨n, j, found, same, after⟩ : t.ReadBy (nested (s.size + 1)) s i rest := back.read h closes deep
  exact ⟨n, j, found, same, after⟩

theorem name_blanks {expr : Scan Node} (xs : List Char) (h : s.ahead i = xs ++ cs)
    (blanks : ∀ x ∈ xs, CharClass.white.has x = true) : name expr s i = name expr s (i + xs.length) := by
  simp only [name, Scan.bind_apply, Scan.skipWhite_blanks h blanks]

/-- Blanks may stand before a name. -/
theorem read_of_blank_name (name : Token.IsName ws) (h : s.ahead i = ' ' :: (ws ++ rest)) (closes : Closes rest) :
    ∃ n j, read s i = .ok n j ∧ s.ahead j = rest := by
  have blanks : ∀ x ∈ [' '], CharClass.white.has x = true := List.all_eq_true.mp rfl
  have inner : s.ahead (i + 1) = ws ++ rest := Source.ahead_of_cons h
  have after : s.ahead (i + 1 + ws.length) = rest := Source.ahead_of_append inner
  have first := (Token.next_blanks [' '] h blanks).trans (Token.next_of_name inner name closes.not_name)
  have found := name_of_text (nested s.size) name.ne_nil name.head name.inside
    closes.not_name (closes.head_ne (by decide) (by decide)) inner
  have operand : primary (nested s.size) s i =
      .ok (.identifier (String.ofList ws) (s.position (i + 1))) (i + 1 + ws.length) := by
    simp only [primary, Scan.bind_of_ok (Scan.tell_apply s i), Scan.bind_of_ok first,
      Scan.bind_of_ok (Scan.seek_apply i s _)]
    exact (name_blanks [' '] h blanks).trans found
  have ends : EndsAt s (i + 1 + ws.length) := closes.endsAt after
  exact ⟨_, _, nested_of_postfixed first rfl (postfixed_of_ends operand ends) ends, after⟩

end Expr

namespace Target

/-- What the token after a target makes of it. -/
def part (left : Node) (start : Nat) (token : Token) (adjacent : Bool) : Scan (Scan.Turn Node Node) := do
  match token.kind, adjacent with
  | .bracketOpen, true => return .again (← Expr.index Expr.read left token.position)
  | .dot, true =>
    match ← Expr.member left token.position with
    | some node => return .again node
    | none =>
      Scan.seek start
      return .done left
  | _, _ =>
    Scan.seek start
    return .done left

theorem read_eq :
    read = (do
      let first ← base
      Scan.loop first fun left => do
        let start ← Scan.tell
        let adjacent := !CharClass.white.hasOpt (← Scan.peek)
        let token ← Token.next
        part left start token adjacent) := rfl

theorem part_of_other {left : Node} {token : Token} (start : Nat) (adjacent : Bool)
    (noBracket : token.kind ≠ .bracketOpen) (noDot : token.kind ≠ .dot) :
    part left start token adjacent = (do
      Scan.seek start
      return .done left) := by
  unfold part
  split <;> simp_all

theorem base_of_name (name : Token.IsName ws) (h : s.ahead i = ws ++ cs)
    (stop : CharClass.name.hasOpt cs.head? = false) (brace : cs.head? ≠ some '\x7b') :
    base s i = .ok (.identifier (String.ofList ws) (s.position i)) (i + ws.length) := by
  have first := Token.next_of_name h name stop
  have found := Expr.name_of_text Expr.read name.ne_nil name.head name.inside
    stop brace h
  simp only [base, Scan.bind_of_ok (Scan.tell_apply s i), Scan.bind_of_ok first, Scan.bind_of_ok (Scan.seek_apply i s _)]
  exact found

/-- A name is all of a target unless a bracket or a dot goes on with it. -/
theorem read_of_name {kind : TokenKind} (name : Token.IsName ws) (h : s.ahead i = ws ++ cs)
    (stop : CharClass.name.hasOpt cs.head? = false) (brace : cs.head? ≠ some '\x7b')
    (next : Token.Stands s (i + ws.length) kind rest) (noBracket : kind ≠ .bracketOpen) (noDot : kind ≠ .dot) :
    read s i = .ok (.identifier (String.ofList ws) (s.position i)) (i + ws.length) := by
  obtain ⟨token, k, found, rfl, -⟩ := next
  rw [read_eq, Scan.bind_of_ok (base_of_name name h stop brace)]
  refine Scan.loop_of_done ?_
  simp only [Scan.bind_of_ok (Scan.tell_apply s _), Scan.bind_of_ok (Scan.peek_of_ahead rfl), Scan.bind_of_ok found,
    part_of_other _ _ noBracket noDot]
  rfl

end Target

end VimScript
