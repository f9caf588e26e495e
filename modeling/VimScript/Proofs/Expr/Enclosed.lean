import VimScript.Proofs.Expr.Printer
import VimScript.Proofs.Expr.Tiers

/-!
Reading an expression in parentheses, given that what is in them is read back.
-/

set_option autoImplicit false

namespace VimScript

variable {s : Source} {i j : Nat} {cs rest : List Char} {c : Char} {kind : TokenKind} {text : String}

namespace Token

/-- A token of the kind stands at the cursor, with the given text after it. -/
def Stands (s : Source) (i : Nat) (kind : TokenKind) (rest : List Char) : Prop :=
  ∃ token j, next s i = .ok token j ∧ token.kind = kind ∧ s.ahead j = rest

theorem Stands.symbol (text : String) (h : s.ahead i = cs) (found : symbol? cs = some (kind, text))
    (after : cs.drop text.length = rest) : Stands s i kind rest :=
  ⟨_, _, next_of_symbol h found, rfl, by rw [Source.ahead_add, h, after]⟩

theorem Stands.blank (h : s.ahead i = ' ' :: cs) (inner : Stands s (i + 1) kind rest) : Stands s i kind rest := by
  obtain ⟨token, j, read, same, after⟩ := inner
  have blanks : ∀ x ∈ [' '], CharClass.white.has x = true := List.all_eq_true.mp rfl
  exact ⟨token, j, (next_blanks [' '] h blanks).trans read, same, after⟩

end Token

namespace Node

/-- A scan reads a tree, up to positions, and leaves a text ahead. -/
def ReadBy (t : Node) (x : Scan Node) (s : Source) (i : Nat) (rest : List Char) : Prop :=
  ∃ n j, x s i = .ok n j ∧ n.bare = t.bare ∧ s.ahead j = rest

end Node

namespace Expr

open Node Token

/-- Tokens that no expression goes on with. -/
def isEnd : TokenKind → Bool
  | .eol | .parenClose | .bracketClose | .braceClose | .comma | .colon => true
  | _ => false

def EndsAt (s : Source) (i : Nat) : Prop :=
  ∃ token j, Token.next s i = .ok token j ∧ isEnd token.kind = true

def endMarks : List Char :=
  [')', '\n', ']', '\x7d', ',', ':']

theorem endsAt_of_mark (h : s.ahead i = c :: cs) (mark : c ∈ endMarks) : EndsAt s i := by
  simp only [endMarks, List.mem_cons, List.not_mem_nil, or_false] at mark
  rcases mark with rfl | rfl | rfl | rfl | rfl | rfl
  · exact ⟨_, _, next_of_symbol h rfl, rfl⟩
  · exact ⟨_, _, next_of_newline h, rfl⟩
  · exact ⟨_, _, next_of_symbol h rfl, rfl⟩
  · exact ⟨_, _, next_of_symbol h rfl, rfl⟩
  · exact ⟨_, _, next_of_symbol h rfl, rfl⟩
  · exact ⟨_, _, next_of_symbol h rfl, rfl⟩

theorem operatorAbove_of_isEnd (level : Nat) (h : isEnd kind = true) : operatorAbove level kind = none := by
  match level with
  | 0 | 1 | 2 | 3 | 4 => cases kind <;> simp [isEnd] at h <;> rfl
  | _ + 5 => rfl

variable {expr primary : Scan Node} {left n : Node} {token : Token} {k m : Nat} {adjacent : Bool}

theorem postfixPart_of_other (start : Nat) (noCall : token.kind ≠ .parenOpen) (noMethod : token.kind ≠ .arrow)
    (apart : adjacent = false ∨ token.kind ≠ .bracketOpen ∧ token.kind ≠ .dot) :
    postfixPart expr primary left start token adjacent = (do
      Scan.seek start
      return .done left) := by
  unfold postfixPart
  split <;> simp_all

theorem postfixTurn_of_next (next : Token.next s j = .ok token k) :
    postfixTurn expr primary left s j =
      postfixPart expr primary left j token (!CharClass.white.hasOpt (s.ahead j).head?) s k := by
  simp only [postfixTurn, Scan.bind_of_ok (Scan.tell_apply s j), Scan.bind_of_ok (Scan.peek_of_ahead rfl),
    Scan.bind_of_ok next]

theorem postfixTurn_of_ends (ends : EndsAt s j) : postfixTurn expr primary left s j = .ok (.done left) j := by
  obtain ⟨token, k, next, isEnd⟩ := ends
  rw [postfixTurn_of_next next, postfixPart_of_other]
  · rfl
  · rintro same
    simp [same, Expr.isEnd] at isEnd
  · rintro same
    simp [same, Expr.isEnd] at isEnd
  · refine .inr ⟨?_, ?_⟩ <;>
      · rintro same
        simp [same, Expr.isEnd] at isEnd

theorem postfixed_of_ends (read : primary s i = .ok n j) (ends : EndsAt s j) :
    postfixed expr primary s i = .ok n j := by
  rw [postfixed_eq, Scan.bind_of_ok read]
  exact Scan.loop_of_done (postfixTurn_of_ends ends)

/-- An operator after a blank is no part of the operand before it. -/
theorem postfixed_of_operator (read : primary s i = .ok n j) (next : Token.next s j = .ok token k)
    (blank : CharClass.white.hasOpt (s.ahead j).head? = true) (noCall : token.kind ≠ .parenOpen)
    (noMethod : token.kind ≠ .arrow) : postfixed expr primary s i = .ok n j := by
  rw [postfixed_eq, Scan.bind_of_ok read]
  refine Scan.loop_of_done ?_
  rw [postfixTurn_of_next next, postfixPart_of_other j noCall noMethod (.inl (by simp [blank]))]
  rfl

/-- One part after an operand, and then the end. -/
theorem postfixed_of_part (read : primary s i = .ok left j)
    (part : postfixTurn expr primary left s j = .ok (.again n) m) (ends : EndsAt s m) :
    postfixed expr primary s i = .ok n m := by
  rw [postfixed_eq, Scan.bind_of_ok read]
  exact Scan.loop_of_again n part (postfixTurn_of_ends ends)

theorem nested_of_tier {depth level : Nat} (within : level ≤ 5)
    (read : tier (nested depth) level s i = .ok n j) (ends : EndsAt s j) : nested (depth + 1) s i = .ok n j := by
  obtain ⟨token, k, next, isEnd⟩ := ends
  have all : tier (nested depth) 5 s i = .ok n j :=
    tier_of_tighter within read next fun level _ _ => operatorAbove_of_isEnd level isEnd
  have noQuestion : token.kind ≠ .question := by
    intro same
    simp [same, Expr.isEnd] at isEnd
  exact ternary_of_operand all next noQuestion

theorem nested_of_postfixed {depth : Nat} (first : Token.next s i = .ok token k) (plain : token.kind.unary? = none)
    (read : postfixed (nested depth) (Expr.primary (nested depth)) s i = .ok n j) (ends : EndsAt s j) :
    nested (depth + 1) s i = .ok n j := by
  have operand : tier (nested depth) 0 s i = .ok n j := prefixed_of_operand first plain read
  exact nested_of_tier (by omega) operand ends

/-! ### Parentheses -/

/-- A text that goes on where an expression on its own ends. -/
def Closes (rest : List Char) : Prop :=
  ∃ c cs, rest = c :: cs ∧ (c = ')' ∨ c = '\n')

/-- A tree is what its text is read as, and the text does not open like parameters of a lambda. -/
structure ReadsBack (dots : Dots) (t : Node) : Prop where
  start : ∀ {s : Source} {i : Nat} {rest : List Char}, s.ahead i = t.render dots ++ rest → Closes rest →
    ∃ token j, Token.next s i = .ok token j ∧ token.kind ≠ .arrow ∧ token.kind ≠ .comma
  read : ∀ {s : Source} {i depth : Nat} {rest : List Char}, s.ahead i = t.render dots ++ rest → Closes rest →
    (t.render dots).length < depth → t.ReadBy (nested depth) s i rest

/-- A tree in parentheses stands at the cursor, with the given text after it. -/
def Opens (dots : Dots) (t : Node) (s : Source) (i : Nat) (rest : List Char) : Prop :=
  Token.Stands s i .parenOpen (t.render dots ++ ')' :: rest)

variable {dots : Dots} {t : Node}

theorem opens_of_enclosed (h : s.ahead i = enclosed (t.render dots) ++ rest) : Opens dots t s i rest := by
  have whole : s.ahead i = '(' :: (t.render dots ++ ')' :: rest) := by simpa [enclosed] using h
  exact .symbol "(" whole rfl rfl

theorem opens_of_blank (h : s.ahead i = ' ' :: (enclosed (t.render dots) ++ rest)) : Opens dots t s i rest :=
  .blank h (opens_of_enclosed (Source.ahead_of_cons h))

theorem primary_of_opens {depth : Nat} (back : ReadsBack dots t) (opens : Opens dots t s i rest)
    (deep : (t.render dots).length < depth) : t.ReadBy (Expr.primary (nested depth)) s i rest := by
  obtain ⟨token, j, next, kind, after⟩ := opens
  obtain ⟨n, k, read, same, last⟩ := back.read after ⟨')', rest, rfl, .inl rfl⟩ deep
  have close : Token.next s k = .ok ⟨.parenClose, ")", s.position k⟩ (k + 1) := next_of_symbol last rfl
  refine ⟨n, k + 1, ?_, same, Source.ahead_of_cons last⟩
  simp only [Expr.primary, Scan.bind_of_ok (Scan.tell_apply s i), Scan.bind_of_ok next, kind,
    Scan.bind_of_ok read, Scan.bind_of_ok close]
  rfl

theorem nested_of_opens {depth : Nat} {c : Char} {cs : List Char} (back : ReadsBack dots t)
    (opens : Opens dots t s i (c :: cs)) (mark : c ∈ endMarks) (deep : (t.render dots).length + 1 < depth) :
    t.ReadBy (nested depth) s i (c :: cs) := by
  obtain ⟨depth, rfl⟩ : ∃ below, depth = below + 1 := ⟨depth - 1, by omega⟩
  have inner : (t.render dots).length < depth := by omega
  obtain ⟨n, j, read, same, after⟩ := primary_of_opens back opens inner
  obtain ⟨token, k, next, kind, -⟩ := opens
  have ends : EndsAt s j := endsAt_of_mark after mark
  exact ⟨n, j, nested_of_postfixed next (by rw [kind]; rfl) (postfixed_of_ends read ends) ends, same, after⟩

end Expr

end VimScript
