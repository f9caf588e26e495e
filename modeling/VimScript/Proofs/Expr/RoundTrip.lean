import VimScript.Proofs.Expr.Lambdas
import VimScript.Proofs.Expr.Names
import VimScript.Proofs.Expr.Parts

/-!
Printed expressions are read back. The induction is over the trees that are printed; every subtree but the whole one
stands in parentheses, which is how the readers of the enclosing forms meet it.
-/

set_option autoImplicit false

namespace VimScript

variable {s : Source} {i j : Nat} {cs rest : List Char} {dots : Dots} {depth : Nat}

namespace BinaryOp

/-- The kind of token an operator is read as. -/
def token (dots : Dots) : BinaryOp → TokenKind
  | .or => .orOr
  | .and => .andAnd
  | .compare test mode => .compare test mode
  | .add => .plus
  | .subtract => .minus
  | .concat =>
    match dots with
    | .one => .dot
    | .two => .dotDot
  | .multiply => .star
  | .divide => .slash
  | .remainder => .percent

theorem token_ne (op : BinaryOp) (dots : Dots) : op.token dots ≠ .parenOpen ∧ op.token dots ≠ .arrow := by
  cases op <;> cases dots <;> simp [token]

/-- How many levels bind tighter than an operator does. -/
def level : BinaryOp → Nat
  | .multiply | .divide | .remainder => 0
  | .add | .subtract | .concat => 1
  | .compare _ _ => 2
  | .and => 3
  | .or => 4

theorem operatorAbove_level (op : BinaryOp) : Expr.operatorAbove op.level (op.token dots) = some op := by
  cases op <;> cases dots <;> rfl

theorem level_lt (op : BinaryOp) : op.level < 5 := by
  cases op <;> simp [level]

theorem operatorAbove_below (op : BinaryOp) {level : Nat} (tighter : level < op.level) :
    Expr.operatorAbove level (op.token dots) = none := by
  have bound := level_lt op
  match level with
  | 0 | 1 | 2 | 3 => cases op <;> cases dots <;> first | rfl | simp [BinaryOp.level] at tighter
  | _ + 4 => omega

/-- An operator with a blank after it is a token of its own. -/
theorem next (op : BinaryOp) (h : s.ahead i = op.sign dots ++ ' ' :: cs) :
    Token.next s i = .ok ⟨op.token dots, String.ofList (op.sign dots), s.position i⟩ (i + (op.sign dots).length) := by
  cases op with
  | compare test mode =>
    by_cases identity : test = .is ∨ test = .isNot
    · have text : (BinaryOp.compare test mode).sign dots = Token.identityText test mode := by
        simp [sign, symbol, Token.identityText]
      rw [text] at h ⊢
      exact Token.next_of_identity test mode identity h
    · cases test <;> simp at identity <;> cases mode <;> exact Token.next_of_symbol h rfl
  | concat => cases dots <;> exact Token.next_of_symbol h rfl
  | _ => exact Token.next_of_symbol h rfl

theorem stands (op : BinaryOp) (h : s.ahead i = op.sign dots ++ ' ' :: '(' :: cs) :
    Token.Stands s i (op.token dots) (' ' :: '(' :: cs) :=
  ⟨_, _, op.next h, rfl, Source.ahead_of_append h⟩

end BinaryOp

namespace Expr

open Node

variable {t a b c : Node} {position : Position} {text : String}

/-! ### Starts and ends -/

/-- The first token of an operand without unary operators. -/
def IsPlain (kind : TokenKind) : Prop :=
  kind.unary? = none ∧ kind ≠ .arrow ∧ kind ≠ .comma

instance (kind : TokenKind) : Decidable (IsPlain kind) :=
  inferInstanceAs (Decidable (_ ∧ _ ∧ _))

theorem Closes.endsAt (closes : Closes rest) (h : s.ahead i = rest) : EndsAt s i := by
  obtain ⟨c, cs, rfl, mark⟩ := closes
  refine endsAt_of_mark h ?_
  rcases mark with rfl | rfl <;> decide

theorem Closes.not_name (closes : Closes rest) : CharClass.name.hasOpt rest.head? = false := by
  obtain ⟨c, cs, rfl, mark⟩ := closes
  rcases mark with rfl | rfl <;> rfl

/-- No name, number or string goes on where an expression closes. -/
theorem Closes.head_ne (closes : Closes rest) {c : Char} (paren : c ≠ ')') (line : c ≠ '\n') :
    rest.head? ≠ some c := by
  obtain ⟨d, cs, rfl, mark⟩ := closes
  rcases mark with rfl | rfl
  · simpa using Ne.symm paren
  · simpa using Ne.symm line

/-- Enough for a tree that reads as a single operand with its parts. -/
theorem readsBack_of_postfixed
    (reads : ∀ {s : Source} {i depth : Nat} {rest : List Char}, s.ahead i = t.render dots ++ rest → Closes rest →
      (t.render dots).length ≤ depth →
        (∃ token k, Token.next s i = .ok token k ∧ IsPlain token.kind) ∧
          t.ReadBy (postfixed (nested depth) (primary (nested depth))) s i rest) : ReadsBack dots t where
  start h closes := by
    obtain ⟨⟨token, k, next, -, noArrow, noComma⟩, -⟩ := reads h closes (Nat.le_refl _)
    exact ⟨token, k, next, noArrow, noComma⟩
  read {s i depth rest} h closes deep := by
    obtain ⟨depth, rfl⟩ : ∃ below, depth = below + 1 := ⟨depth - 1, by omega⟩
    have within : (t.render dots).length ≤ depth := by omega
    obtain ⟨⟨token, k, next, plain, -⟩, n, j, read, same, after⟩ := reads h closes within
    exact ⟨n, j, nested_of_postfixed next plain read (closes.endsAt after), same, after⟩

theorem readsBack_of_primary
    (reads : ∀ {s : Source} {i depth : Nat} {rest : List Char}, s.ahead i = t.render dots ++ rest → Closes rest →
      (t.render dots).length ≤ depth →
        (∃ token k, Token.next s i = .ok token k ∧ IsPlain token.kind) ∧
          t.ReadBy (primary (nested depth)) s i rest) : ReadsBack dots t := by
  refine readsBack_of_postfixed fun {s i depth rest} h closes deep => ?_
  obtain ⟨first, n, j, read, same, after⟩ := reads h closes deep
  exact ⟨first, n, j, postfixed_of_ends read (closes.endsAt after), same, after⟩

theorem plain_of_opens (opens : Opens dots t s i rest) :
    ∃ token k, Token.next s i = .ok token k ∧ IsPlain token.kind := by
  obtain ⟨token, k, next, kind, -⟩ := opens
  refine ⟨token, k, next, ?_⟩
  rw [kind]
  decide

/-- An operand in parentheses with one part after it. -/
theorem readsBack_of_part {left : Node} (back : ReadsBack dots left) (tail : List Char)
    (shape : t.render dots = enclosed (left.render dots) ++ tail)
    (part : ∀ {s : Source} {k depth : Nat} {rest : List Char} {n : Node}, n.bare = left.bare →
      s.ahead k = tail ++ rest → Closes rest → tail.length + 2 ≤ depth →
        ∃ found j, postfixTurn (nested depth) (primary (nested depth)) n s k = .ok (.again found) j ∧
          found.bare = t.bare ∧ s.ahead j = rest) : ReadsBack dots t := by
  refine readsBack_of_postfixed fun {s i depth rest} h closes deep => ?_
  rw [shape, List.append_assoc] at h
  rw [shape, List.length_append, length_enclosed] at deep
  have within : (left.render dots).length < depth := by omega
  have long : tail.length + 2 ≤ depth := by omega
  have opens := opens_of_enclosed h
  obtain ⟨n, k, read, same, after⟩ := primary_of_opens back opens within
  obtain ⟨found, j, next, same', after'⟩ := part same after closes long
  exact ⟨plain_of_opens opens, found, j, postfixed_of_part read next (closes.endsAt after'), same', after'⟩

/-! ### Leaves -/

theorem readsBack_number (decimal : Token.IsDecimal text.toList) :
    ReadsBack dots (.leaf .number text position) := by
  refine readsBack_of_primary fun {s i depth rest} h closes _ => ?_
  rw [render_leaf] at h
  have next := Token.next_of_decimal h decimal closes.not_name (closes.head_ne (by decide) (by decide))
  rw [String.ofList_toList] at next
  refine ⟨⟨_, _, next, of_decide_eq_true rfl⟩, .leaf .number text (s.position i), _, ?_, by simp, Source.ahead_of_append h⟩
  simp only [primary, Scan.bind_of_ok (Scan.tell_apply s i), Scan.bind_of_ok next]
  rfl

theorem readsBack_name (name : Token.IsName text.toList) : ReadsBack dots (.leaf .identifier text position) := by
  refine readsBack_of_primary fun {s i depth rest} h closes _ => ?_
  rw [render_leaf] at h
  have next := Token.next_of_name h name closes.not_name
  have read := name_of_text (nested depth) name.ne_nil name.head name.inside closes.not_name
    (closes.head_ne (by decide) (by decide)) h
  rw [String.ofList_toList] at read
  refine ⟨⟨_, _, next, of_decide_eq_true rfl⟩, .identifier text (s.position i), _, ?_, by simp [Node.identifier],
    Source.ahead_of_append h⟩
  simp only [primary, Scan.bind_of_ok (Scan.tell_apply s i), Scan.bind_of_ok next, Scan.bind_of_ok (Scan.seek_apply i s _)]
  exact read

theorem readsBack_singleQuoted {body : List Char} (quoted : Token.SingleQuoted body) :
    ReadsBack dots (.leaf .string (String.ofList ('\'' :: (body ++ ['\'']))) position) := by
  refine readsBack_of_primary fun {s i depth rest} h closes _ => ?_
  have whole : s.ahead i = '\'' :: (body ++ '\'' :: rest) := by simpa using h
  have next : Token.next s i = .ok ⟨.singleQuote, "'", s.position i⟩ (i + 1) := Token.next_of_symbol whole rfl
  have read := quoted.read whole (closes.head_ne (by decide) (by decide))
  have value : "'" ++ String.ofList body ++ "'" = String.ofList ('\'' :: (body ++ ['\''])) := by
    rw [show "'" = String.ofList ['\''] from rfl, ← String.ofList_append, ← String.ofList_append]
    rfl
  have after : s.ahead (i + 1 + body.length + 1) = rest :=
    Source.ahead_of_cons (Source.ahead_of_append (Source.ahead_of_cons whole))
  refine ⟨⟨_, _, next, of_decide_eq_true rfl⟩, .leaf .string (String.ofList ('\'' :: (body ++ ['\'']))) (s.position i), _, ?_, by simp, after⟩
  simp only [primary, Scan.bind_of_ok (Scan.tell_apply s i), Scan.bind_of_ok next,
    Scan.bind_of_ok (Scan.seek_apply i s (i + 1)), Scan.bind_of_ok read, value]
  rfl

theorem readsBack_doubleQuoted {body : List Char} (quoted : Token.DoubleQuoted body) :
    ReadsBack dots (.leaf .string (String.ofList ('"' :: (body ++ ['"']))) position) := by
  refine readsBack_of_primary fun {s i depth rest} h closes _ => ?_
  have whole : s.ahead i = '"' :: (body ++ '"' :: rest) := by simpa using h
  have next : Token.next s i = .ok ⟨.doubleQuote, "\"", s.position i⟩ (i + 1) := Token.next_of_symbol whole rfl
  have read := quoted.read whole
  have value : "\"" ++ String.ofList body ++ "\"" = String.ofList ('"' :: (body ++ ['"'])) := by
    rw [show "\"" = String.ofList ['"'] from rfl, ← String.ofList_append, ← String.ofList_append]
    rfl
  have after : s.ahead (i + 1 + body.length + 1) = rest :=
    Source.ahead_of_cons (Source.ahead_of_append (Source.ahead_of_cons whole))
  refine ⟨⟨_, _, next, of_decide_eq_true rfl⟩, .leaf .string (String.ofList ('"' :: (body ++ ['"']))) (s.position i), _, ?_, by simp, after⟩
  simp only [primary, Scan.bind_of_ok (Scan.tell_apply s i), Scan.bind_of_ok next,
    Scan.bind_of_ok (Scan.seek_apply i s (i + 1)), Scan.bind_of_ok read, value]
  rfl

theorem readsBack_option {ws : List Char} (some : ws ≠ []) (word : ∀ c ∈ ws, CharClass.word.has c = true) :
    ReadsBack dots (.leaf .option (String.ofList ('&' :: ws)) position) := by
  refine readsBack_of_primary fun {s i depth rest} h closes _ => ?_
  obtain ⟨w, ws, rfl⟩ := List.exists_cons_of_ne_nil some
  have whole : s.ahead i = '&' :: w :: (ws ++ rest) := by simpa using h
  have next := Token.next_of_option whole word closes.not_name
  have after : s.ahead (i + 1 + (w :: ws).length) = rest := Source.ahead_of_append (Source.ahead_of_cons whole)
  refine ⟨⟨_, _, next, of_decide_eq_true rfl⟩, .leaf .option (String.ofList ('&' :: w :: ws)) (s.position i), _, ?_, by simp, after⟩
  simp only [primary, Scan.bind_of_ok (Scan.tell_apply s i), Scan.bind_of_ok next]
  rfl

theorem readsBack_env {ws : List Char} (word : ∀ c ∈ ws, CharClass.word.has c = true) :
    ReadsBack dots (.leaf .env (String.ofList ('$' :: ws)) position) := by
  refine readsBack_of_primary fun {s i depth rest} h closes _ => ?_
  have whole : s.ahead i = '$' :: (ws ++ rest) := by simpa using h
  have next := Token.next_of_env whole word closes.not_name
  have after : s.ahead (i + 1 + ws.length) = rest := Source.ahead_of_append (Source.ahead_of_cons whole)
  refine ⟨⟨_, _, next, of_decide_eq_true rfl⟩, .leaf .env (String.ofList ('$' :: ws)) (s.position i), _, ?_, by simp, after⟩
  simp only [primary, Scan.bind_of_ok (Scan.tell_apply s i), Scan.bind_of_ok next]
  rfl

theorem readsBack_register {c : Char} (line : c ≠ '\n') :
    ReadsBack dots (.leaf .register (String.ofList ['@', c]) position) := by
  refine readsBack_of_primary fun {s i depth rest} h closes _ => ?_
  have whole : s.ahead i = '@' :: c :: rest := by simpa using h
  have next := Token.next_of_register whole line
  have after : s.ahead (i + 2) = rest := Source.ahead_of_cons (Source.ahead_of_cons whole)
  refine ⟨⟨_, _, next, of_decide_eq_true rfl⟩, .leaf .register (String.ofList ['@', c]) (s.position i), _, ?_, by simp, after⟩
  simp only [primary, Scan.bind_of_ok (Scan.tell_apply s i), Scan.bind_of_ok next]
  rfl

/-! ### Operators -/

/-- An operand that a blank and a token of another level follow. -/
theorem operand_of_blank {kind : TokenKind} {tail : List Char} (high : Nat) (back : ReadsBack dots t)
    (deep : (t.render dots).length < depth) (opens : Opens dots t s i (' ' :: cs))
    (sign : ∀ {j : Nat}, s.ahead j = ' ' :: cs → Token.Stands s j kind tail) (noCall : kind ≠ .parenOpen)
    (noMethod : kind ≠ .arrow) (other : ∀ level < high, operatorAbove level kind = none) :
    ∃ n j token k, tier (nested depth) high s i = .ok n j ∧ n.bare = t.bare ∧ Token.next s j = .ok token k ∧
      token.kind = kind ∧ s.ahead k = tail := by
  obtain ⟨n, j, read, same, after⟩ := primary_of_opens back opens deep
  obtain ⟨token, k, next, rfl, after'⟩ := sign after
  obtain ⟨first, m, paren, plain, -⟩ := plain_of_opens opens
  have operand : postfixed (nested depth) (primary (nested depth)) s i = .ok n j :=
    postfixed_of_operator read next (by rw [after]; rfl) noCall noMethod
  have lowest : tier (nested depth) 0 s i = .ok n j := prefixed_of_operand paren plain operand
  exact ⟨n, j, token, k, tier_of_tighter (Nat.zero_le high) lowest next fun level _ below => other level below, same,
    next, rfl, after'⟩

theorem operand_of_closes (high : Nat) (back : ReadsBack dots t) (deep : (t.render dots).length < depth)
    (opens : Opens dots t s i rest) (closes : Closes rest) : t.ReadBy (tier (nested depth) high) s i rest := by
  obtain ⟨n, j, read, same, after⟩ := primary_of_opens back opens deep
  obtain ⟨first, m, paren, plain, -⟩ := plain_of_opens opens
  have ends : EndsAt s j := closes.endsAt after
  have lowest : tier (nested depth) 0 s i = .ok n j := prefixed_of_operand paren plain (postfixed_of_ends read ends)
  obtain ⟨last, k, next, isEnd⟩ := ends
  refine ⟨n, j, ?_, same, after⟩
  exact tier_of_tighter (Nat.zero_le high) lowest next fun level _ _ => operatorAbove_of_isEnd level isEnd

theorem readsBack_binary (op : BinaryOp) (left : ReadsBack dots a) (right : ReadsBack dots b) :
    ReadsBack dots (.mk position (.binary op a b)) where
  start {s i rest} h _ := by
    rw [render_mk] at h
    obtain ⟨token, j, next, kind, -⟩ := opens_of_enclosed (t := a) (h.trans (List.append_assoc _ _ _))
    exact ⟨token, j, next, by simp [kind], by simp [kind]⟩
  read {s i depth rest} h closes deep := by
    obtain ⟨depth, rfl⟩ : ∃ below, depth = below + 1 := ⟨depth - 1, by omega⟩
    have lengths : (a.render dots).length < depth ∧ (b.render dots).length < depth := by
      simp [render_mk, Kind.map, renderKind, enclosed] at deep
      omega
    have whole : s.ahead i = enclosed (a.render dots) ++ ' ' :: (op.sign dots ++ ' ' :: (enclosed (b.render dots) ++ rest)) := by
      simpa [render_mk, Kind.map, renderKind] using h
    obtain ⟨l, j, token, k, readLeft, sameLeft, next, kind, after⟩ :=
      operand_of_blank op.level left lengths.1 (opens_of_enclosed whole)
        (fun ahead => .blank ahead (op.stands (Source.ahead_of_cons ahead))) (op.token_ne dots).1 (op.token_ne dots).2
        fun level below => op.operatorAbove_below below
    obtain ⟨r, m, readRight, sameRight, after'⟩ :=
      operand_of_closes op.level right lengths.2 (opens_of_blank after) closes
    have found : operatorAbove op.level token.kind = some op := by rw [kind, op.operatorAbove_level]
    have ends : EndsAt s m := closes.endsAt after'
    obtain ⟨last, e, next', isEnd⟩ := ends
    have pair := tier_of_pair op.level readLeft next found readRight next' (operatorAbove_of_isEnd op.level isEnd)
    refine ⟨.mk token.position (.binary op l r), m, ?_, by simp [Kind.map, sameLeft, sameRight], after'⟩
    exact nested_of_tier op.level_lt pair (closes.endsAt after')

theorem stands_unary (op : UnaryOp) (h : s.ahead i = op.symbol.toList ++ '(' :: cs) :
    ∃ kind, Token.Stands s i kind ('(' :: cs) ∧ kind.unary? = some op ∧ kind ≠ .arrow ∧ kind ≠ .comma := by
  cases op with
  | not => exact ⟨.not, .symbol "!" h rfl rfl, rfl, by decide, by decide⟩
  | minus => exact ⟨.minus, .symbol "-" h rfl rfl, rfl, by decide, by decide⟩
  | plus => exact ⟨.plus, .symbol "+" h rfl rfl, rfl, by decide, by decide⟩

theorem readsBack_unary (op : UnaryOp) (value : ReadsBack dots a) :
    ReadsBack dots (.mk position (.unary op a)) where
  start {s i rest} h _ := by
    have whole : s.ahead i = op.symbol.toList ++ '(' :: (a.render dots ++ ')' :: rest) := by
      simpa [render_mk, Kind.map, renderKind, enclosed] using h
    obtain ⟨_, ⟨token, j, next, rfl, -⟩, -, noArrow, noComma⟩ := stands_unary op whole
    exact ⟨token, j, next, noArrow, noComma⟩
  read {s i depth rest} h closes deep := by
    obtain ⟨depth, rfl⟩ : ∃ below, depth = below + 1 := ⟨depth - 1, by omega⟩
    have lengths : (a.render dots).length < depth := by
      simp [render_mk, Kind.map, renderKind, enclosed] at deep
      omega
    have whole : s.ahead i = op.symbol.toList ++ '(' :: (a.render dots ++ ')' :: rest) := by
      simpa [render_mk, Kind.map, renderKind, enclosed] using h
    obtain ⟨_, ⟨token, j, next, rfl, after⟩, found, -⟩ := stands_unary op whole
    have opens : Opens dots a s j rest := .symbol "(" after rfl rfl
    obtain ⟨n, k, read, same, after'⟩ := primary_of_opens value opens lengths
    obtain ⟨first, m, paren, plain, -⟩ := plain_of_opens opens
    have ends : EndsAt s k := closes.endsAt after'
    have lowest : tier (nested depth) 0 s i = .ok (.mk token.position (.unary op n)) k :=
      prefixed_of_sign next found paren plain (postfixed_of_ends read ends)
    exact ⟨.mk token.position (.unary op n), k, nested_of_tier (by omega) lowest ends, by simp [Kind.map, same], after'⟩

theorem readsBack_ternary (cond : ReadsBack dots a) (yes : ReadsBack dots b) (no : ReadsBack dots c) :
    ReadsBack dots (.mk position (.ternary a b c)) where
  start {s i rest} h _ := by
    rw [render_mk] at h
    obtain ⟨token, j, next, kind, -⟩ := opens_of_enclosed (t := a) (h.trans (List.append_assoc _ _ _))
    exact ⟨token, j, next, by simp [kind], by simp [kind]⟩
  read {s i depth rest} h closes deep := by
    obtain ⟨depth, rfl⟩ : ∃ below, depth = below + 2 := by
      simp [render_mk, Kind.map, renderKind, enclosed] at deep
      exact ⟨depth - 2, by omega⟩
    have lengths : (a.render dots).length < depth + 1 ∧ (b.render dots).length < depth ∧
        (c.render dots).length + 1 < depth + 1 := by
      simp [render_mk, Kind.map, renderKind, enclosed] at deep
      omega
    have whole : s.ahead i = enclosed (a.render dots) ++ ' ' :: '?' :: ' ' :: (enclosed (b.render dots) ++
        ' ' :: ':' :: ' ' :: (enclosed (c.render dots) ++ rest)) := by
      simpa [render_mk, Kind.map, renderKind] using h
    obtain ⟨l, j, question, k, readCond, sameCond, next, isQuestion, after⟩ :=
      operand_of_blank 5 cond lengths.1 (opens_of_enclosed whole)
        (fun ahead => .blank ahead (.symbol "?" (Source.ahead_of_cons ahead) rfl rfl)) (by decide) (by decide) (by decide)
    obtain ⟨m, e, colon, e', readYes, sameYes, next', isColon, after'⟩ :=
      operand_of_blank 5 yes lengths.2.1 (opens_of_blank after)
        (fun ahead => .blank ahead (.symbol ":" (Source.ahead_of_cons ahead) rfl rfl)) (by decide) (by decide) (by decide)
    have yes : nested (depth + 1) s k = .ok m e := ternary_of_operand readYes next' (by simp [isColon])
    obtain ⟨d, ds, rfl, mark⟩ := closes
    obtain ⟨r, last, readNo, sameNo, after''⟩ :=
      nested_of_opens no (opens_of_blank after') (by rcases mark with rfl | rfl <;> decide) lengths.2.2
    refine ⟨.mk question.position (.ternary l m r), last, ?_, by simp [Kind.map, sameCond, sameYes, sameNo], after''⟩
    exact ternary_of_branches readCond next isQuestion yes next' isColon readNo

/-! ### Parts after an operand -/

theorem length_le_listed {text : List Char} {texts : List (List Char)} (place : text ∈ texts) :
    text.length ≤ (listed texts).length := by
  induction texts with
  | nil => cases place
  | cons first texts ih =>
    cases texts with
    | nil =>
      obtain rfl : text = first := by simpa using place
      simp [listed]
    | cons second texts =>
      rcases List.mem_cons.mp place with rfl | later
      · simp [listed]
      · have inner := ih later
        simp only [listed, List.length_append, List.length_cons] at inner ⊢
        omega

theorem allReadBack_of_listed {ts : List Node} (back : ∀ t ∈ ts, ReadsBack dots t)
    (deep : (listed (ts.map fun t => enclosed (t.render dots))).length < depth) : AllReadBack dots depth ts := by
  intro t place
  have within := length_le_listed (List.mem_map_of_mem (f := fun t => enclosed (t.render dots)) place)
  rw [length_enclosed] at within
  exact ⟨back t place, by omega⟩

theorem readsBack_subscript (left : ReadsBack dots a) (index : ReadsBack dots b) :
    ReadsBack dots (.mk position (.subscript a b)) := by
  refine readsBack_of_part left ('[' :: (enclosed (b.render dots) ++ [']'])) (render_mk _ _ _) ?_
  intro s k depth rest n same after _ deep
  have lengths : (b.render dots).length + 1 < depth := by
    simp only [List.length_cons, List.length_append, length_enclosed] at deep
    omega
  have opened : s.ahead k = '[' :: (enclosed (b.render dots) ++ ']' :: rest) := by simpa using after
  obtain ⟨found, j, turn, same', after'⟩ := postfixTurn_subscript (primary (nested depth)) n index lengths opened
  exact ⟨_, j, turn, by simp [Kind.map, same, same'], after'⟩

theorem length_le_bound {n : Node} {end? : Option Node} (place : n ∈ end?) :
    (n.render dots).length + 2 ≤ (bound (end?.map (render dots))).length := by
  obtain rfl : end? = some n := place
  simp [bound]

theorem readsBack_slice {lower upper : Option Node} (left : ReadsBack dots a)
    (below : ∀ n ∈ lower, ReadsBack dots n) (above : ∀ n ∈ upper, ReadsBack dots n) :
    ReadsBack dots (.mk position (.slice a lower upper)) := by
  refine readsBack_of_part left ('[' :: (bound (lower.map (render dots)) ++
    ':' :: (bound (upper.map (render dots)) ++ [']']))) (render_mk _ _ _) ?_
  intro s k depth rest n same after _ deep
  have lengths : ∀ m, m ∈ lower ∨ m ∈ upper → (m.render dots).length + 1 < depth := by
    simp only [List.length_cons, List.length_append] at deep
    intro m place
    rcases place with inLower | inUpper
    · have bound : (m.render dots).length + 2 ≤ _ := length_le_bound inLower
      omega
    · have bound : (m.render dots).length + 2 ≤ _ := length_le_bound inUpper
      omega
  have opened : s.ahead k = '[' :: (bound (lower.map (render dots)) ++
      ':' :: (bound (upper.map (render dots)) ++ ']' :: rest)) := by
    simpa using after
  obtain ⟨l, u, j, turn, sameLower, sameUpper, after'⟩ :=
    postfixTurn_slice (primary (nested depth)) n (fun bound place => ⟨below bound place, lengths bound (.inl place)⟩)
      (fun bound place => ⟨above bound place, lengths bound (.inr place)⟩) opened
  exact ⟨_, j, turn, by simp [Kind.map, same, sameLower, sameUpper], after'⟩

theorem hasMembers_of_bare {m n : Node} (same : m.bare = n.bare) : hasMembers m = hasMembers n := by
  simp [hasMembers, type_of_bare same]

theorem readsBack_dot {position' : Position} (left : ReadsBack dots a) (members : hasMembers a = true)
    (some : text.toList ≠ []) (word : ∀ c ∈ text.toList, CharClass.word.has c = true) :
    ReadsBack dots (.mk position (.dot a (.identifier text position'))) := by
  refine readsBack_of_part left ('.' :: text.toList) (by simp [render_mk, Kind.map, renderKind, Node.identifier]) ?_
  intro s k depth rest n same after closes _
  obtain ⟨c, cs, rfl, mark⟩ := closes
  have stop : CharClass.name.has c = false := by
    rcases mark with rfl | rfl <;> rfl
  obtain ⟨j, turn, after'⟩ := postfixTurn_dot (primary (nested depth)) n (nested depth)
    ((hasMembers_of_bare same).trans members) some word stop after
  exact ⟨_, j, turn, by simp [Kind.map, same, Node.identifier], after'⟩

theorem readsBack_call {args : List Node} (callee : ReadsBack dots a) (all : ∀ arg ∈ args, ReadsBack dots arg)
    (few : args.length ≤ maxArguments) : ReadsBack dots (.mk position (.call a args)) := by
  refine readsBack_of_part callee ('(' :: (listed (args.map fun arg => enclosed (arg.render dots)) ++ [')']))
    (by simp [render_mk, Kind.map, renderKind, Function.comp_def]) ?_
  intro s k depth rest n same after _ deep
  have back : AllReadBack dots depth args := by
    refine allReadBack_of_listed all ?_
    simp only [List.length_cons, List.length_append] at deep
    omega
  have opened : s.ahead k = '(' :: (listed (args.map fun arg => enclosed (arg.render dots)) ++ ')' :: rest) := by
    simpa using after
  obtain ⟨found, j, turn, same', after'⟩ := postfixTurn_call (primary (nested depth)) n back few opened
  exact ⟨_, j, turn, by simp [Kind.map, same, same'], after'⟩

theorem readsBack_method {position' : Position} {args : List Node} (left : ReadsBack dots a)
    (callee : ReadsBack dots b) (all : ∀ arg ∈ args, ReadsBack dots arg) (few : args.length ≤ maxArguments) :
    ReadsBack dots (.mk position (.method a (.mk position' (.call b args)))) := by
  refine readsBack_of_part left ('-' :: '>' :: (enclosed (b.render dots) ++
    '(' :: (listed (args.map fun arg => enclosed (arg.render dots)) ++ [')'])))
    (by simp [render_mk, Kind.map, renderKind, Function.comp_def]) ?_
  intro s k depth rest n same after _ deep
  simp only [List.length_cons, List.length_append, length_enclosed] at deep
  have lengths : (b.render dots).length < depth := by omega
  have back : AllReadBack dots depth args := allReadBack_of_listed all (by omega)
  have opened : s.ahead k = '-' :: '>' :: (enclosed (b.render dots) ++
      '(' :: (listed (args.map fun arg => enclosed (arg.render dots)) ++ ')' :: rest)) := by
    simpa using after
  obtain ⟨f, found, at', j, turn, sameCallee, sameArgs, after'⟩ :=
    postfixTurn_method n callee lengths back few opened
  exact ⟨_, j, turn, by simp [Kind.map, same, sameCallee, sameArgs], after'⟩

/-! ### Lists and braces -/

theorem readsBack_list {items : List Node} (all : ∀ item ∈ items, ReadsBack dots item) :
    ReadsBack dots (.mk position (.list items)) := by
  refine readsBack_of_primary fun {s i depth rest} h _ deep => ?_
  have whole : s.ahead i = '[' :: (listed (items.map fun a => enclosed (a.render dots)) ++ ']' :: rest) := by
    simpa [render_mk, Kind.map, renderKind, Function.comp_def] using h
  have back : AllReadBack dots depth items := by
    refine allReadBack_of_listed all ?_
    simp [render_mk, Kind.map, renderKind, Function.comp_def] at deep
    omega
  have next : Token.next s i = .ok ⟨.bracketOpen, "[", s.position i⟩ (i + 1) := Token.next_of_symbol whole rfl
  obtain ⟨found, j, read, same, after⟩ := list_of_listed (s.position i) back (Source.ahead_of_cons whole)
  refine ⟨⟨_, _, next, of_decide_eq_true rfl⟩, .mk (s.position i) (.list found), j, ?_, by simp [Kind.map, same], after⟩
  simp only [primary, Scan.bind_of_ok (Scan.tell_apply s i), Scan.bind_of_ok next]
  exact read

theorem next_of_brace (h : s.ahead i = '\x7b' :: cs) :
    Token.next s i = .ok ⟨.braceOpen, "\x7b", s.position i⟩ (i + 1) :=
  Token.next_of_symbol h rfl

theorem primary_of_brace (h : s.ahead i = '\x7b' :: cs) :
    primary (nested depth) s i = braces (nested depth) i ⟨.braceOpen, "\x7b", s.position i⟩ s (i + 1) := by
  simp only [primary, Scan.bind_of_ok (Scan.tell_apply s i), Scan.bind_of_ok (next_of_brace h)]

/-- An enclosed expression behind a brace is a key or a part of a name. -/
theorem primary_of_key (back : ReadsBack dots t) (h : s.ahead i = '\x7b' :: (enclosed (t.render dots) ++ cs)) :
    primary (nested depth) s i = dict (nested depth) (nested depth) i (s.position i) s (i + 1) := by
  rw [primary_of_brace h]
  obtain ⟨first, j, next, paren, after⟩ := opens_of_enclosed (Source.ahead_of_cons h)
  obtain ⟨second, k, next', noArrow, noComma⟩ := back.start after ⟨')', cs, rfl, .inl rfl⟩
  exact braces_of_other i rfl next (.inl paren) (Token.peek_of_next next') noArrow noComma

theorem render_dict (entries : List (Node × Node)) :
    (mk position (.dict entries)).render dots = '\x7b' :: (listed (entries.map (entryText dots)) ++ ['\x7d']) := by
  simp only [render_mk, Kind.map, renderKind, List.map_map]
  rfl

theorem bare_dict (entries : List (Node × Node)) :
    (mk position (.dict entries)).bare = mk .unset (.dict (entries.map bareEntry)) :=
  bare_mk position _

theorem readsBack_dict {entries : List (Node × Node)} (keys : ∀ entry ∈ entries, ReadsBack dots entry.1)
    (values : ∀ entry ∈ entries, ReadsBack dots entry.2) : ReadsBack dots (.mk position (.dict entries)) := by
  refine readsBack_of_primary fun {s i depth rest} h closes deep => ?_
  have whole : s.ahead i = '\x7b' :: (listed (entries.map (entryText dots)) ++ '\x7d' :: rest) := by
    simpa [render_dict] using h
  have lengths : ∀ entry ∈ entries,
      (entry.1.render dots).length + 1 < depth ∧ (entry.2.render dots).length + 1 < depth := by
    intro entry place
    have within := length_le_listed (List.mem_map_of_mem (f := entryText dots) place)
    have length : (entryText dots entry).length = (entry.1.render dots).length + (entry.2.render dots).length + 6 := by
      simp [entryText, enclosed]
      omega
    rw [render_dict, List.length_cons, List.length_append] at deep
    omega
  have allKeys : AllReadBack dots depth (entries.map Prod.fst) := by
    intro t place
    obtain ⟨entry, inside, rfl⟩ := List.mem_map.mp place
    exact ⟨keys entry inside, (lengths entry inside).1⟩
  have allValues : AllReadBack dots depth (entries.map Prod.snd) := by
    intro t place
    obtain ⟨entry, inside, rfl⟩ := List.mem_map.mp place
    exact ⟨values entry inside, (lengths entry inside).2⟩
  obtain ⟨found, j, read, same, after⟩ :=
    dict_of_listed i (s.position i) allKeys allValues (Source.ahead_of_cons whole)
  have reads : primary (nested depth) s i = dict (nested depth) (nested depth) i (s.position i) s (i + 1) := by
    cases entries with
    | nil =>
      rw [primary_of_brace whole]
      have inner : s.ahead (i + 1) = '\x7d' :: rest := Source.ahead_of_cons whole
      have close : Token.next s (i + 1) = .ok ⟨.braceClose, "\x7d", s.position (i + 1)⟩ (i + 1 + 1) :=
        Token.next_of_symbol inner rfl
      obtain ⟨second, peek, noArrow, noComma⟩ : ∃ second, Token.peek s (i + 1 + 1) = .ok second (i + 1 + 1) ∧
          second.kind ≠ .arrow ∧ second.kind ≠ .comma := by
        have last := Source.ahead_of_cons inner
        obtain ⟨c, cs, rfl, rfl | rfl⟩ := closes
        · exact ⟨_, Token.peek_of_next (Token.next_of_symbol last rfl), by simp, by simp⟩
        · exact ⟨_, Token.peek_of_next (Token.next_of_newline last), by simp, by simp⟩
      exact braces_of_other i rfl close (.inr rfl) peek noArrow noComma
    | cons entry entries =>
      obtain ⟨more, front⟩ : ∃ more, listed ((entry :: entries).map (entryText dots)) ++ '\x7d' :: rest =
          enclosed (entry.1.render dots) ++ more := by
        cases entries <;> simp [listed, entryText]
      exact primary_of_key (keys entry (by simp)) (by rw [whole, front])
  have bares : (mk (s.position i) (.dict found)).bare = (mk position (.dict entries)).bare := by
    rw [bare_dict, bare_dict, same]
  exact ⟨⟨_, _, next_of_brace whole, of_decide_eq_true rfl⟩, _, j, reads.trans read, bares, after⟩

theorem readsBack_lambda {params : List Node} (shape : Parameters params) (body : ReadsBack dots a) :
    ReadsBack dots (.mk position (.lambda params a)) := by
  refine readsBack_of_primary fun {s i depth rest} h _ deep => ?_
  have whole : s.ahead i = '\x7b' :: (listed (params.map (render dots)) ++
      ' ' :: '-' :: '>' :: ' ' :: (enclosed (a.render dots) ++ '\x7d' :: rest)) := by
    simpa [render_mk, Kind.map, renderKind] using h
  have lengths : (a.render dots).length + 1 < depth := by
    simp [render_mk, Kind.map, renderKind, enclosed] at deep
    omega
  obtain ⟨n, j, read, same, after⟩ :=
    braces_of_lambda i ⟨.braceOpen, "\x7b", s.position i⟩ shape body lengths (Source.ahead_of_cons whole)
  exact ⟨⟨_, _, next_of_brace whole, of_decide_eq_true rfl⟩, n, j, (primary_of_brace whole).trans read,
    same.trans (by simp), after⟩

/-! ### Names with braces -/

/-- A brace behind the first expression shows that it was a part of a name. -/
theorem dict_of_part {n : Node} {start : Nat} (position : Position) (back : ReadsBack dots t) (deep : (t.render dots).length + 1 < depth)
    (h : s.ahead i = enclosed (t.render dots) ++ '\x7d' :: cs) (found : name (nested depth) s start = .ok n j) :
    dict (nested depth) (nested depth) start position s i = .ok n j := by
  have opens := opens_of_enclosed h
  obtain ⟨key, k, read, -, after⟩ := nested_of_opens back opens (by decide) deep
  have close : Token.next s k = .ok ⟨.braceClose, "\x7d", s.position k⟩ (k + 1) := Token.next_of_symbol after rfl
  obtain ⟨first, peek, paren⟩ := peek_of_stands opens
  simp only [dict_eq, Scan.bind_of_ok peek, paren]
  refine Scan.loop_of_done ?_
  simp only [dictTurn, Scan.bind_of_ok read, Scan.bind_of_ok close, List.isEmpty_nil, if_true,
    Scan.bind_of_ok (Scan.seek_apply start s (k + 1)), Scan.bind_of_ok found]
  rfl

/-- The first token of a name whose first part is written out. -/
theorem next_of_written {parts : List Node} {p : Position} (shape : CurlyParts (.leaf .curlyPart text p :: parts))
    (closes : Closes rest) (h : s.ahead i = text.toList ++ ((parts.map (render dots)).flatten ++ rest)) :
    ∃ token k, Token.next s i = .ok token k ∧ Token.startsName token.kind = true := by
  obtain ⟨text', found, letter⟩ :=
    shape.start _ rfl (by simp [isCurlyPart, Node.leaf, Node.type, Kind.nodeType])
  obtain rfl : text = text' := by simpa [Node.leaf, leafText?, Kind.leafText?] using found
  have inside : ∀ c ∈ text.toList, CharClass.name.has c = true := by
    rcases shape.each (.leaf .curlyPart text p) (by simp) with ⟨other, q, same, -, inside⟩ | ⟨_, _, same⟩
    · obtain ⟨-, rfl⟩ : p = q ∧ text = other := by simpa [Node.leaf] using same
      exact inside
    · simp [Node.leaf] at same
  have front : ((parts.map (render dots)).flatten ++ rest).head? = some '\x7b' ∨
      ((parts.map (render dots)).flatten ++ rest) = rest := by
    cases parts with
    | nil => exact .inr rfl
    | cons following parts =>
      rcases shape.each following (by simp) with ⟨_, _, rfl, -, -⟩ | ⟨_, _, rfl⟩
      · have apart := shape.apart.rel
        simp [isCurlyPart, Node.leaf, Node.type, Kind.nodeType] at apart
      · exact .inl (by rw [List.map_cons, render_mk]; rfl)
  refine Token.next_of_nameStart h letter inside ?_ ?_
  · rcases front with brace | last
    · rw [brace]
      rfl
    · rw [last]
      exact closes.not_name
  · rcases front with brace | last
    · simp [brace]
    · rw [last]
      exact closes.head_ne (by decide) (by decide)

theorem isPlain_of_startsName {kind : TokenKind} (h : Token.startsName kind = true) : IsPlain kind := by
  cases kind <;> simp_all [Token.startsName, IsPlain, TokenKind.unary?]

theorem primary_of_startsName {token : Token} {k : Nat} (next : Token.next s i = .ok token k)
    (starts : Token.startsName token.kind = true) : primary (nested depth) s i = name (nested depth) s i := by
  simp only [primary, Scan.bind_of_ok (Scan.tell_apply s i), Scan.bind_of_ok next]
  unfold Token.startsName at starts
  split at starts
  all_goals first
    | (rename_i kind; simp only [kind, Scan.bind_of_ok (Scan.seek_apply i s k)])
    | simp at starts

theorem readsBack_curlyName {parts : List Node} (shape : CurlyParts parts)
    (inner : ∀ position value, .mk position (.curlyExpr value) ∈ parts → ReadsBack dots value) :
    ReadsBack dots (.mk position (.curlyName parts)) := by
  refine readsBack_of_primary fun {s i depth rest} h closes deep => ?_
  have whole : s.ahead i = (parts.map (render dots)).flatten ++ rest := by
    simpa [render_mk, Kind.map, renderKind] using h
  have known : ∀ position value, .mk position (.curlyExpr value) ∈ parts →
      ReadsBack dots value ∧ (value.render dots).length + 1 < depth := by
    intro position value place
    refine ⟨inner position value place, ?_⟩
    have within : ((mk position (.curlyExpr value)).render dots).length ≤ ((parts.map (render dots)).flatten).length :=
      (List.sublist_flatten_of_mem (List.mem_map_of_mem place)).length_le
    have all : ((parts.map (render dots)).flatten).length ≤ depth := by
      simpa [render_mk, Kind.map, renderKind] using deep
    simp [render_mk, Kind.map, renderKind, enclosed] at within all
    omega
  obtain ⟨n, j, read, same, after⟩ : (Node.mk .unset (.curlyName parts)).ReadBy (name (nested depth)) s i rest := by
    obtain ⟨c, cs, rfl, mark⟩ := closes
    exact name_of_curly shape known (by rcases mark with rfl | rfl <;> rfl) (by rcases mark with rfl | rfl <;> decide)
      whole
  have bares : n.bare = (mk position (.curlyName parts)).bare := same.trans (by simp)
  obtain ⟨part, parts, rfl⟩ := List.exists_cons_of_ne_nil shape.some
  rcases shape.each part (by simp) with ⟨text, p, rfl, -, -⟩ | ⟨p, value, rfl⟩
  · obtain ⟨token, k, next, starts⟩ := next_of_written shape closes (by simpa using whole)
    exact ⟨⟨token, k, next, isPlain_of_startsName starts⟩, n, j, (primary_of_startsName next starts).trans read, bares,
      after⟩
  · obtain ⟨back, within⟩ := known p value (by simp)
    have front : s.ahead i = '\x7b' :: (enclosed (value.render dots) ++
        '\x7d' :: ((parts.map (render dots)).flatten ++ rest)) := by
      simpa [render_mk, Kind.map, renderKind] using whole
    have reads := dict_of_part (s.position i) back within (Source.ahead_of_cons front) read
    exact ⟨⟨_, _, next_of_brace front, of_decide_eq_true rfl⟩, n, j, (primary_of_key back front).trans reads, bares,
      after⟩

/-! ### All trees -/

theorem readsBack (printable : t.Printable) : ReadsBack dots t := by
  induction printable with
  | number decimal => exact readsBack_number decimal
  | singleQuoted quoted => exact readsBack_singleQuoted quoted
  | doubleQuoted quoted => exact readsBack_doubleQuoted quoted
  | name name => exact readsBack_name name
  | option some word => exact readsBack_option some word
  | env word => exact readsBack_env word
  | register line => exact readsBack_register line
  | binary op _ _ left right => exact readsBack_binary op left right
  | unary op _ value => exact readsBack_unary op value
  | ternary _ _ _ cond yes no => exact readsBack_ternary cond yes no
  | subscript _ _ left index => exact readsBack_subscript left index
  | slice _ _ _ left below above => exact readsBack_slice left below above
  | dot _ members some word left => exact readsBack_dot left members some word
  | call _ _ few callee all => exact readsBack_call callee all few
  | method _ _ _ few left callee all => exact readsBack_method left callee all few
  | list _ all => exact readsBack_list all
  | dict _ _ keys values => exact readsBack_dict keys values
  | lambda names _ body => exact readsBack_lambda names body
  | curlyName shape _ inner => exact readsBack_curlyName shape inner

theorem ahead_ofLines (line : String) : (Source.ofLines [line]).ahead 0 = line.toList ++ ['\n'] := by
  simp [Source.ofLines, Source.ofChars, bufferSlots, PhysicalLine.ofTexts, PhysicalLine.slots, PhysicalLine.slotsAfter,
    Source.ahead]

/-- An expression printed with all its parts in parentheses is read back, up to positions, to its end. -/
theorem ofLine_print (dots : Dots) {t : Node} (printable : t.Printable) :
    ∃ n j, ofLine (t.print dots) = .ok n j ∧ n.bare = t.bare ∧ j = (t.print dots).length := by
  have front : (Source.ofLines [t.print dots]).ahead 0 = t.render dots ++ ['\n'] := by
    rw [ahead_ofLines, print, String.toList_ofList]
  have size := Source.length_ahead (Source.ofLines [t.print dots]) 0
  rw [front, List.length_append, List.length_singleton, Nat.sub_zero] at size
  have reads : t.ReadBy (nested ((Source.ofLines [t.print dots]).size + 1)) (Source.ofLines [t.print dots]) 0 ['\n'] :=
    (readsBack printable).read front ⟨'\n', [], rfl, .inr rfl⟩ (by omega)
  obtain ⟨n, j, read, same, after⟩ := reads
  have left := Source.length_ahead (Source.ofLines [t.print dots]) j
  rw [after, List.length_singleton] at left
  refine ⟨n, j, read, same, ?_⟩
  rw [print, String.length_ofList]
  omega

/-- A name with an expression in it. -/
def curlySample : Node :=
  .mk .unset (.curlyName [.leaf .curlyPart "foo" .unset, .mk .unset (.curlyExpr (.identifier "x" .unset))])

def lambdaSample : Node :=
  .mk .unset (.lambda [.identifier "x" .unset, .identifier "..." .unset]
    (.mk .unset (.binary .concat (.leaf .string "'it''s'" .unset) curlySample)))

def sliceSample : Node :=
  .mk .unset (.slice (.identifier "x" .unset) none (some (.identifier "x" .unset)))

def methodSample : Node :=
  .mk .unset (.method (.mk .unset (.dot (.identifier "x" .unset) (.identifier "a" .unset)))
    (.mk .unset (.call (.identifier "x" .unset) [lambdaSample, sliceSample])))

theorem printable_x : Node.Printable (.identifier "x" .unset) :=
  .name ⟨rfl, List.all_eq_true.mp rfl, by decide, by decide⟩

theorem printable_curlySample : curlySample.Printable := by
  refine .curlyName ⟨?_, ?_, by simp, by simp, ?_⟩ ?_
  · intro part place
    rcases List.mem_cons.mp place with rfl | place
    · exact .inl ⟨"foo", .unset, rfl, by decide, List.all_eq_true.mp rfl⟩
    · obtain rfl := List.mem_singleton.mp place
      exact .inr ⟨.unset, .identifier "x" .unset, rfl⟩
  · intro part place _
    obtain rfl : .leaf .curlyPart "foo" .unset = part := by simpa using place
    exact ⟨"foo", rfl, by decide⟩
  · exact .cons_cons (.inr rfl) (.singleton _)
  · intro position value place
    obtain ⟨-, rfl⟩ : position = .unset ∧ value = .identifier "x" .unset := by simpa [leaf] using place
    exact printable_x

theorem printable_lambdaSample : lambdaSample.Printable := by
  have quoted : Token.SingleQuoted ['i', 't', '\'', '\'', 's'] :=
    .char (by decide) (by decide) (.char (by decide) (by decide) (.quote (.char (by decide) (by decide) .nil)))
  refine .lambda ⟨?_, by decide, ?_⟩ (.binary .concat (.singleQuoted quoted) printable_curlySample)
  · intro param place
    rcases List.mem_cons.mp place with rfl | place
    · exact ⟨"x", .unset, rfl, .inl ⟨rfl, List.all_eq_true.mp rfl, by decide, by decide⟩⟩
    · obtain rfl := List.mem_singleton.mp place
      exact ⟨"...", .unset, rfl, .inr rfl⟩
  · intro param place
    obtain rfl := List.mem_singleton.mp place
    decide

theorem printable_methodSample : methodSample.Printable := by
  refine .method (.dot printable_x rfl (by decide) (List.all_eq_true.mp rfl)) printable_x ?_ (by decide)
  intro arg place
  rcases List.mem_cons.mp place with rfl | place
  · exact printable_lambdaSample
  · obtain rfl := List.mem_singleton.mp place
    refine .slice printable_x (by simp) fun n place => ?_
    obtain rfl : .identifier "x" .unset = n := by simpa using place
    exact printable_x

theorem ofLine_print_method :
    methodSample.print .one = "((x).a)->(x)((\x7bx, ... -> (('it''s') . (foo\x7b(x)\x7d))\x7d), ((x)[:(x)]))" ∧
      methodSample.Printable ∧ ∃ n j, ofLine (methodSample.print .one) = .ok n j ∧ n.bare = methodSample.bare ∧
        j = (methodSample.print .one).length :=
  ⟨by cbv, printable_methodSample, ofLine_print .one printable_methodSample⟩

end Expr

end VimScript
