import VimScript.Proofs.Expr.Shape

/-!
Every expression that is read is shaped. What comes before a token of the same line cannot stand where the line has ended,
so only the last leaf of a tree may be a register without a name.
-/

set_option autoImplicit false

namespace VimScript

variable {s : Source} {i j k : Nat} {ended : Prop} {text : String} {position : Position} {xs cs : List Char} {c : Char}
  {n : Node} {parts : List Node} {token : Token} {kind : TokenKind}

namespace Expr

open Scan Node

/-- Expressions read by a scan are shaped. -/
def ReadsShaped (x : Scan Node) : Prop :=
  ∀ s i, x.Gives s i fun n j => n.Shaped (s.Ended j)

variable {expr primary operand key : Scan Node} {left : Node}

/-! ### Names -/

theorem spelled_of_single {run : Bool} (known : NameParts [.leaf .curlyPart text position] run) :
    Leaf.Spelled ended .identifier text.toList := by
  generalize whole : [Node.leaf .curlyPart text position] = parts at known
  cases known with
  | nil => cases whole
  | scope scope =>
    simp only [Node.leaf, List.cons.injEq, Node.mk.injEq, Kind.leaf.injEq, true_and, and_true] at whole
    rw [whole.2]
    exact .scope scope
  | run before start front chars =>
    obtain ⟨rfl, last⟩ := List.append_eq_cons_iff.mp whole.symm |>.resolve_right (by simp)
    simp only [Node.leaf, List.cons.injEq, Node.mk.injEq, Kind.leaf.injEq, true_and, and_true] at last
    rw [← last.2, String.toList_ofList]
    exact .name (start rfl) front chars
  | braced =>
    obtain ⟨-, last⟩ := List.append_eq_cons_iff.mp whole.symm |>.resolve_right (by simp)
    simp [Node.leaf] at last

theorem shaped_nameOfParts {run : Bool} (known : NameParts parts run) (some : parts ≠ [])
    (inner : ∀ position value, .mk position (.curlyExpr value) ∈ parts → value.Shaped False) :
    (nameOfParts position parts).Shaped ended := by
  unfold nameOfParts
  split
  · exact .leaf (spelled_of_single known)
  · rename_i several
    exact .curlyName known some (fun text position same => several position text same) inner

/-- A name of braces and name characters stands ahead, or a script-local one. -/
def OpensName (s : Source) (i : Nat) : Prop :=
  (∃ text j, Scan.peekRun 5 s i = .ok text j ∧ sameIgnoringCase text "<SID>" = true) ∨
    ∃ c cs, s.ahead i = c :: cs ∧ (c = '\x7b' ∨ CharClass.name.has c = true ∧ CharClass.digit.has c = false)

/-- The parts read so far of a name that starts at a given cursor. -/
structure NameRead (s : Source) (start : Nat) (parts : List Node) (i : Nat) : Prop where
  known : ∃ run, NameParts parts run ∧ (run = true → CharClass.name.hasOpt (s.ahead i).head? = false)
  opens : parts = [] → i = start ∧
    ∃ c cs, s.ahead i = c :: cs ∧ (c = '\x7b' ∨ CharClass.name.has c = true ∧ CharClass.digit.has c = false)
  inner : ∀ position value, .mk position (.curlyExpr value) ∈ parts → value.Shaped False

theorem NameRead.braced {value : Node} (read : NameRead s k parts i) (shaped : value.Shaped False) (j : Nat) :
    NameRead s k (parts ++ [Node.mk position (.curlyExpr value)]) j where
  known := by
    obtain ⟨run, known, -⟩ := read.known
    exact ⟨false, known.braced, by simp⟩
  opens := by simp
  inner := by
    intro position' value' place
    rcases List.mem_append.mp place with old | new
    · exact read.inner position' value' old
    · obtain ⟨-, rfl⟩ : position' = position ∧ value' = value := by simpa using new
      exact shaped

theorem NameRead.run (read : NameRead s k parts i) (h : s.ahead i = c :: cs) (front : CharClass.name.has c = true)
    (chars : ∀ x ∈ xs, CharClass.name.has x = true) (stop : CharClass.name.hasOpt (s.ahead j).head? = false) :
    NameRead s k (parts ++ [Node.leaf .curlyPart (String.ofList (c :: xs)) position]) j where
  known := by
    obtain ⟨run, known, after⟩ := read.known
    obtain rfl : run = false := by
      cases run with
      | false => rfl
      | true => simpa [h, front] using after rfl
    refine ⟨true, .run known ?_ front chars, fun _ => stop⟩
    intro first
    obtain ⟨-, d, ds, h', opens⟩ := read.opens first
    obtain ⟨rfl, rfl⟩ := List.cons.inj (h.symm.trans h')
    rcases opens with rfl | ⟨-, start⟩
    · exact absurd front (by decide)
    · exact start
  opens := by simp
  inner := by
    intro position' value' place
    rcases List.mem_append.mp place with old | new
    · exact read.inner position' value' old
    · simp [Node.leaf] at new

/-- Where a line has ended no brace follows the blanks. -/
theorem not_brace_of_ended (line : s.Ended i)
    (blanks : ∃ ws, s.Spans i ws j ∧ (∀ x ∈ ws, CharClass.white.has x = true) ∧
      CharClass.white.hasOpt (s.ahead j).head? = false) : ((s.ahead j).head? != some '\x7d') = true := by
  obtain ⟨ws, spans, white, -⟩ := blanks
  rw [bne_iff_ne]
  intro brace
  cases ws with
  | nil =>
    have same : j = i := spans.cursor
    exact absurd (line _ (same ▸ brace)) (by decide)
  | cons w ws =>
    obtain rfl := line w (by rw [spans.ahead]; rfl)
    exact absurd (white '\n' (by simp)) (by decide)

theorem front_of_hasOpt {k : CharClass} (h : k.hasOpt cs.head? = true) : ∃ c rest, cs = c :: rest ∧ k.has c = true := by
  cases cs with
  | nil => cases h
  | cons c rest => exact ⟨c, rest, rfl, h⟩

theorem nameParts_gives (inner : ReadsShaped expr) (opens : OpensName s i) :
    (nameParts expr).Gives s i fun parts _ => ∃ run, NameParts parts run ∧ parts ≠ [] ∧
      ∀ position value, .mk position (.curlyExpr value) ∈ parts → value.Shaped False := by
  refine .after (here_apply s i) (.step fun text i' peeked => ?_)
  obtain ⟨rfl, k, taken⟩ := peeking_ok peeked
  refine Gives.bind (q := NameRead s i') ?_ fun scope j read => ?_
  · refine .ite (fun same => .after taken (.pure ?_)) fun other => .pure ?_
    · have scope : IsScope text.toList := by
        have folded : "<SID>".toList.map Char.toLower = "<sid>".toList := by decide
        simpa [sameIgnoringCase, IsScope, folded] using same
      exact ⟨⟨false, .scope scope, by simp⟩, by simp, by simp [Node.leaf]⟩
    · refine ⟨⟨false, .nil, by simp⟩, fun _ => ⟨rfl, ?_⟩, by simp⟩
      rcases opens with ⟨text', j, peeked', same⟩ | front
      · obtain ⟨rfl, -⟩ := Reply.ok.inj (peeked.symm.trans peeked')
        exact absurd same other
      · exact front
  · refine .loop (NameRead s i') read fun parts j read => .after (peek_of_ahead rfl) ?_
    split
    · refine .after (skip_apply 1 s j) (.after (here_apply s (j + 1)) ((inner s (j + 1)).bind fun value k shaped => ?_))
      refine (gives_skipWhite s k).bind fun _ k' blanks => .after (peek_of_ahead rfl) ?_
      refine .ite (fun _ => .stop .failHere) fun closes => .after (skip_apply 1 s k') (.pure (read.braced ?_ _))
      exact shaped.mono fun line => closes (not_brace_of_ended line blanks)
    · rename_i noBrace
      refine .ite (fun front => ?_) fun stop => .pure ?_
      · obtain ⟨c, cs, ahead, inside⟩ := front_of_hasOpt front
        refine .after (here_apply s j) ((Token.gives_takeClass_head .name ahead inside).bind ?_)
        rintro _ k ⟨ws, rfl, -, chars, stop⟩
        exact .pure (read.run ahead inside chars stop)
      · obtain ⟨run, known, -⟩ := read.known
        refine ⟨run, known, fun first => ?_, read.inner⟩
        obtain ⟨-, c, cs, ahead, rfl | ⟨inside, -⟩⟩ := read.opens first
        · exact noBrace (by rw [ahead, List.head?_cons])
        · exact stop (by rw [ahead, List.head?_cons, CharClass.hasOpt_some, inside])

/-- A name stands behind the blanks ahead. -/
def NameAhead (s : Source) (i : Nat) : Prop :=
  ∀ j, Scan.skipWhite s i = .ok () j → OpensName s j

theorem name_gives (inner : ReadsShaped expr) (ahead : NameAhead s i) :
    (name expr).Gives s i fun n _ => n.Shaped False := by
  refine .step fun _ j blanks => .after (here_apply s j) ((nameParts_gives inner (ahead j blanks)).bind ?_)
  rintro parts k ⟨run, known, some, inner⟩
  exact .pure (shaped_nameOfParts known some inner)

/-- The kinds of token that stand at the start of a name. -/
def opensName (kind : TokenKind) : Bool :=
  Token.startsName kind || kind == .braceOpen || kind == .literalBraceOpen

theorem nameAhead_of_next (run : Token.next s i = .ok token j) (opens : opensName token.kind = true) :
    NameAhead s i := by
  obtain ⟨k, skipped, taken⟩ := Token.taken_of_next run
  intro k' blanks
  obtain rfl : k = k' := (Reply.ok.inj (skipped.symm.trans blanks)).2
  cases taken with
  | eof | eol => cases opens
  | @lexeme kind xs _ spans spelled =>
    suffices front : ∃ c cs, xs = c :: cs ∧
        (c = '\x7b' ∨ CharClass.name.has c = true ∧ CharClass.digit.has c = false) by
      obtain ⟨c, cs, rfl, front⟩ := front
      exact .inr ⟨c, _, spans.ahead, front⟩
    by_cases word : kind = .identifier
    · subst word
      obtain ⟨c, cs, rfl, start, -⟩ := spelled.front_of_identifier
      exact ⟨c, cs, rfl, .inr ⟨Token.name_of_nameStart start, CharClass.not_digit_of_nameStart start⟩⟩
    · have symbol : kind ∉ ([.number, .blob, .identifier, .env, .register, .option] : List TokenKind) := by
        simp only [List.mem_cons, List.not_mem_nil, or_false]
        rintro (rfl | rfl | rfl | rfl | rfl | rfl)
        case inr.inr.inl => exact word rfl
        all_goals cases opens
      have place := spelled.mem_operators symbol
      have table : ∀ form ∈ Token.operators, opensName form.2 = true → form.1.toList.head?.any (fun c =>
        c == '\x7b' || (CharClass.name.has c && !CharClass.digit.has c)) = true := by decide
      have front := table _ place opens
      rw [String.toList_ofList] at front
      cases xs with
      | nil => simp at front
      | cons c cs => exact ⟨c, cs, rfl, by simpa using front⟩

/-! ### What follows an operand -/

def AllClosed (ns : List Node) : Prop :=
  ∀ n ∈ ns, n.Shaped False

theorem AllClosed.nil : AllClosed [] := by
  simp [AllClosed]

theorem AllClosed.concat {ns : List Node} (before : AllClosed ns) (last : n.Shaped False) : AllClosed (ns ++ [n]) := by
  simpa [AllClosed, or_imp, forall_and] using ⟨before, last⟩

theorem optional_gives {stop : Prop} [Decidable stop] (inner : ReadsShaped expr) :
    (if stop then Pure.pure none else some <$> expr : Scan (Option Node)).Gives s i fun found j =>
      ∀ n ∈ found, n.Shaped (s.Ended j) := by
  refine .ite (fun _ => .pure (by simp)) fun _ => .map ((inner s i).mono fun n j shaped => ?_)
  rintro _ ⟨⟩
  exact shaped

theorem index_gives (inner : ReadsShaped expr) (closed : left.Shaped False) :
    (index expr left position).Gives s i fun n _ => n.Shaped False := by
  refine .bind (q := fun found j => ∀ n ∈ found, n.Shaped (s.Ended j)) ?_ fun lower j below => ?_
  · exact .step fun _ _ peeked => (peeking_ok peeked).1 ▸ optional_gives inner
  refine .step fun colon j' peeked => ?_
  obtain ⟨rfl, k, run⟩ := peeking_ok peeked
  dsimp only
  split
  · refine .step fun close k run => .ite (fun _ => .stop .fail) fun isClose => .pure ?_
    have isClose : close.kind = .bracketClose := by simpa using isClose
    exact .subscript closed ((below _ rfl).closed run (by rw [isClose]; rfl))
  · rename_i lower _ _ several
    have lowerClosed : ∀ n ∈ lower, n.Shaped False := by
      rintro n ⟨⟩
      have isColon : colon.kind = .colon := by
        by_contra other
        exact several n rfl (by simpa using other)
      exact (below n rfl).closed run (by rw [isColon]; rfl)
    refine .step fun _ k _ => .bind (q := fun found j => ∀ n ∈ found, n.Shaped (s.Ended j)) ?_ fun upper j above => ?_
    · exact .step fun _ _ peeked => (peeking_ok peeked).1 ▸ optional_gives inner
    refine .step fun close k run => .ite (fun _ => .stop .fail) fun isClose => .pure ?_
    have isClose : close.kind = .bracketClose := by simpa using isClose
    exact .slice closed lowerClosed fun n place => (above n place).closed run (by rw [isClose]; rfl)

theorem argumentList_gives (inner : ReadsShaped expr) :
    (argumentList expr).Gives s i fun found _ => AllClosed found.1 := by
  refine .step fun first _ _ => .ite (fun _ => .step fun _ _ _ => .pure .nil) fun _ => ?_
  refine .loop (fun args _ => AllClosed args) .nil fun args j known => (inner s j).bind fun arg k shaped => ?_
  refine .step fun token k' run => ?_
  have all (inside : Token.isInLine token.kind = true) := known.concat (shaped.closed run inside)
  split
  · rename_i comma
    have all := all (by rw [comma]; rfl)
    exact .step fun _ _ _ => .ite (fun _ => .step fun _ _ _ => .pure all) fun _ => .pure all
  · rename_i close
    exact .pure (all (by rw [close]; rfl))
  · exact .fail

theorem arguments_gives (inner : ReadsShaped expr) : (arguments expr).Gives s i fun args _ => AllClosed args :=
  (argumentList_gives inner).bind fun _ _ all => .ite (fun _ => .stop .fail) fun _ => .pure all

theorem member_gives (closed : left.Shaped False) :
    (member left position).Gives s i fun found _ => ∀ n ∈ found, n.Shaped False := by
  refine .after (peek_of_ahead rfl) (.ite (fun front => ?_) fun _ => .pure (by simp))
  obtain ⟨c, cs, ahead, inside⟩ := front_of_hasOpt (Bool.and_eq_true_iff.mp front).2
  refine .after (here_apply s i) ((Token.gives_takeClass_head .word ahead inside).bind ?_)
  rintro _ j ⟨ws, rfl, -, word, -⟩
  refine .step fun _ _ _ => .ite (fun _ => .pure (by simp)) fun _ => .pure ?_
  rintro _ ⟨⟩
  refine .dot closed (by simp) ?_
  simpa [inside] using word

theorem method_gives (inner : ReadsShaped expr) (operand : ReadsShaped primary) (closed : left.Shaped False) :
    (method expr primary left).Gives s i fun n _ => n.Shaped False := by
  refine (operand s i).bind fun callee j shaped => .step fun paren k run => ?_
  refine .ite (fun _ => .stop .fail) fun opens => (arguments_gives inner).bind fun args _ all => .pure ?_
  have opens : paren.kind = .parenOpen := by simpa using opens
  exact .method closed (.call (shaped.closed run (by rw [opens]; rfl)) all)

theorem postfixed_gives (inner : ReadsShaped expr) (operand : ReadsShaped primary) :
    ReadsShaped (postfixed expr primary) := by
  intro s i
  have weaken {n : Node} {k : Nat} (closed : n.Shaped False) : n.Shaped (s.Ended k) := closed.mono False.elim
  refine (operand s i).bind fun first j shaped => .loop (fun left j => left.Shaped (s.Ended j)) shaped ?_
  intro left j shaped
  refine .after (tell_apply s j) (.after (peek_of_ahead rfl) (.step fun token k run => ?_))
  have closed := shaped.closed run
  split
  · rename_i opens _
    exact (index_gives inner (closed (by rw [opens]; rfl))).bind fun node _ closed => .pure (weaken closed)
  · rename_i arrow
    exact (method_gives inner operand (closed (by rw [arrow]; rfl))).bind fun node _ closed => .pure (weaken closed)
  · rename_i opens
    have callee := closed (by rw [opens]; rfl)
    exact (arguments_gives inner).bind fun args _ all => .pure (.call callee all)
  · rename_i dot _
    refine (member_gives (closed (by rw [dot]; rfl))).bind fun found k' members => ?_
    cases found with
    | none => exact .after (seek_apply j s k') (.pure shaped)
    | some node => exact .pure (weaken (members node rfl))
  · exact .after (seek_apply j s k) (.pure shaped)

/-! ### Operands -/

theorem list_gives (inner : ReadsShaped expr) : (list expr position).Gives s i fun n _ => n.Shaped False := by
  refine .step fun _ _ _ => .ite (fun _ => .step fun _ _ _ => .pure (.list AllClosed.nil)) fun _ => ?_
  refine .loop (fun items _ => AllClosed items) .nil fun items j known => (inner s j).bind fun item k shaped => ?_
  refine .step fun token k' peeked => ?_
  obtain ⟨rfl, m, run⟩ := peeking_ok peeked
  have all (inside : Token.isInLine token.kind = true) := known.concat (shaped.closed run inside)
  split
  · rename_i comma
    have all := all (by rw [comma]; rfl)
    refine .step fun _ _ _ => .step fun _ _ _ => .ite (fun _ => .step fun _ _ _ => .pure (.list all)) fun _ => .pure all
  · rename_i close
    exact .step fun _ _ _ => .pure (.list (all (by rw [close]; rfl)))
  · exact .fail

theorem parameter_gives (params : List Node) (token : Token) :
    (parameter params token).Gives s i fun n _ => n = .identifier token.value token.position := by
  refine .ite (fun _ => .stop .fail) fun _ => .ite (fun _ => .stop .fail) fun _ => ?_
  refine .step fun _ _ _ => .ite (fun _ => ?_) fun _ => .pure rfl
  exact .step fun _ _ _ => .ite (fun _ => .stop .failHere) fun _ => .pure rfl

/-- The tokens that parameters are made of. -/
theorem isParameter_of_next (run : Token.next s i = .ok token j)
    (known : token.kind = .identifier ∨ token.kind = .ellipsis) : (Node.identifier token.value token.position).IsParameter := by
  obtain ⟨_, -, taken⟩ := Token.taken_of_next run
  cases taken with
  | eof | eol => simp at known
  | lexeme _ spelled =>
    refine ⟨_, _, rfl, ?_⟩
    rcases known with rfl | rfl
    · obtain ⟨c, cs, rfl, start, chars⟩ := spelled.front_of_identifier
      rw [String.toList_ofList]
      exact .inr ⟨by simp, List.forall_mem_cons.mpr ⟨Token.name_of_nameStart start, chars⟩⟩
    · have table : ∀ form ∈ Token.operators, form.2 = .ellipsis → form.1 = "..." := by decide
      exact .inl (table _ (spelled.mem_operators (by decide)) rfl)

theorem parameters_gives {first : Token} (run : Token.next s i = .ok first j) :
    (parameters first).Gives s k fun found _ => ∀ params ∈ found, ∀ n ∈ params, n.IsParameter := by
  have done {params : List Node} (known : ∀ n ∈ params, n.IsParameter) :
      ∀ found ∈ some params, ∀ n ∈ found, n.IsParameter := by
    rintro _ ⟨⟩
    exact known
  refine .loop (fun state _ => (∀ n ∈ state.1, n.IsParameter) ∧ ∃ i j, Token.next s i = .ok state.2 j)
    ⟨by simp, i, j, run⟩ ?_
  rintro ⟨params, token⟩ k ⟨known, i, j, run⟩
  have all (kind : token.kind = .identifier ∨ token.kind = .ellipsis) :
      ∀ n ∈ params ++ [Node.identifier token.value token.position], n.IsParameter := by
    intro n place
    rcases List.mem_append.mp place with old | new
    · exact known n old
    · rw [List.mem_singleton.mp new]
      exact isParameter_of_next run kind
  dsimp only
  split
  · exact .pure (done known)
  · rename_i word
    have all := all (.inl word)
    refine (parameter_gives params token).bind ?_
    rintro _ _ rfl
    refine .step fun after _ _ => ?_
    split
    · refine .step fun _ _ _ => .ite (fun _ => .step fun _ _ _ => .pure (done all)) fun _ => ?_
      exact .step fun token k run => .pure ⟨all, _, _, run⟩
    · exact .pure (done all)
    · exact .fail
  · rename_i dots
    have all := all (.inr dots)
    exact .step fun _ _ _ => .ite (fun _ => .step fun _ _ _ => .pure (done all)) fun _ => .fail
  · refine .pure ?_
    rintro _ ⟨⟩

theorem lambda_gives (inner : ReadsShaped expr) {first : Token} (run : Token.next s i = .ok first j) :
    (lambda expr first position).Gives s k fun found _ => ∀ n ∈ found, n.Shaped False := by
  refine (parameters_gives run).bind fun found m known => ?_
  cases found with
  | none => exact .pure (by simp)
  | some params =>
    refine (inner s m).bind fun body k' shaped => .step fun close m run => ?_
    refine .ite (fun _ => .stop .fail) fun isClose => .pure ?_
    have isClose : close.kind = .braceClose := by simpa using isClose
    rintro _ ⟨⟩
    exact .lambda (known params rfl) (shaped.closed run (by rw [isClose]; rfl))

theorem singleQuoted_of_key {key : List Char} (chars : ∀ c ∈ key, Token.isKeyChar c = true) :
    Token.SingleQuoted key := by
  induction key with
  | nil => exact .nil
  | cons c key ih =>
    obtain ⟨first, rest⟩ := List.forall_mem_cons.mp chars
    refine .char ?_ ?_ (ih rest)
    · rintro rfl
      exact absurd first (by decide)
    · rintro rfl
      exact absurd first (by decide)

theorem literalKey_gives : ReadsShaped literalKey := by
  intro s i
  refine (Token.gives_literalKey s i).bind ?_
  rintro _ j ⟨_, key, rfl, chars, -⟩
  refine .pure (.leaf ?_)
  simpa using .singleQuoted (singleQuoted_of_key chars)

theorem dict_gives (inner : ReadsShaped expr) (keys : ReadsShaped key) {start : Nat} (ahead : NameAhead s start) :
    (dict expr key start position).Gives s i fun n _ => n.Shaped False := by
  refine .step fun _ _ _ => .ite (fun _ => .step fun _ _ _ => .pure (.dict (by simp) (by simp))) fun _ => ?_
  refine .loop (fun entries _ => ∀ e ∈ entries, e.1.Shaped False ∧ e.2.Shaped False) (by simp) fun entries j known => ?_
  refine (keys s j).bind fun key k shaped => .step fun colon k' run => ?_
  split
  · refine .ite (fun _ => .after (seek_apply start s k') ?_) fun _ => .fail
    exact (name_gives inner ahead).bind fun node _ closed => .pure closed
  · rename_i isColon
    refine (inner s k').bind fun value m shaped' => .step fun token m' run' => ?_
    have all (inside : Token.isInLine token.kind = true) :
        ∀ e ∈ entries ++ [(key, value)], e.1.Shaped False ∧ e.2.Shaped False := by
      intro e place
      rcases List.mem_append.mp place with old | new
      · exact known e old
      · rw [List.mem_singleton.mp new]
        exact ⟨shaped.closed run (by rw [isColon]; rfl), shaped'.closed run' inside⟩
    have made (inside : Token.isInLine token.kind = true) :
        (Node.mk position (.dict (entries ++ [(key, value)]))).Shaped False :=
      .dict (fun e place => (all inside e place).1) fun e place => (all inside e place).2
    split
    · rename_i comma
      have inside : Token.isInLine token.kind = true := by rw [comma]; rfl
      refine .step fun _ _ _ => .ite (fun _ => .step fun _ _ _ => .pure (made inside)) fun _ => .pure (all inside)
    · rename_i close
      exact .pure (made (by rw [close]; rfl))
    · exact .fail
  · exact .fail

theorem braces_gives (inner : ReadsShaped expr) {start : Nat} {brace : Token} (ahead : NameAhead s start) :
    (braces expr start brace).Gives s i fun n _ => n.Shaped False := by
  refine .after (tell_apply s i) (.step fun first j run => ?_)
  refine .bind (q := fun found _ => ∀ n ∈ found, n.Shaped False) ?_ fun found k known => ?_
  · exact .step fun _ _ _ => .ite (fun _ => lambda_gives inner run) fun _ => .pure (by simp)
  · cases found with
    | some node => exact .pure (known node rfl)
    | none =>
      refine .after (seek_apply i s k) (dict_gives inner ?_ ahead)
      split
      · exact literalKey_gives
      · exact inner

/-- A `<` that opens a script-local name. -/
theorem nameAhead_of_angle (run : Token.next s i = .ok token j) (angle : token.kind = .compare .smaller .byOption)
    (peeked : afterAngleIsScriptId s j = .ok true k) : NameAhead s i := by
  obtain ⟨m, skipped, taken⟩ := Token.taken_of_next run
  intro m' blanks
  obtain rfl : m = m' := (Reply.ok.inj (skipped.symm.trans blanks)).2
  cases taken with
  | eof | eol => cases angle
  | @lexeme kind xs _ spans spelled =>
    obtain rfl := angle
    have table : ∀ form ∈ Token.operators, form.2 = .compare .smaller .byOption → form.1 = "<" := by decide
    have text := table _ (spelled.mem_operators (by decide)) rfl
    obtain rfl : xs = ['<'] := by simpa using congrArg String.toList text
    have ahead : s.ahead m = '<' :: s.ahead j := spans.ahead
    refine .inl ⟨_, _, peekRun_of_ahead 5 ahead, ?_⟩
    simp only [afterAngleIsScriptId, Scan.bind_of_ok (peekRun_of_ahead 4 (rfl : s.ahead j = s.ahead j))] at peeked
    have same := (Reply.ok.inj peeked).1
    simpa [sameIgnoringCase, List.takeWhile_cons] using same

theorem primary_gives (inner : ReadsShaped expr) : ReadsShaped (Expr.primary expr) := by
  intro s i
  have weaken {x : Scan Node} {j : Nat} (h : x.Gives s j fun n _ => n.Shaped False) :
      x.Gives s j fun n k => n.Shaped (s.Ended k) := h.mono fun _ _ closed => closed.mono False.elim
  refine .after (tell_apply s i) (.step fun token j run => ?_)
  have alone {sort : Leaf} (known : token.kind.leaf? = some sort) :
      (Node.leaf sort token.value token.position).Shaped (s.Ended j) := .leaf (spelled_of_next run known)
  have named (opens : opensName token.kind = true) : (name expr).Gives s i fun n j => n.Shaped (s.Ended j) :=
    weaken (name_gives inner (nameAhead_of_next run opens))
  have braced (opens : opensName token.kind = true) : (braces expr i token).Gives s j fun n j => n.Shaped (s.Ended j) :=
    weaken (braces_gives inner (nameAhead_of_next run opens))
  split
  case h_1 | h_2 | h_3 | h_4 | h_5 => exact .pure (alone (by simp [*, TokenKind.leaf?]))
  · refine .after (seek_apply i s j) ((Token.gives_doubleQuoted s i).bind ?_)
    rintro _ k ⟨_, body, -, rfl, quoted, -⟩
    exact .pure (.leaf (by simpa using .doubleQuoted quoted))
  · refine .after (seek_apply i s j) ((Token.gives_singleQuoted s i).bind ?_)
    rintro _ k ⟨_, body, -, rfl, quoted, -⟩
    exact .pure (.leaf (by simpa using .singleQuoted quoted))
  · exact weaken (list_gives inner)
  case h_9 | h_10 => exact braced (by simp [*, opensName])
  · refine (inner s j).bind fun value k shaped => .step fun close m run => ?_
    refine .ite (fun _ => .stop .fail) fun isClose => .pure ?_
    have isClose : close.kind = .parenClose := by simpa using isClose
    exact (shaped.closed run (by rw [isClose]; rfl)).mono False.elim
  · rename_i angle
    refine .step fun found k peeked => .ite (fun isName => ?_) fun _ => .fail
    obtain rfl := isName
    exact .after (seek_apply i s k) (weaken (name_gives inner (nameAhead_of_angle run angle peeked)))
  case h_13 | h_14 | h_15 | h_16 | h_17 =>
    exact .after (seek_apply i s j) (named (by simp [*, opensName, Token.startsName]))
  · exact .fail

/-! ### Levels -/

theorem isInLine_of_operator {operator : TokenKind → Option BinaryOp} {op : BinaryOp}
    (inLine : operator .eol = none ∧ operator .eof = none) (found : operator kind = some op) :
    Token.isInLine kind = true := by
  cases kind with
  | eol => simp [inLine.1] at found
  | eof => simp [inLine.2] at found
  | _ => rfl

theorem chain_gives (operator : TokenKind → Option BinaryOp) (inLine : operator .eol = none ∧ operator .eof = none)
    (inner : ReadsShaped operand) : ReadsShaped (chain operator operand) := by
  intro s i
  refine (inner s i).bind fun first j shaped => .loop (fun left j => left.Shaped (s.Ended j)) shaped ?_
  intro left j shaped
  refine .after (tell_apply s j) (.step fun token k run => ?_)
  split
  · rename_i op found
    have closed := shaped.closed run (isInLine_of_operator inLine found)
    exact (inner s k).bind fun right m shaped' => .pure (.binary closed shaped')
  · exact .after (seek_apply j s k) (.pure shaped)

theorem comparison_gives (inner : ReadsShaped operand) : ReadsShaped (comparison operand) := by
  intro s i
  refine (inner s i).bind fun left j shaped => .after (tell_apply s j) (.step fun token k run => ?_)
  split
  · rename_i op found
    have closed := shaped.closed run (isInLine_of_operator ⟨rfl, rfl⟩ found)
    exact (inner s k).bind fun right m shaped' => .pure (.binary closed shaped')
  · exact .after (seek_apply j s k) (.pure shaped)

theorem prefixed_gives (inner : ReadsShaped operand) : ReadsShaped (prefixed operand) := by
  intro s i
  refine .step fun ops j run => (inner s j).bind fun value k shaped => .pure ?_
  clear run
  induction ops generalizing value with
  | nil => exact shaped
  | cons op ops ih => exact ih _ (.unary shaped)

theorem ternary_gives (inner : ReadsShaped expr) (cond : ReadsShaped operand) : ReadsShaped (ternary expr operand) := by
  intro s i
  refine (cond s i).bind fun value j shaped => .after (tell_apply s j) (.step fun token k run => ?_)
  refine .ite (fun asks => ?_) fun _ => .after (seek_apply j s k) (.pure shaped)
  have asks : token.kind = .question := by simpa using asks
  have first := shaped.closed run (by rw [asks]; rfl)
  refine (inner s k).bind fun yes m shaped => .step fun colon m' run => ?_
  refine .ite (fun _ => .stop .fail) fun isColon => ?_
  have isColon : colon.kind = .colon := by simpa using isColon
  have second := shaped.closed run (by rw [isColon]; rfl)
  exact (inner s m').bind fun no _ last => .pure (.ternary first second last)

theorem level_gives (inner : ReadsShaped expr) : ReadsShaped (level expr) := by
  have operand := prefixed_gives (postfixed_gives inner (primary_gives inner))
  have product := chain_gives TokenKind.multiplicative? ⟨rfl, rfl⟩ operand
  have sum := chain_gives TokenKind.additive? ⟨rfl, rfl⟩ product
  have conjunction := chain_gives TokenKind.conjunction? ⟨rfl, rfl⟩ (comparison_gives sum)
  exact ternary_gives inner (chain_gives TokenKind.disjunction? ⟨rfl, rfl⟩ conjunction)

theorem nested_gives (depth : Nat) : ReadsShaped (nested depth) := by
  induction depth with
  | zero =>
    rintro s i n j ⟨⟩
  | succ depth ih => exact level_gives ih

/-- Every expression that is read is shaped. -/
theorem shaped_of_ofLine {line : String} (read : ofLine line = .ok n j) : n.Shaped ((Source.ofLines [line]).Ended j) :=
  nested_gives _ _ 0 n j read

end Expr

end VimScript
