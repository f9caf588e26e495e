import VimScript.Proofs.Cut.Operand
import VimScript.Proofs.Expr.Onward
import VimScript.Proofs.Statement.Operands
import VimScript.Proofs.Token.Keys

/-!
Braces before a cut. The first two tokens after a brace tell a lambda from a dictionary, and the second one of them may
stand behind what the brace opens; a name in braces is read twice.
-/

set_option autoImplicit false

namespace VimScript

namespace Expr

open Scan Token

variable {s : Source} {i j k l start : Nat} {expr : Scan Node} {brace : Token}

/-! ### A name read again from its brace -/

/-- A key of a literal dictionary, with the blanks before it. -/
theorem literalKey_spans {found : Node} (run : Expr.literalKey s i = .ok found k) :
    ∃ xs ys, s.Spans i (xs ++ ys) k ∧ (∀ c ∈ xs, CharClass.white.has c = true) ∧ (∀ c ∈ ys, isKeyChar c = true) ∧
      ys ≠ [] ∧ ∀ c ∈ (s.ahead k).head?, isKeyChar c = false := by
  obtain ⟨key, l, whole, last⟩ := bind_ok.mp run
  obtain ⟨-, rfl⟩ := Reply.ok.inj last
  obtain ⟨_, q, skip, run⟩ := bind_ok.mp whole
  obtain ⟨xs, blanks, white, -⟩ := (gives_skipWhite s i).of_ok skip
  rw [bind_of_ok (peek_of_ahead rfl)] at run
  by_cases starts : (s.ahead q).head?.any isKeyChar = true
  · rw [if_neg (by simp [starts])] at run
    beta_reduce at run
    rw [bind_of_ok (tell_apply s q), bind_of_ok (skip_apply 1 s q), bind_of_ok (here_apply s (q + 1))] at run
    obtain ⟨_, r, skip', run⟩ := bind_ok.mp run
    obtain ⟨ys, chars, inside, stop⟩ := (gives_skipWhile isKeyChar s (q + 1)).of_ok skip'
    obtain ⟨c, front, first⟩ := (Option.any_eq_true _ _).mp starts
    obtain ⟨cs, ahead⟩ := List.head?_eq_some_iff.mp front
    have head : s.Spans q [c] (q + 1) := .of_append ahead
    rw [bind_of_ok (peekInLine_of_ahead rfl)] at run
    cases inLine : ((s.ahead r).head?.filter (· != '\n')) with
    | none =>
      rw [inLine] at run
      cases run
    | some d =>
      rw [inLine] at run
      obtain ⟨-, rfl⟩ := Reply.ok.inj run
      obtain ⟨front', line⟩ := Option.filter_eq_some_iff.mp inLine
      refine ⟨xs, c :: ys, blanks.append (head.append chars), white, ?_, by simp, ?_⟩
      · intro x place
        rcases List.mem_cons.mp place with rfl | place
        · exact first
        · exact (inside x place).2
      · intro x head
        obtain rfl : d = x := Option.some.inj (front'.symm.trans head)
        exact (stop d head).resolve_left (by simpa using line)
  · rw [if_pos (by simpa using starts)] at run
    cases run

theorem repeatUpTo_first {σ α : Type} {body : σ → Scan (Turn σ α)} {n : Nat} {state : σ} {v : α}
    (run : repeatUpTo body n state s i = .ok v k) :
    ∃ turn l, body state s i = .ok turn l ∧
      (turn = .done v ∧ l = k ∨ ∃ state' m, turn = .again state' ∧ repeatUpTo body m state' s l = .ok v k) := by
  cases n with
  | zero => cases run
  | succ n =>
    simp only [Scan.repeatUpTo] at run
    split at run
    · exact ⟨_, _, ‹_›, .inr ⟨_, n, rfl, run⟩⟩
    · obtain ⟨rfl, rfl⟩ := Reply.ok.inj run
      exact ⟨_, _, ‹_›, .inl ⟨rfl, rfl⟩⟩
    · cases run
    · cases run

/-- A part of a name in braces. -/
theorem nameTurn_of_brace {parts : List Node} {turn : Turn (List Node) (List Node)} {cs : List Char}
    (h : s.ahead i = '\x7b' :: cs) (run : nameTurn expr parts s i = .ok turn k) :
    ∃ inner l q more, expr s (i + 1) = .ok inner l ∧ Scan.skipWhite s l = .ok () q ∧ s.char? q = some '\x7d' ∧
      k = q + 1 ∧ turn = .again more := by
  simp only [nameTurn, bind_of_ok (peek_of_ahead h), List.head?_cons, bind_of_ok (skip_apply 1 s i),
    bind_of_ok (here_apply s (i + 1))] at run
  obtain ⟨inner, l, read, run⟩ := bind_ok.mp run
  obtain ⟨_, q, skip, run⟩ := bind_ok.mp run
  rw [bind_of_ok (Source.Cut.peek_char s q)] at run
  by_cases mark : s.char? q = some '\x7d'
  · rw [if_neg (by simp [mark])] at run
    obtain ⟨rfl, rfl⟩ := Reply.ok.inj run
    exact ⟨inner, l, q, _, read, skip, mark, rfl, rfl⟩
  · rw [if_pos (by simpa using mark)] at run
    cases run

/-- Names end behind their first part. -/
theorem le_of_nameTurns (onward : ∀ low, Since low expr) {n : Nat} {parts found : List Node}
    (run : repeatUpTo (nameTurn expr) n parts s i = .ok found k) : i ≤ k :=
  Overlap.repeatUpTo_onward (fun parts i => nameTurn_since (onward i) parts s i (Nat.le_refl i)) run

/-- Where an operator was read its text stands behind the blanks. -/
theorem operator_text {first : Token} (run : Token.next s start = .ok first i) {text : String}
    (only : ∀ form ∈ operators, form.2 = first.kind → form.1 = text)
    (symbol : first.kind ∉ ([.eol, .eof, .number, .blob, .identifier, .env, .register, .option] : List TokenKind))
    {c : Char} {cs : List Char} (chars : text.toList = c :: cs) (solid : CharClass.white.has c = false) :
    ∃ b, Scan.skipWhite s start = .ok () b ∧ s.ahead b = text.toList ++ s.ahead i ∧ i = b + text.toList.length := by
  have covers := covers_of_next run
  obtain ⟨ws, before, blanks⟩ := covers.blanks
  have spans := covers.spans
  rw [Source.Cut.written_of_operator run only symbol] at spans
  refine ⟨first.position.cursor, ?_, spans.ahead, spans.cursor⟩
  rw [skipWhite_of_ahead ws before.ahead blanks (by rw [spans.ahead, chars]; simpa using solid), before.cursor]

theorem nameTurns_of_name {b : Nat} {c : Char} {cs : List Char} {v : Node} (run : name expr s start = .ok v k)
    (skip : Scan.skipWhite s start = .ok () b) (h : s.ahead b = c :: cs) (front : c.toLower ≠ '<') (line : c ≠ '\n') :
    ∃ parts, repeatUpTo (nameTurn expr) (s.size + 2) [] s b = .ok parts k := by
  rw [name, bind_of_ok skip, bind_of_ok (here_apply s b)] at run
  obtain ⟨parts, l, read, last⟩ := bind_ok.mp run
  obtain ⟨-, rfl⟩ := Reply.ok.inj last
  exact ⟨parts, (nameParts_of_front h front line).symm.trans read⟩

/-- The turns of a name that stand before a brace end behind what the brace opens. -/
theorem passes_of_nameTurns (onward : ∀ low, Since low expr) {n : Nat} {parts found : List Node} {cs : List Char}
    (h : s.ahead i = '\x7b' :: cs) (run : repeatUpTo (nameTurn expr) n parts s i = .ok found k) :
    ∃ inner l q, expr s (i + 1) = .ok inner l ∧ Scan.skipWhite s l = .ok () q ∧ s.char? q = some '\x7d' ∧ q + 1 ≤ k := by
  obtain ⟨turn, r, turned, ⟨rfl, -⟩ | ⟨more, m, rfl, rest⟩⟩ := repeatUpTo_first run
  · obtain ⟨_, _, _, _, -, -, -, -, never⟩ := nameTurn_of_brace h turned
    cases never
  · obtain ⟨inner, l, q, _, read, skip, mark, rfl, -⟩ := nameTurn_of_brace h turned
    exact ⟨inner, l, q, read, skip, mark, le_of_nameTurns onward rest⟩

/-- The name after a brace goes on to the closing brace of what is in it. -/
theorem name_passes_expr (onward : ∀ low, Since low expr) (run : Token.next s start = .ok brace i)
    (opens : brace.kind = .braceOpen) : Source.Cut.Passes s expr expr start i := by
  intro only k colon l v m read next closes named
  obtain ⟨q, skip, mark, rfl⟩ := Source.Cut.braceClose_iff.mpr ⟨colon, next, closes⟩
  have table : ∀ form ∈ operators, form.2 = .braceOpen → form.1 = "\x7b" := by decide
  obtain ⟨b, blanks, text, rfl⟩ := operator_text run (by rwa [opens]) (by rw [opens]; decide) (show "\x7b".toList = ['\x7b'] from rfl) rfl
  obtain ⟨parts, turns⟩ := nameTurns_of_name named blanks text (by decide) (by decide)
  obtain ⟨inner, k', q', read', skip', mark', passes⟩ := passes_of_nameTurns onward text turns
  obtain ⟨rfl, rfl⟩ := Reply.ok.inj (read.symm.trans read')
  obtain ⟨-, rfl⟩ := Reply.ok.inj (skip.symm.trans skip')
  exact passes

theorem name_passes_literal (onward : ∀ low, Since low expr) (run : Token.next s start = .ok brace i)
    (opens : brace.kind = .literalBraceOpen) : Source.Cut.Passes s expr Expr.literalKey start i := by
  intro only k colon l v m read next closes named
  obtain ⟨q, skip, mark, rfl⟩ := Source.Cut.braceClose_iff.mpr ⟨colon, next, closes⟩
  have table : ∀ form ∈ operators, form.2 = .literalBraceOpen → form.1 = "#\x7b" := by decide
  obtain ⟨b, blanks, text, rfl⟩ := operator_text run (by rwa [opens]) (by rw [opens]; decide) (show "#\x7b".toList = ['#', '\x7b'] from rfl) rfl
  obtain ⟨parts, turns⟩ := nameTurns_of_name named blanks text (by decide) (by decide)
  -- The first part of the name is the mark of a literal dictionary.
  have sharp := nameTurn_text expr [] (show ['#'] ≠ [] by simp) (by simp [CharClass.has]) rfl text
  obtain ⟨turn, r, turned, rest⟩ := repeatUpTo_first turns
  obtain ⟨rfl, rfl⟩ := Reply.ok.inj (sharp.symm.trans turned)
  obtain ⟨never, -⟩ | ⟨more, n, -, rest⟩ := rest
  · cases never
  obtain ⟨inner, k', q', read', skip', mark', passes⟩ := passes_of_nameTurns onward (Source.ahead_of_cons text) rest
  -- There is no other closing brace before the one that ends the key.
  have later : b + 2 ≤ q' := by
    have first := (onward (b + 2) s (b + 2) (Nat.le_refl _)).of_ok read'
    exact (skipWhile_since _ s _ first).of_ok skip'
  obtain ⟨xs, ys, key, white, chars, -⟩ := literalKey_spans read
  obtain ⟨zs, blanks', white', -⟩ := (gives_skipWhite s k).of_ok skip
  have whole := key.append blanks'
  have noBrace : ∀ c ∈ xs ++ ys ++ zs, c ≠ '\x7d' := by
    have solid : CharClass.white.has '\x7d' = false := by decide
    have other : isKeyChar '\x7d' = false := by decide
    rintro c place rfl
    simp only [List.mem_append] at place
    rcases place with (place | place) | place
    · simp [white _ place] at solid
    · simp [chars _ place] at other
    · simp [white' _ place] at solid
  have order : q ≤ q' := by
    by_contra before
    obtain ⟨n, rfl⟩ := Nat.exists_eq_add_of_le later
    have stop : q = b + 2 + (xs ++ ys ++ zs).length := whole.cursor
    have inside : n < (xs ++ ys ++ zs).length := by omega
    have ahead : s.ahead (b + 2) = xs ++ ys ++ zs ++ s.ahead q := whole.ahead
    rw [Source.char?_add, ahead, List.getElem?_append_left inside] at mark'
    exact noBrace _ (List.mem_of_getElem? mark') rfl
  omega

/-! ### What the first tokens promise -/

variable {first after : Token} {params found : List Node}

theorem parameter_stays (params : List Node) (token : Token) :
    (parameter params token).Gives s i fun _ k => k = i ∧ isArgumentName token.value = true := by
  refine .ite (fun _ => .stop .fail) fun known => .ite (fun _ => .stop .fail) fun _ => ?_
  have name : isArgumentName token.value = true := by simpa using known
  refine .after (peek_of_ahead rfl) (.ite (fun _ => ?_) fun _ => .pure ⟨rfl, name⟩)
  refine .step fun other k peeked => .ite (fun _ => .stop .failHere) fun _ => .pure ⟨?_, name⟩
  exact (Source.Cut.peek_ok.mp peeked).1.symm

theorem parameterTurn_of_other (other : Source.Cut.opensParameter first.kind = false) :
    parameterTurn (params, first) = Pure.pure (.done none) := by
  unfold parameterTurn
  dsimp only
  split <;> simp_all [Source.Cut.opensParameter]

theorem parameters_of_other (other : Source.Cut.opensParameter first.kind = false) (s : Source) (i : Nat) :
    parameters first s i = .ok none i := by
  rw [parameters_eq]
  exact loop_of_done (by rw [parameterTurn_of_other other]; rfl)

theorem kind_of_opensParameter {kind : TokenKind} (opens : Source.Cut.opensParameter kind = true) :
    kind = .arrow ∨ kind = .identifier ∨ kind = .ellipsis := by
  cases kind <;> simp_all [Source.Cut.opensParameter]

/-- A proper name stands before a comma. -/
def NamesFirst (s : Source) (i : Nat) (first : Token) : Prop :=
  first.kind = .identifier ∧ isArgumentName first.value = true ∧
    ∃ comma l, Token.next s i = .ok comma l ∧ comma.kind = .comma

/-- After the first parameter comes the arrow, or a comma after a proper name. -/
theorem parameterTurn_gives (opens : Source.Cut.opensParameter first.kind = true) :
    (parameterTurn (params, first)).Gives s i fun turn _ =>
      (∃ all, turn = .done (some all)) ∧
          (first.kind = .arrow ∨ ∃ after l, Token.next s i = .ok after l ∧ (after.kind = .arrow ∨ after.kind = .comma)) ∨
        (∃ state, turn = .again state) ∧ NamesFirst s i first := by
  unfold parameterTurn
  dsimp only
  split
  · rename_i arrow
    exact .pure (.inl ⟨⟨_, rfl⟩, .inl arrow⟩)
  · rename_i word
    refine (parameter_stays params first).bind ?_
    rintro param _ ⟨rfl, name⟩
    refine .step fun after l next => ?_
    split
    · rename_i comma
      refine .step fun _ _ _ => .ite (fun _ => .step fun _ _ _ => .pure ?_) fun _ => .step fun _ _ _ => .pure ?_
      · exact .inl ⟨⟨_, rfl⟩, .inr ⟨after, l, next, .inr comma⟩⟩
      · exact .inr ⟨⟨_, rfl⟩, word, name, after, l, next, comma⟩
    · rename_i arrow
      exact .pure (.inl ⟨⟨_, rfl⟩, .inr ⟨after, l, next, .inl arrow⟩⟩)
    · exact .fail
  · rename_i dots
    refine .step fun after k peeked => .ite (fun arrow => .step fun _ _ _ => .pure ?_) fun _ => .fail
    obtain ⟨-, l, next⟩ := Source.Cut.peek_ok.mp peeked
    exact .inl ⟨⟨_, rfl⟩, .inr ⟨after, l, next, .inl (eq_of_beq arrow)⟩⟩
  · simp_all [Source.Cut.opensParameter]

theorem parameters_turn {o : Option (List Node)} (run : parameters first s i = .ok o k) :
    ∃ turn l, parameterTurn ([], first) s i = .ok turn l ∧ (turn = .done o ∨ ∃ state, turn = .again state) := by
  rw [parameters_eq] at run
  obtain ⟨turn, l, turned, ⟨rfl, -⟩ | ⟨state, _, rfl, -⟩⟩ := repeatUpTo_first run
  · exact ⟨_, l, turned, .inl rfl⟩
  · exact ⟨_, l, turned, .inr ⟨state, rfl⟩⟩

/-- Whether a first token tells on its own that there is no lambda, or that there is one. -/
def tellsLambda : TokenKind → Bool
  | .arrow | .singleQuote | .doubleQuote => true
  | _ => false

theorem promisesLambda_eq (plain : tellsLambda first.kind = false) :
    promisesLambda first = (do
      let second ← Token.peek
      return second.kind == .arrow || second.kind == .comma) := by
  unfold promisesLambda
  split <;> simp_all [tellsLambda]

theorem promisesLambda_of_told (tells : tellsLambda first.kind = true) :
    promisesLambda first = Pure.pure (first.kind == .arrow) := by
  unfold promisesLambda
  split <;> simp_all [tellsLambda] <;> rfl

theorem promisesLambda_of_next (plain : tellsLambda first.kind = false) (next : Token.next s i = .ok after k) :
    promisesLambda first s i = .ok (after.kind == .arrow || after.kind == .comma) i := by
  rw [promisesLambda_eq plain, bind_of_ok (peek_of_next next)]
  rfl

/-- Where there are parameters, the first two tokens promise a lambda. -/
theorem promisesLambda_of_parameters (run : parameters first s i = .ok (some found) k) :
    promisesLambda first s i = .ok true i := by
  cases opens : Source.Cut.opensParameter first.kind with
  | false =>
    rw [parameters_of_other opens] at run
    cases run
  | true =>
    obtain ⟨turn, l, turned, -⟩ := parameters_turn run
    have seen : first.kind = .arrow ∨ ∃ after l, Token.next s i = .ok after l ∧
        (after.kind = .arrow ∨ after.kind = .comma) := by
      rcases (parameterTurn_gives opens).of_ok turned with ⟨-, seen⟩ | ⟨-, -, -, comma, l, next, kind⟩
      · exact seen
      · exact .inr ⟨comma, l, next, .inr kind⟩
    by_cases arrow : first.kind = .arrow
    · simp only [promisesLambda, arrow]
      rfl
    · obtain ⟨after, l, next, kind⟩ := seen.resolve_left arrow
      have plain : tellsLambda first.kind = false := by
        rcases kind_of_opensParameter opens with same | same | same
        · exact absurd same arrow
        · rw [same]
          rfl
        · rw [same]
          rfl
      rw [promisesLambda_of_next plain next]
      rcases kind with same | same <;> rw [same] <;> rfl

/-- A promise is made by the token that is looked at, unless the first one tells. -/
theorem promisesLambda_gives (first : Token) (s : Source) (i : Nat) :
    (promisesLambda first).Gives s i fun promise k => k = i ∧
      (tellsLambda first.kind = false → ∃ after l, Token.next s i = .ok after l ∧
        promise = (after.kind == .arrow || after.kind == .comma)) := by
  cases tells : tellsLambda first.kind with
  | false =>
    rw [promisesLambda_eq tells]
    refine .step fun after k peeked => .pure ?_
    obtain ⟨rfl, l, next⟩ := Source.Cut.peek_ok.mp peeked
    exact ⟨rfl, fun _ => ⟨after, l, next, rfl⟩⟩
  | true =>
    rw [promisesLambda_of_told tells]
    exact .pure ⟨rfl, by rintro ⟨⟩⟩

theorem parameters_of_lambda {position : Position} {v : Node} (run : lambda expr first position s i = .ok (some v) k) :
    ∃ params l, parameters first s i = .ok (some params) l := by
  unfold lambda at run
  obtain ⟨found, l, listed, last⟩ := bind_ok.mp run
  cases found with
  | none => cases last
  | some params => exact ⟨params, l, listed⟩

theorem parameters_of_no_lambda {position : Position} (run : lambda expr first position s i = .ok none k) :
    ∃ l, parameters first s i = .ok none l := by
  unfold lambda at run
  obtain ⟨found, l, listed, last⟩ := bind_ok.mp run
  cases found with
  | none => exact ⟨l, listed⟩
  | some params =>
    obtain ⟨body, m, -, last⟩ := bind_ok.mp last
    obtain ⟨close, n, -, last⟩ := bind_ok.mp last
    split at last
    · cases last
    · cases last

/-- Where a parameter may stand and there are none after all, the first one is a name before a comma. -/
theorem namesFirst_of_parameters (run : parameters first s i = .ok none k)
    (opens : Source.Cut.opensParameter first.kind = true) : NamesFirst s i first := by
  obtain ⟨turn, l, turned, same⟩ := parameters_turn run
  rcases (parameterTurn_gives opens).of_ok turned with ⟨⟨all, rfl⟩, -⟩ | ⟨-, names⟩
  · rcases same with never | ⟨_, never⟩ <;> cases never
  · exact names

/-! ### No dictionary opens with a name and a comma -/

/-- An expression of a name before a comma ends with the name. -/
def EndsBeforeComma (s : Source) (x : Scan Node) : Prop :=
  ∀ i first k v l, Token.next s i = .ok first k → NamesFirst s k first → x s i = .ok v l → l = k

/-- The text of a name before a comma: blanks, word characters, and a blank or the comma. -/
structure NameText (s : Source) (i : Nat) (blanks word : List Char) (k : Nat) : Prop where
  spans : s.Spans i (blanks ++ word) k
  white : ∀ c ∈ blanks, CharClass.white.has c = true
  head : CharClass.nameStart.hasOpt word.head? = true
  inside : ∀ c ∈ word, CharClass.word.has c = true
  stop : ∀ c ∈ (s.ahead k).head?, CharClass.white.has c = true ∨ c = ','

theorem nameText_of_namesFirst (run : Token.next s i = .ok first k) (names : NamesFirst s k first) :
    ∃ blanks word, NameText s i blanks word k := by
  obtain ⟨kind, name, comma, l, next, comma'⟩ := names
  have covers := covers_of_next run
  obtain ⟨blanks, before, white⟩ := covers.blanks
  have text : first.written = first.value.toList := by simp only [written, kind]
  have spans := before.append (text ▸ covers.spans)
  have behind := covers_of_next next
  obtain ⟨gap, before', white'⟩ := behind.blanks
  have table : ∀ form ∈ operators, form.2 = .comma → form.1 = "," := by decide
  have mark := behind.spans.ahead
  rw [Source.Cut.written_of_operator next (by rwa [comma']) (by rw [comma']; decide)] at mark
  have stop : ∀ c ∈ (s.ahead k).head?, CharClass.white.has c = true ∨ c = ',' := by
    rw [before'.ahead, mark]
    cases gap with
    | nil =>
      rintro c ⟨⟩
      exact .inr rfl
    | cons g gap =>
      rintro c ⟨⟩
      exact .inl (white' _ List.mem_cons_self)
  unfold isArgumentName at name
  cases chars : first.value.toList with
  | nil => simp [chars] at name
  | cons c rest =>
    simp only [chars, Bool.and_eq_true, List.all_eq_true] at name
    refine ⟨blanks, c :: rest, chars ▸ spans, white, name.1, ?_, stop⟩
    intro x place
    rcases List.mem_cons.mp place with rfl | place
    · exact word_of_nameStart name.1
    · exact name.2 x place

theorem NameText.outside {blanks word : List Char} (text : NameText s i blanks word k) {f : Char → Bool}
    (out : f ' ' = false ∧ f '\t' = false ∧ f ',' = false) : ∀ c ∈ (s.ahead k).head?, f c = false := by
  intro c head
  rcases text.stop c head with white | rfl
  · simp only [CharClass.has, Bool.or_eq_true, beq_iff_eq] at white
    rcases white with rfl | rfl
    · exact out.1
    · exact out.2.1
  · exact out.2.2

theorem nested_endsBeforeComma (s : Source) (depth : Nat) : EndsBeforeComma s (nested depth) := by
  intro i first k v l run names read
  obtain ⟨blanks, word, text⟩ := nameText_of_namesFirst run names
  obtain ⟨kind, -, comma, m, next, comma'⟩ := names
  cases depth with
  | zero => cases read
  | succ depth =>
    have whole : s.ahead i = blanks ++ (word ++ s.ahead k) := text.spans.ahead.trans (List.append_assoc ..)
    have nonempty : word ≠ [] := by
      rintro rfl
      simpa using text.head
    have stop : CharClass.name.hasOpt (s.ahead k).head? = false := by
      have outside := text.outside (f := CharClass.name.has) (by decide)
      cases front : (s.ahead k).head? with
      | none => rfl
      | some c => exact outside c front
    have brace : (s.ahead k).head? ≠ some '\x7b' := by
      intro front
      have outside := text.outside (f := (· == '\x7b')) (by decide) _ front
      cases outside
    have shifted : i + blanks.length + word.length = k := by
      rw [text.spans.cursor, List.length_append, Nat.add_assoc]
    have named : name (nested depth) s i = .ok (.identifier (String.ofList word) (s.position (i + blanks.length))) k := by
      rw [name_blanks blanks whole text.white, name_of_text _ nonempty text.head (fun x place => name_of_word (text.inside x place))
        stop brace (Source.ahead_of_append whole), shifted]
    have operand : Expr.primary (nested depth) s i =
        .ok (.identifier (String.ofList word) (s.position (i + blanks.length))) k := by
      simp only [Expr.primary, bind_of_ok (tell_apply s i), bind_of_ok run, kind, bind_of_ok (seek_apply i s k)]
      exact named
    have ends : EndsAt s k := ⟨comma, m, next, by rw [comma']; rfl⟩
    have found := nested_of_postfixed run (by rw [kind]; rfl) (postfixed_of_ends operand ends) ends
    exact (Reply.ok.inj (read.symm.trans found)).2

/-- The first run of a text is told by the class that it is of. -/
theorem run_unique {f : Char → Bool} {xs ys xs' ys' : List Char} (same : xs ++ ys = xs' ++ ys')
    (inside : ∀ c ∈ xs, f c = true) (inside' : ∀ c ∈ xs', f c = true) (stop : ∀ c ∈ ys.head?, f c = false)
    (stop' : ∀ c ∈ ys'.head?, f c = false) : xs = xs' := by
  have first (zs rest : List Char) (inside : ∀ c ∈ zs, f c = true) (stop : ∀ c ∈ rest.head?, f c = false) :
      (zs ++ rest).takeWhile f = zs := by
    rw [List.takeWhile_append_of_pos inside]
    cases rest with
    | nil => simp
    | cons c rest => simp [stop c rfl]
  rw [← first xs ys inside stop, same, first xs' ys' inside' stop']

theorem literalKey_endsBeforeComma (s : Source) : EndsBeforeComma s Expr.literalKey := by
  intro i first k v l run names read
  obtain ⟨blanks, word, text⟩ := nameText_of_namesFirst run names
  obtain ⟨xs, ys, spans, white, chars, nonempty, stop⟩ := literalKey_spans read
  have whole : xs ++ (ys ++ s.ahead l) = blanks ++ (word ++ s.ahead k) := by
    rw [← List.append_assoc, ← List.append_assoc, ← spans.ahead, text.spans.ahead]
  have keys : ∀ c ∈ word, isKeyChar c = true := by
    intro c place
    have inside := text.inside c place
    simp only [CharClass.has, Bool.or_eq_true, beq_iff_eq] at inside
    simp [isKeyChar, CharClass.has, inside]
  have solid {zs rest : List Char} (nonempty : zs ≠ []) (keys : ∀ c ∈ zs, isKeyChar c = true) :
      ∀ c ∈ (zs ++ rest).head?, CharClass.white.has c = false := by
    cases zs with
    | nil => exact absurd rfl nonempty
    | cons z zs =>
      rintro c ⟨⟩
      exact (isKeyChar_facts (keys z List.mem_cons_self)).1
  have named : word ≠ [] := by
    rintro rfl
    simpa using text.head
  obtain rfl := run_unique whole white text.white (solid nonempty chars) (solid named keys)
  obtain rfl := run_unique (List.append_cancel_left whole) chars keys stop (text.outside (by decide))
  rw [spans.cursor, text.spans.cursor]

theorem dict_refuses {key : Scan Node} {position : Position} {v : Node} (keys : EndsBeforeComma s key)
    (run : Token.next s i = .ok first k) (names : NamesFirst s k first) : dict expr key start position s i ≠ .ok v l := by
  intro read
  obtain ⟨word, -, comma, m, next, kind⟩ := id names
  rw [dict_eq, bind_of_ok (peek_of_next run), if_neg (by rw [word]; decide)] at read
  obtain ⟨turn, r, turned, -⟩ := repeatUpTo_first read
  obtain ⟨only, q, key, last⟩ := bind_ok.mp turned
  obtain rfl := keys i first k only q run names key
  rw [bind_of_ok next] at last
  simp only [kind] at last
  cases last

end Expr

namespace Source.Cut

open Scan Token VimScript.Expr

variable {s t : Source} {i j k l start : Nat} {cut : s.Cut t j} {expr : Scan Node} {brace first second : Token} {v : Node}

/-! ### What a brace opens -/

/-- The lambda that a brace opens, if the tokens behind it promise one. -/
def opened (expr : Scan Node) (brace first : Token) : Scan (Option Node) := do
  if ← promisesLambda first then lambda expr first brace.position else return none

/-- The reader of the keys behind a brace. -/
def keyOf (expr : Scan Node) (brace : Token) : Scan Node :=
  if brace.kind == .literalBraceOpen then Expr.literalKey else expr

/-- The lambda that was found, or else a dictionary or a name. -/
def lambdaOrDict (expr : Scan Node) (start inside : Nat) (brace : Token) (found : Option Node) : Scan Node :=
  match found with
  | some node => return node
  | none => do
    Scan.seek inside
    dict expr (keyOf expr brace) start brace.position

theorem braces_ok {u : Source} : braces expr start brace u i = .ok v l ↔
    ∃ first q found r, Token.next u i = .ok first q ∧ opened expr brace first u q = .ok found r ∧
      (found = some v ∧ r = l ∨ found = none ∧ dict expr (keyOf expr brace) start brace.position u i = .ok v l) := by
  have whole : braces expr start brace u i = (do
      let first ← Token.next
      let found ← opened expr brace first
      lambdaOrDict expr start i brace found) u i := rfl
  rw [whole, bind_ok]
  refine exists_congr fun first => exists_congr fun q => ?_
  rw [bind_ok]
  constructor
  · rintro ⟨next, found, r, read, last⟩
    refine ⟨found, r, next, read, ?_⟩
    cases found with
    | none => exact .inr ⟨rfl, last⟩
    | some node =>
      obtain ⟨rfl, rfl⟩ := Reply.ok.inj last
      exact .inl ⟨rfl, rfl⟩
  · rintro ⟨found, r, next, read, ⟨rfl, rfl⟩ | ⟨rfl, last⟩⟩
    · exact ⟨next, _, _, read, rfl⟩
    · exact ⟨next, _, _, read, last⟩

theorem opened_some {u : Source} :
    opened expr brace first u i = .ok (some v) l ↔ lambda expr first brace.position u i = .ok (some v) l := by
  rw [opened, bind_ok]
  constructor
  · rintro ⟨promise, k, seen, last⟩
    cases promise with
    | true =>
      obtain ⟨rfl, -⟩ := (promisesLambda_gives first u i).of_ok seen
      exact last
    | false => cases last
  · intro read
    obtain ⟨params, k, listed⟩ := parameters_of_lambda read
    exact ⟨true, i, promisesLambda_of_parameters listed, read⟩

/-- Where there is no lambda after all, none was promised, or no parameter stood first, or a name before a comma. -/
theorem opened_none (read : opened expr brace first s i = .ok none l) :
    opensParameter first.kind = false ∨ NamesFirst s i first ∨ promisesLambda first s i = .ok false i := by
  obtain ⟨promise, k, seen, last⟩ := bind_ok.mp read
  obtain ⟨rfl, -⟩ := (promisesLambda_gives first s i).of_ok seen
  cases promise with
  | true =>
    obtain ⟨k, listed⟩ := parameters_of_no_lambda last
    cases opens : opensParameter first.kind with
    | true => exact .inr (.inl (namesFirst_of_parameters listed opens))
    | false => exact .inl rfl
  | false => exact .inr (.inr seen)

/-- Where no parameter can stand there is no lambda, whatever was promised. -/
theorem opened_of_other {u : Source} (other : opensParameter first.kind = false) (next : Token.next u i = .ok second k) :
    ∃ l, opened expr brace first u i = .ok none l := by
  have none : lambda expr first brace.position u i = .ok none i := by
    rw [lambda, bind_of_ok (parameters_of_other other u i)]
    rfl
  obtain ⟨promise, seen⟩ : ∃ promise, promisesLambda first u i = .ok promise i := by
    cases tells : tellsLambda first.kind with
    | false => exact ⟨_, promisesLambda_of_next tells next⟩
    | true => exact ⟨_, by rw [promisesLambda_of_told tells]; rfl⟩
  rw [opened, bind_of_ok seen]
  cases promise with
  | true => exact ⟨i, none⟩
  | false => exact ⟨i, rfl⟩

theorem opened_of_unpromised {u : Source} (unpromised : promisesLambda first u i = .ok false i) :
    opened expr brace first u i = .ok none i := by
  rw [opened, bind_of_ok unpromised]
  rfl

theorem lambda_kept (inner : cut.Reads expr) (next : Token.next s i = .ok first k)
    (read : opened expr brace first s k = .ok (some v) l) :
    (i ≤ j ∧ l ≤ j ∧ Token.next t i = .ok first k ∧ opened expr brace first t k = .ok (some v) l) ∨ cut.Lost l := by
  have lambda := opened_some.mp read
  obtain ⟨params, m, listed⟩ := parameters_of_lambda lambda
  have opens : opensParameter first.kind = true := by
    by_contra other
    rw [parameters_of_other (by simpa using other)] at listed
    cases listed
  rcases lambda_holds inner first brace.position k _ l lambda with ⟨bound, -, within, right⟩ | never | lost
  · have more : first.kind ≠ .eof ∧ first.kind ≠ .number := by
      constructor <;>
        · intro same
          rw [same] at opens
          cases opens
    rcases cut.next_of_lead next more.1 with ⟨less, -, right', -⟩ | past | ⟨number, -⟩
    · exact .inl ⟨by omega, within, right', opened_some.mpr right⟩
    · omega
    · exact absurd number more.2
  · cases never
  · exact .inr lost

/-- A lambda that is not there before the cut is not made by the cut. -/
theorem no_lambda_after (cut : s.Cut t j) (before : i ≤ j) (read : opened expr brace first s i = .ok none l)
    (names : ¬NamesFirst s i first) : ∃ l', opened expr brace first t i = .ok none l' := by
  obtain ⟨promise, k, seen, -⟩ := bind_ok.mp read
  obtain ⟨-, looked⟩ := (promisesLambda_gives first s i).of_ok seen
  have reasons := (opened_none read).imp_right fun reason => reason.resolve_left names
  cases tells : tellsLambda first.kind with
  | true =>
    have unpromised (u : Source) : promisesLambda first u i = .ok (first.kind == .arrow) i := by
      rw [promisesLambda_of_told tells]
      rfl
    have arrow : (first.kind == .arrow) = false := by
      rcases reasons with other | unpromised'
      · refine beq_eq_false_iff_ne.mpr fun arrow => ?_
        rw [arrow] at other
        cases other
      · exact (Reply.ok.inj ((unpromised s).symm.trans unpromised')).1
    exact ⟨i, opened_of_unpromised (arrow ▸ unpromised t)⟩
  | false =>
    obtain ⟨second, m, next, -⟩ := looked tells
    rcases reasons with other | unpromised
    · obtain ⟨second', m', right⟩ : ∃ second' m', Token.next t i = .ok second' m' := by
        rcases cut.next_within before next with ⟨-, -, right⟩ | ⟨second', m', right, -⟩
        · exact ⟨_, _, right⟩
        · exact ⟨_, _, right⟩
      exact opened_of_other other right
    · have kinds := (Reply.ok.inj ((promisesLambda_of_next tells next).symm.trans unpromised)).1
      simp only [Bool.or_eq_false_iff, beq_eq_false_iff_ne] at kinds
      obtain ⟨second', m', right, arrow⟩ := cut.other_of_next before next (show isRemnant .arrow = false from rfl) kinds.1
      obtain ⟨_, _, again, comma⟩ := cut.other_of_next before next (show isRemnant .comma = false from rfl) kinds.2
      obtain ⟨rfl, rfl⟩ := Reply.ok.inj (right.symm.trans again)
      exact ⟨i, opened_of_unpromised (by rw [promisesLambda_of_next tells right]; simp [arrow, comma])⟩

theorem no_lambda_kept (cut : s.Cut t j) (before : i ≤ j) (next : Token.next s i = .ok first k)
    (read : opened expr brace first s k = .ok none l) (names : ¬NamesFirst s k first) :
    ∃ first' k' l', Token.next t i = .ok first' k' ∧ opened expr brace first' t k' = .ok none l' := by
  rcases cut.next_within before next with ⟨-, within, right⟩ | ⟨first', k', right, broken⟩
  · obtain ⟨l', same⟩ := no_lambda_after cut within read names
    exact ⟨first, k, l', right, same⟩
  · obtain ⟨second, m, readable⟩ := broken.readable
    have other : opensParameter first'.kind = false := by
      have remnant := broken.remnant
      revert remnant
      cases first'.kind <;> simp [isRemnant, opensParameter]
    obtain ⟨l', same⟩ := opened_of_other other readable
    exact ⟨first', k', l', right, same⟩

/-- What a brace opens is kept: a lambda, a dictionary or a name. -/
theorem braces_holds (inner : cut.Reads expr) (onward : ∀ low, Since low expr) (commas : EndsBeforeComma s expr)
    (run : Token.next s start = .ok brace i) (opens : brace.kind = .braceOpen ∨ brace.kind = .literalBraceOpen) :
    cut.Keeps i False (braces expr start brace) := by
  intro v l read
  obtain ⟨first, k, found, m, next, opened, ⟨rfl, rfl⟩ | ⟨rfl, dict⟩⟩ := braces_ok.mp read
  · refine (lambda_kept inner next opened).imp_left fun ⟨bound, within, right, same⟩ => ⟨bound, id, within, ?_⟩
    exact braces_ok.mpr ⟨first, k, _, _, right, same, .inl ⟨rfl, rfl⟩⟩
  · have keys : (∀ i, cut.Holds i False (fun _ => cut.Shut) (keyOf expr brace)) ∧
        Passes s expr (keyOf expr brace) start i ∧ EndsBeforeComma s (keyOf expr brace) := by
      rcases opens with brace | literal
      · rw [keyOf, if_neg (by rw [brace]; decide)]
        exact ⟨fun i => ((inner i).unless False.elim).mono fun _ _ lost => lost.2, name_passes_expr onward run brace, commas⟩
      · rw [keyOf, if_pos (by rw [literal]; rfl)]
        exact ⟨literalKey_holds, name_passes_literal onward run literal, literalKey_endsBeforeComma s⟩
    have names : ¬NamesFirst s k first := fun names => dict_refuses keys.2.2 next names dict
    refine (dict_holds inner keys.1 keys.2.1 v l dict).imp_left fun ⟨bound, _, within, same⟩ => ⟨bound, id, within, ?_⟩
    obtain ⟨first', k', l', right, opened'⟩ := no_lambda_kept cut bound next opened names
    exact braces_ok.mpr ⟨first', k', _, l', right, opened', .inr ⟨rfl, same⟩⟩

end Source.Cut

end VimScript
