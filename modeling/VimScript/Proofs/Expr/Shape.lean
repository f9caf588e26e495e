import VimScript.Expr
import VimScript.Proofs.Token.Extent
import VimScript.Proofs.Token.Literals

/-!
The shapes of the trees that expressions are read as: how the leaves of each sort are spelled and what the parts of a
name are. A register without a name is read at the end of a line only, so it can only be the last leaf of a tree.
-/

set_option autoImplicit false

namespace VimScript

variable {s : Source} {i j k : Nat} {ended ended' : Prop} {sort : Leaf} {text : String} {position : Position}
  {xs cs : List Char} {c : Char} {n : Node} {parts : List Node} {token : Token} {kind : TokenKind}

/-- Nothing more is on the line. -/
def Source.Ended (s : Source) (i : Nat) : Prop :=
  ∀ c ∈ (s.ahead i).head?, c = '\n'

/-- The mark of a script-local name, in either case. -/
def IsScope (text : List Char) : Prop :=
  text.map Char.toLower = "<sid>".toList

/-- The texts of the leaves of a sort. Some are found only where a line has ended. -/
inductive Leaf.Spelled (ended : Prop) : Leaf → List Char → Prop where
  | number {d : Char} {ds : List Char} (digit : CharClass.digit.has d = true)
      (chars : ∀ x ∈ ds, Token.isNumberChar x = true) : Spelled ended .number (d :: ds)
  | blob {mark : Char} {ds : List Char} (isMark : mark = 'z' ∨ mark = 'Z')
      (chars : ∀ x ∈ ds, CharClass.hex.has x = true ∨ x = '.') : Spelled ended .blob ('0' :: mark :: ds)
  | option {ws : List Char} (chars : ∀ x ∈ ws, CharClass.name.has x = true) : Spelled ended .option ('&' :: ws)
  | env {ws : List Char} (word : ∀ x ∈ ws, CharClass.word.has x = true) : Spelled ended .env ('$' :: ws)
  | register {c : Char} : Spelled ended .register ['@', c]
  | unnamedRegister (stop : ended) : Spelled ended .register ['@']
  | singleQuoted {body : List Char} (quoted : Token.SingleQuoted body) :
    Spelled ended .string ('\'' :: (body ++ ['\'']))
  | doubleQuoted {body : List Char} (quoted : Token.DoubleQuoted body) : Spelled ended .string ('"' :: (body ++ ['"']))
  | name {c : Char} {cs : List Char} (start : CharClass.digit.has c = false) (front : CharClass.name.has c = true)
      (chars : ∀ x ∈ cs, CharClass.name.has x = true) : Spelled ended .identifier (c :: cs)
  | scope {cs : List Char} (scope : IsScope cs) : Spelled ended .identifier cs

theorem Leaf.Spelled.mono (h : sort.Spelled ended cs) (weaker : ended → ended') : sort.Spelled ended' cs := by
  cases h with
  | unnamedRegister stop => exact .unnamedRegister (weaker stop)
  | number digit chars => exact .number digit chars
  | blob isMark chars => exact .blob isMark chars
  | option chars => exact .option chars
  | env word => exact .env word
  | register => exact .register
  | singleQuoted quoted => exact .singleQuoted quoted
  | doubleQuoted quoted => exact .doubleQuoted quoted
  | name start front chars => exact .name start front chars
  | scope scope => exact .scope scope

/-- The parts of a name, and whether a run of name characters ends it. Two runs never meet. -/
inductive NameParts : List Node → Bool → Prop where
  | nil : NameParts [] false
  | scope {text : String} {position : Position} (scope : IsScope text.toList) :
      NameParts [.leaf .curlyPart text position] false
  | run {parts : List Node} {position : Position} {c : Char} {cs : List Char} (before : NameParts parts false)
      (start : parts = [] → CharClass.digit.has c = false) (front : CharClass.name.has c = true)
      (chars : ∀ x ∈ cs, CharClass.name.has x = true) :
      NameParts (parts ++ [.leaf .curlyPart (String.ofList (c :: cs)) position]) true
  | braced {parts : List Node} {position : Position} {value : Node} {run : Bool} (before : NameParts parts run) :
      NameParts (parts ++ [.mk position (.curlyExpr value)]) false

/-- A parameter of a lambda: a name, or dots for the rest of the arguments. -/
def Node.IsParameter (n : Node) : Prop :=
  ∃ text position, n = .identifier text position ∧
    (text = "..." ∨ text.toList ≠ [] ∧ ∀ c ∈ text.toList, CharClass.name.has c = true)

namespace Node

/-- The trees of expressions that are read. Only the last leaf stands where a line may have ended. -/
inductive Shaped : Prop → Node → Prop where
  | leaf {ended : Prop} {sort : Leaf} {text : String} {position : Position} (spelled : sort.Spelled ended text.toList) :
      Shaped ended (.mk position (.leaf sort text))
  | unary {ended : Prop} {op : UnaryOp} {value : Node} {position : Position} (inner : Shaped ended value) :
      Shaped ended (.mk position (.unary op value))
  | binary {ended : Prop} {op : BinaryOp} {left right : Node} {position : Position} (first : Shaped False left)
      (last : Shaped ended right) : Shaped ended (.mk position (.binary op left right))
  | ternary {ended : Prop} {cond yes no : Node} {position : Position} (first : Shaped False cond)
      (second : Shaped False yes) (last : Shaped ended no) : Shaped ended (.mk position (.ternary cond yes no))
  | subscript {ended : Prop} {left index : Node} {position : Position} (first : Shaped False left)
      (inner : Shaped False index) : Shaped ended (.mk position (.subscript left index))
  | slice {ended : Prop} {left : Node} {lower upper : Option Node} {position : Position} (first : Shaped False left)
      (below : ∀ n ∈ lower, Shaped False n) (above : ∀ n ∈ upper, Shaped False n) :
      Shaped ended (.mk position (.slice left lower upper))
  | dot {ended : Prop} {left : Node} {text : String} {position position' : Position} (first : Shaped False left)
      (some : text.toList ≠ []) (word : ∀ c ∈ text.toList, CharClass.word.has c = true) :
      Shaped ended (.mk position (.dot left (.identifier text position')))
  | call {ended : Prop} {callee : Node} {args : List Node} {position : Position} (first : Shaped False callee)
      (inner : ∀ n ∈ args, Shaped False n) : Shaped ended (.mk position (.call callee args))
  | method {ended : Prop} {left right : Node} {position : Position} (first : Shaped False left)
      (last : Shaped False right) : Shaped ended (.mk position (.method left right))
  | list {ended : Prop} {items : List Node} {position : Position} (inner : ∀ n ∈ items, Shaped False n) :
      Shaped ended (.mk position (.list items))
  | dict {ended : Prop} {entries : List (Node × Node)} {position : Position}
      (keys : ∀ e ∈ entries, Shaped False e.1) (values : ∀ e ∈ entries, Shaped False e.2) :
      Shaped ended (.mk position (.dict entries))
  | curlyName {ended : Prop} {parts : List Node} {run : Bool} {position : Position} (known : NameParts parts run)
      (some : parts ≠ []) (several : ∀ text position, parts ≠ [.leaf .curlyPart text position])
      (inner : ∀ position value, Node.mk position (.curlyExpr value) ∈ parts → Shaped False value) :
      Shaped ended (.mk position (.curlyName parts))
  | lambda {ended : Prop} {params : List Node} {body : Node} {position : Position} (known : ∀ n ∈ params, n.IsParameter)
      (inner : Shaped False body) : Shaped ended (.mk position (.lambda params body))

theorem Shaped.mono (h : n.Shaped ended) (weaker : ended → ended') : n.Shaped ended' := by
  induction h generalizing ended' with
  | leaf spelled => exact .leaf (spelled.mono weaker)
  | unary _ ih => exact .unary (ih weaker)
  | binary first _ _ ih => exact .binary first (ih weaker)
  | ternary first second _ _ _ ih => exact .ternary first second (ih weaker)
  | subscript first inner => exact .subscript first inner
  | slice first below above => exact .slice first below above
  | dot first some word => exact .dot first some word
  | call first inner => exact .call first inner
  | method first last => exact .method first last
  | list inner => exact .list inner
  | dict keys values => exact .dict keys values
  | curlyName known some several inner => exact .curlyName known some several inner
  | lambda known inner => exact .lambda known inner

end Node

/-! ### Tokens -/

namespace Token

def isInLine : TokenKind → Bool
  | .eol | .eof => false
  | _ => true

theorem taken_of_next (run : next s i = .ok token j) : ∃ k, Scan.skipWhite s i = .ok () k ∧ Taken s k token j := by
  obtain ⟨ws, k, before, white, solid, taken⟩ := gives_next s i token j run
  have skipped := Scan.skipWhite_of_ahead ws before.ahead white solid
  rw [← before.cursor] at skipped
  exact ⟨k, skipped, taken⟩

theorem not_isInLine_of_ended (line : s.Ended i) (run : next s i = .ok token j) : isInLine token.kind = false := by
  cases ahead : s.ahead i with
  | nil =>
    rw [next_of_empty ahead] at run
    obtain ⟨rfl, -⟩ := Reply.ok.inj run
    rfl
  | cons c cs =>
    obtain rfl : c = '\n' := line c (by simp [ahead])
    rw [next_of_newline ahead] at run
    obtain ⟨rfl, -⟩ := Reply.ok.inj run
    rfl

theorem Spelling.front_of_identifier (spelled : Spelling .identifier xs cs) :
    ∃ d ds, xs = d :: ds ∧ CharClass.nameStart.has d = true ∧ ∀ x ∈ ds, CharClass.name.has x = true := by
  cases spelled with
  | identifier start chars => exact ⟨_, _, rfl, start, chars⟩
  | form found =>
    have table : ∀ form ∈ operatorForms, form.2 ≠ .identifier := by decide
    exact absurd rfl (table _ (List.mem_of_find?_eq_some found))
  | punctuation _ entry =>
    have table : ∀ entry ∈ Token.punctuation, entry.2 ≠ .identifier := by decide
    exact absurd rfl (table _ (mem_of_lookup entry))

theorem SingleQuoted.append (first : SingleQuoted xs) (second : SingleQuoted cs) : SingleQuoted (xs ++ cs) := by
  induction first with
  | nil => exact second
  | quote _ ih => exact .quote ih
  | char plain line _ ih => exact .char plain line ih

theorem DoubleQuoted.append (first : DoubleQuoted xs) (second : DoubleQuoted cs) : DoubleQuoted (xs ++ cs) := by
  induction first with
  | nil => exact second
  | escape line _ ih => exact .escape line ih
  | char plain noEscape line _ ih => exact .char plain noEscape line ih

theorem ahead_of_peekInLine (h : (s.ahead i).head?.filter (· != '\n') = some c) :
    c ≠ '\n' ∧ ∃ cs, s.ahead i = c :: cs := by
  obtain ⟨front, line⟩ := Option.filter_eq_some_iff.mp h
  exact ⟨by simpa using line, List.head?_eq_some_iff.mp front⟩

theorem gives_singleQuoted (s : Source) (i : Nat) :
    singleQuoted.Gives s i fun text j => ∃ k body, Scan.skipWhite s i = .ok () k ∧ text = String.ofList body ∧
      SingleQuoted body ∧ s.Spans k ('\'' :: (body ++ ['\''])) j := by
  refine .step fun _ k blanks => .after (Scan.peek_of_ahead rfl) (.ite (fun _ => .stop .failHere) fun opens => ?_)
  obtain ⟨rest, opens⟩ := List.head?_eq_some_iff.mp (by simpa using opens)
  have first : s.Spans k ['\''] (k + 1) := .of_append opens
  refine .after (Scan.skip_apply 1 s k) (.after (Scan.tell_apply s (k + 1)) ?_)
  refine .loop (fun _ j => ∃ xs, s.Spans (k + 1) xs j ∧ SingleQuoted xs) ⟨[], .nil s _, .nil⟩ ?_
  rintro _ j ⟨xs, before, quoted⟩
  refine .after (Scan.peekInLine_of_ahead rfl) ?_
  split
  · exact .failHere
  · rename_i front
    obtain ⟨-, cs, ahead⟩ := ahead_of_peekInLine front
    have after := Source.ahead_of_cons ahead
    refine .after (Scan.tell_apply s j) (.after (Scan.skip_apply 1 s j) (.after (Scan.peek_of_ahead after) ?_))
    refine .ite (fun twice => ?_) fun _ => ?_
    · obtain ⟨cs, rfl⟩ := List.head?_eq_some_iff.mp (by simpa using twice)
      have quote : s.Spans j ['\'', '\''] (j + 2) := .of_append ahead
      exact .after (Scan.skip_apply 1 s (j + 1)) (.pure ⟨_, before.append quote, quoted.append (.quote .nil)⟩)
    · refine .after (j := j + 1) (a := s.text (k + 1) j) rfl (.pure ⟨k, xs, blanks, before.text, quoted, ?_⟩)
      exact first.append (before.append (.of_append ahead))
  · rename_i c plain front
    obtain ⟨line, cs, ahead⟩ := ahead_of_peekInLine front
    have char : s.Spans j [c] (j + 1) := .of_append ahead
    refine .after (Scan.skip_apply 1 s j) (.pure ⟨_, before.append char, quoted.append (.char ?_ line .nil)⟩)
    rintro rfl
    exact plain rfl

theorem gives_doubleQuoted (s : Source) (i : Nat) :
    doubleQuoted.Gives s i fun text j => ∃ k body, Scan.skipWhite s i = .ok () k ∧ text = String.ofList body ∧
      DoubleQuoted body ∧ s.Spans k ('"' :: (body ++ ['"'])) j := by
  refine .step fun _ k blanks => .after (Scan.peek_of_ahead rfl) (.ite (fun _ => .stop .failHere) fun opens => ?_)
  obtain ⟨rest, opens⟩ := List.head?_eq_some_iff.mp (by simpa using opens)
  have first : s.Spans k ['"'] (k + 1) := .of_append opens
  refine .after (Scan.skip_apply 1 s k) (.after (Scan.tell_apply s (k + 1)) ?_)
  refine .loop (fun _ j => ∃ xs, s.Spans (k + 1) xs j ∧ DoubleQuoted xs) ⟨[], .nil s _, .nil⟩ ?_
  rintro _ j ⟨xs, before, quoted⟩
  refine .after (Scan.peekInLine_of_ahead rfl) ?_
  split
  · exact .failHere
  · rename_i front
    obtain ⟨-, cs, ahead⟩ := ahead_of_peekInLine front
    refine .after (Scan.tell_apply s j) (.after (Scan.skip_apply 1 s j) ?_)
    refine .after (j := j + 1) (a := s.text (k + 1) j) rfl (.pure ⟨k, xs, blanks, before.text, quoted, ?_⟩)
    exact first.append (before.append (.of_append ahead))
  · rename_i front
    obtain ⟨-, cs, ahead⟩ := ahead_of_peekInLine front
    have after := Source.ahead_of_cons ahead
    refine .after (Scan.skip_apply 1 s j) (.after (Scan.peekInLine_of_ahead after) ?_)
    split
    · exact .failHere
    · rename_i d second
      obtain ⟨line, rest, ahead'⟩ := ahead_of_peekInLine (after ▸ second)
      have pair : s.Spans j ['\\', d] (j + 2) := .of_append (by rw [ahead, ← after, ahead']; rfl)
      exact .after (Scan.skip_apply 1 s (j + 1)) (.pure ⟨_, before.append pair, quoted.append (.escape line .nil)⟩)
  · rename_i c plain noEscape front
    obtain ⟨line, cs, ahead⟩ := ahead_of_peekInLine front
    have char : s.Spans j [c] (j + 1) := .of_append ahead
    refine .after (Scan.skip_apply 1 s j) (.pure ⟨_, before.append char, quoted.append (.char ?_ ?_ line .nil)⟩)
    · rintro rfl
      exact plain rfl
    · rintro rfl
      exact noEscape rfl

theorem gives_literalKey (s : Source) (i : Nat) :
    literalKey.Gives s i fun found j => ∃ k key, found = (String.ofList key, s.position (k + 1)) ∧
      (∀ c ∈ key, isKeyChar c = true) ∧ s.Spans k key j := by
  refine .step fun _ k _ => .after (Scan.peek_of_ahead rfl) (.ite (fun _ => .stop .failHere) fun known => ?_)
  refine .after (Scan.tell_apply s k) (.after (Scan.skip_apply 1 s k) (.after (Scan.here_apply s (k + 1)) ?_))
  refine (Scan.gives_skipWhile isKeyChar s (k + 1)).bind ?_
  rintro _ j ⟨xs, tail, chars, -⟩
  refine .after (Scan.peekInLine_of_ahead rfl) (.ite (fun _ => .stop .failHere) fun _ => ?_)
  obtain ⟨c, front, first⟩ := (Option.any_eq_true _ _).mp (by simpa using known)
  obtain ⟨cs, ahead⟩ := List.head?_eq_some_iff.mp front
  have head : s.Spans k [c] (k + 1) := .of_append ahead
  have whole : s.Spans k (c :: xs) j := head.append tail
  refine .after (j := j) (a := s.text k j) rfl (.pure ⟨k, c :: xs, by rw [whole.text], ?_, whole⟩)
  simpa [first] using fun x place => (chars x place).2

end Token

theorem Scan.peeking_ok {α : Type} {x : Scan α} {a : α} (run : Scan.peeking x s i = .ok a j) :
    j = i ∧ ∃ k, x s i = .ok a k := by
  simp only [Scan.peeking] at run
  split at run
  · rename_i b k found
    obtain ⟨rfl, rfl⟩ := Reply.ok.inj run
    exact ⟨rfl, k, found⟩
  · cases run
  · cases run

theorem Node.Shaped.closed (h : n.Shaped (s.Ended i)) (run : Token.next s i = .ok token j)
    (inside : Token.isInLine token.kind = true) : n.Shaped False :=
  h.mono fun line => by simp [Token.not_isInLine_of_ended line run] at inside

/-- The sort of the leaf that a token of a kind is alone. -/
def TokenKind.leaf? : TokenKind → Option Leaf
  | .number => some .number
  | .blob => some .blob
  | .option => some .option
  | .env => some .env
  | .register => some .register
  | _ => none

theorem spelled_of_next (run : Token.next s i = .ok token j) (known : token.kind.leaf? = some sort) :
    sort.Spelled (s.Ended j) token.value.toList := by
  obtain ⟨_, -, taken⟩ := Token.taken_of_next run
  cases taken with
  | eof | eol => simp [TokenKind.leaf?] at known
  | lexeme _ spelled =>
    rw [String.toList_ofList]
    cases spelled with
    | form found =>
      have table : ∀ form ∈ Token.operatorForms, form.2.leaf? = none := by decide
      rw [table _ (List.mem_of_find?_eq_some found)] at known
      cases known
    | punctuation _ entry =>
      have table : ∀ entry ∈ Token.punctuation, entry.2.leaf? = none := by decide
      rw [table _ (Token.mem_of_lookup entry)] at known
      cases known
    | identity | identifier => simp [TokenKind.leaf?] at known
    | number digit chars => obtain rfl := Option.some.inj known; exact .number digit chars
    | blob isMark chars => obtain rfl := Option.some.inj known; exact .blob isMark chars
    | env word => obtain rfl := Option.some.inj known; exact .env word
    | option chars => obtain rfl := Option.some.inj known; exact .option chars
    | register => obtain rfl := Option.some.inj known; exact .register
    | unnamedRegister stop => obtain rfl := Option.some.inj known; exact .unnamedRegister stop

end VimScript
