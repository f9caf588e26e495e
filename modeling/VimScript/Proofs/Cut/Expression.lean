import VimScript.Proofs.Cut.Brace
import VimScript.Proofs.Script.Termination

/-!
Expressions and targets before a cut. What is read up to the cut is read from the second buffer as well.
-/

set_option autoImplicit false

namespace VimScript.Source.Cut

open Scan Token VimScript.Expr

variable {α β : Type} {s t : Source} {i j k l : Nat} {cut : s.Cut t j} {expr operand : Scan Node} {token : Token} {v : Node}

/-! ### Tokens that are read again -/

/-- A token is put back for a reader that takes its text. -/
theorem Holds.back {x : Scan β} {final : β → Nat → Prop} (h : cut.Holds i False final x)
    (past : j < k → ∀ v l, x s i = .ok v l → j < l) : cut.Holds k False final (do Scan.seek i; x) := by
  intro v l run
  rcases h v l run with ⟨bound, -, within, right⟩ | gone
  · refine .inl ⟨?_, id, within, right⟩
    by_contra out
    have later := past (by omega) v l run
    omega
  · exact .inr gone

/-- Kinds of token of which the whole text can stand in a name. -/
def isWord : TokenKind → Bool
  | .identifier | .compare .is .byOption | .compare .is .matching | .compare .isNot .byOption | .compare .isNot .matching =>
    true
  | _ => false

theorem name_of_identifier {xs rest : List Char} (spelled : Spelling .identifier xs rest) :
    ∀ c ∈ xs, CharClass.name.has c = true := by
  cases spelled with
  | identifier start chars =>
    intro c place
    rcases List.mem_cons.mp place with rfl | place
    · exact name_of_nameStart start
    · exact chars c place
  | form found =>
    have listed : (_, TokenKind.identifier) ∈ operators :=
      List.mem_append_left _ (List.mem_append_left _ (List.mem_of_find?_eq_some found))
    exact absurd (by simp) (operators_kind _ listed)
  | @punctuation c _ _ _ entry =>
    have listed : (_, TokenKind.identifier) ∈ operators :=
      List.mem_append_right _ (List.mem_map.mpr ⟨(c, TokenKind.identifier), mem_of_lookup entry, rfl⟩)
    exact absurd (by simp) (operators_kind _ listed)

theorem name_of_isWord (run : Token.next s i = .ok token k) (word : isWord token.kind = true) :
    ∀ c ∈ token.written, CharClass.name.has c = true := by
  obtain ⟨ws, l, -, -, -, taken⟩ := gives_next s i token k run
  cases taken with
  | eof | eol => cases word
  | @lexeme kind xs _ _ spelled =>
    rw [written_of_spelling spelled]
    by_cases identifier : kind = .identifier
    · subst identifier
      exact name_of_identifier spelled
    · have table : ∀ form ∈ operators, isWord form.2 = true → form.1.toList.all CharClass.name.has = true := by decide
      have symbol : kind ∉ ([.number, .blob, .identifier, .env, .register, .option] : List TokenKind) := by
        intro place
        simp only [List.mem_cons, List.not_mem_nil, or_false] at place
        rcases place with rfl | rfl | rfl | rfl | rfl | rfl <;> first | exact absurd rfl identifier | cases word
      have listed := table _ (spelled.mem_operators symbol) word
      rw [String.toList_ofList] at listed
      exact List.all_eq_true.mp listed

/-- No word reaches over the cut, and the name ends behind the start of the word. -/
theorem past_of_word (cut : s.Cut t j) (onward : ∀ low, Since low expr) (run : Token.next s i = .ok token k)
    (word : isWord token.kind = true) (past : j < k) (read : name expr s i = .ok v l) : j < l := by
  have covers := covers_of_next run
  obtain ⟨ws, before, white⟩ := covers.blanks
  have order : j < token.position.cursor := by
    by_contra inside
    obtain ⟨n, last⟩ := Nat.exists_eq_add_of_le (Nat.le_of_not_lt inside)
    have length := covers.spans.cursor
    have less : n < token.written.length := by omega
    have char : (s.ahead j).head? = some token.written[n] := by
      rw [← Source.char?_eq, last, Source.char?_add, covers.spans.ahead, List.getElem?_append_left less,
        List.getElem?_eq_getElem less]
    have stop := cut.stop
    rw [char, CharClass.hasOpt_some, name_of_isWord run word _ (List.getElem_mem less)] at stop
    cases stop
  rw [name_blanks ws before.ahead white, ← before.cursor] at read
  have later := (name_since (onward _) s _ (Nat.le_refl _)).of_ok read
  omega

theorem word_holds (inner : cut.Reads expr) (onward : ∀ low, Since low expr) (run : Token.next s i = .ok token k)
    (word : isWord token.kind = true) : cut.Keeps k False (do Scan.seek i; name expr) :=
  (name_holds inner i).back fun past _ _ read => past_of_word cut onward run word past read

/-- A string is read again from its opening quote. -/
theorem quoted_holds {x : Scan String} {mark : Char} {text : String} (holds : cut.Keeps i False x)
    (quotes : x.Gives s i fun _ l => ∃ b xs, Scan.skipWhite s i = .ok () b ∧ s.Spans b (mark :: xs) l)
    (run : Token.next s i = .ok token k) (only : ∀ form ∈ operators, form.2 = token.kind → form.1 = text)
    (symbol : token.kind ∉ ([.eol, .eof, .number, .blob, .identifier, .env, .register, .option] : List TokenKind))
    (chars : text.toList = [mark]) (solid : CharClass.white.has mark = false) (make : String → Node) :
    cut.Keeps k False (do
      Scan.seek i
      let body ← x
      return make body) := by
  refine Holds.back (holds.bind fun body l _ => cut.keeps_pure l _) fun past v l whole => ?_
  obtain ⟨body, _, read, last⟩ := bind_ok.mp whole
  obtain ⟨-, rfl⟩ := Reply.ok.inj last
  obtain ⟨b, skip, -, rfl⟩ := operator_text run only symbol chars solid
  obtain ⟨b', xs, skip', spans⟩ := quotes.of_ok read
  obtain ⟨-, rfl⟩ := Reply.ok.inj (skip.symm.trans skip')
  have stop := spans.cursor
  rw [chars, List.length_singleton] at past
  rw [List.length_cons] at stop
  omega

/-! ### Script-local names -/

theorem afterAngle_eq (u : Source) (i : Nat) : afterAngleIsScriptId u i =
    .ok (sameIgnoringCase (String.ofList ((Source.run (fun _ => true) (u.ahead i)).take 4)) "SID>") i := by
  rw [afterAngleIsScriptId, bind_of_ok (show Scan.peekRun 4 u i = _ from peeking_of_ok (take_eq 4 u i))]
  rfl

/-- A name that starts with the mark of a script ends behind it. -/
theorem past_of_scope {b : Nat} (onward : ∀ low, Since low expr) (skip : Scan.skipWhite s i = .ok () b)
    (front : s.ahead b = '<' :: s.ahead (b + 1))
    (scope : sameIgnoringCase (String.ofList ((Source.run (fun _ => true) (s.ahead (b + 1))).take 4)) "SID>" = true)
    (read : name expr s i = .ok v l) : b + 5 ≤ l := by
  rw [name, bind_of_ok skip, bind_of_ok (here_apply s b), nameParts_eq_loop] at read
  obtain ⟨parts, _, found, last⟩ := bind_ok.mp read
  obtain ⟨-, rfl⟩ := Reply.ok.inj last
  have whole : (Source.run (fun _ => true) (s.ahead b)).take 5 =
      '<' :: (Source.run (fun _ => true) (s.ahead (b + 1))).take 4 := by
    rw [front]
    rfl
  have mark : sameIgnoringCase (String.ofList ((Source.run (fun _ => true) (s.ahead b)).take 5)) "<SID>" = true := by
    rw [sameIgnoringCase, String.toList_ofList, beq_iff_eq] at scope
    rw [sameIgnoringCase, String.toList_ofList, whole, List.map_cons, scope]
    decide
  have length := length_of_sameIgnoringCase mark
  rw [String.toList_ofList] at length
  have marked := scriptMark_eq (take_eq 5 s b)
  rw [if_pos mark, length] at marked
  rw [bind_of_ok marked] at found
  exact le_of_nameTurns onward found

theorem angle_holds (inner : cut.Reads expr) (onward : ∀ low, Since low expr) (run : Token.next s i = .ok token k)
    (angle : token.kind = .compare .smaller .byOption) : cut.Keeps k False (do
      if ← afterAngleIsScriptId then
        Scan.seek i
        name expr
      else
        unexpected token) := by
  have only : ∀ form ∈ operators, form.2 = .compare .smaller .byOption → form.1 = "<" := by decide
  obtain ⟨b, skip, front, stop⟩ := operator_text run (by rwa [angle]) (by rw [angle]; decide) (show "<".toList = ['<'] from rfl) rfl
  obtain rfl : k = b + 1 := stop
  intro v l read
  rw [bind_of_ok (afterAngle_eq s _)] at read
  by_cases scope : sameIgnoringCase (String.ofList ((Source.run (fun _ => true) (s.ahead (b + 1))).take 4)) "SID>" = true
  · rw [if_pos scope, bind_of_ok (seek_apply i s _)] at read
    have long := past_of_scope onward skip front scope read
    refine (name_holds inner i v l read).imp_left fun ⟨bound, _, within, right⟩ => ?_
    -- The whole mark stands before the cut.
    obtain ⟨mark, q, -, -, taken, taken'⟩ := cut.take_within 4 (i := b + 1) (by omega)
    have same := (take_eq 4 t (b + 1)).symm.trans (taken'.trans (taken.symm.trans (take_eq 4 s (b + 1))))
    refine ⟨by omega, id, within, ?_⟩
    rw [bind_of_ok (afterAngle_eq t _), (Reply.ok.inj same).1, if_pos scope, bind_of_ok (seek_apply i t _)]
    exact right
  · rw [if_neg scope] at read
    cases read

/-! ### Operands -/

theorem primary_holds (inner : cut.Reads expr) (onward : ∀ low, Since low expr) (commas : EndsBeforeComma s expr) :
    cut.Reads (primary expr) := by
  intro i
  apply Holds.tell
  apply Holds.lead
  · rintro token k v l - read ended
    simp only [ended] at read
    cases read
  · intro token k v l number lost read
    simp only [number] at read
    obtain ⟨rfl, rfl⟩ := Reply.ok.inj read
    exact lost
  intro token k run
  split
  case h_1 | h_2 | h_3 | h_4 | h_5 => exact .give
  case h_6 kind =>
    refine quoted_holds (doubleQuoted_holds i) ((gives_doubleQuoted s i).mono ?_) run ?_ ?_ (show "\"".toList = ['"'] from rfl) rfl _
    · rintro _ l ⟨b, body, skip, -, -, spans⟩
      exact ⟨b, _, skip, spans⟩
    · rw [kind]
      decide
    · rw [kind]
      decide
  case h_7 kind =>
    refine quoted_holds (singleQuoted_holds i) ((gives_singleQuoted s i).mono ?_) run ?_ ?_ (show "'".toList = ['\''] from rfl) rfl _
    · rintro _ l ⟨b, body, skip, -, -, spans⟩
      exact ⟨b, _, skip, spans⟩
    · rw [kind]
      decide
    · rw [kind]
      decide
  case h_8 => exact list_holds inner token.position k
  case h_9 kind => exact braces_holds inner onward commas run (.inl kind)
  case h_10 kind => exact braces_holds inner onward commas run (.inr kind)
  case h_11 =>
    apply ((inner k).unless False.elim).bind
    intro value l _
    exact (Holds.expect rfl fun _ _ => .give).unless And.right
  case h_12 kind => exact angle_holds inner onward run kind
  case h_13 kind | h_14 kind | h_15 kind | h_16 kind | h_17 kind =>
    exact word_holds inner onward run (by rw [kind]; rfl)
  case h_18 => exact .fail

/-! ### Operators -/

/-- No operator is among the kinds of token that may not be shared or that may be left of another one at the cut. -/
def Steady (f : TokenKind → Option α) : Prop :=
  f .eol = none ∧ f .eof = none ∧ f .identifier = none ∧ f .number = none ∧ f .blob = none

theorem Steady.isFixed {f : TokenKind → Option α} (steady : Steady f) {kind : TokenKind} (acts : (f kind).isSome = true) :
    isFixed kind = true := by
  obtain ⟨-, ended, name, number, -⟩ := steady
  cases kind <;> first | rfl | simp_all

/-- An operator and its operand, or else the token is put back. -/
theorem Holds.operator {final : β → Nat → Prop} {operator : TokenKind → Option BinaryOp} {v : β} {f : Token → BinaryOp → Scan β}
    (steady : Steady operator) (kept : cut.Lost i → final v i)
    (goes : ∀ token op k, cut.Holds k False final (f token op)) : cut.Holds i (cut.Lost i) final (do
      let start ← Scan.tell
      let token ← Token.next
      match operator token.kind with
      | some op => f token op
      | none =>
        Scan.seek start
        return v) := by
  apply Holds.tell
  have ends : (operator .eol).isSome = false ∧ (operator .blob).isSome = false := by
    obtain ⟨line, -, -, -, blob⟩ := steady
    simp [line, blob]
  refine Holds.glance (fun kind => (operator kind).isSome) (fun _ => steady.isFixed) ends ?_ ?_ kept
  · intro token quiet
    rw [Option.isSome_eq_false_iff, Option.isNone_iff_eq_none] at quiet
    simp only [quiet]
  · intro token k _ acts
    obtain ⟨op, found⟩ := Option.isSome_iff_exists.mp acts
    simp only [found]
    exact goes token op k

theorem chain_holds {operator : TokenKind → Option BinaryOp} (steady : Steady operator) (inner : cut.Reads operand) :
    cut.Reads (chain operator operand) := by
  intro i
  apply (inner i).bind
  intro first k _
  refine .loop_of_all (fun _ => cut.Lost) fun left k => Holds.operator steady (fun lost => lost) fun token op l => ?_
  exact (((inner l).unless False.elim).mono fun _ _ lost => .inr lost).map

theorem comparison_holds (inner : cut.Reads operand) : cut.Reads (comparison operand) := by
  have steady : Steady TokenKind.comparison? := ⟨rfl, rfl, rfl, rfl, rfl⟩
  intro i
  apply (inner i).bind
  intro left k _
  refine Holds.operator steady id fun token op l => ?_
  apply ((inner l).unless False.elim).bind
  intro right m _
  exact cut.keeps_pure m _

theorem signs_holds (cut : s.Cut t j) (i : Nat) : cut.Holds i (cut.Blind i) (fun _ => cut.Blind) signs := by
  refine .loop_of_all (fun _ => cut.Blind) fun ops k => Holds.tell ?_
  intro turn l run
  obtain ⟨token, m, next, last⟩ := bind_ok.mp run
  cases sign : token.kind.unary? with
  | some op =>
    simp only [sign] at last
    obtain ⟨rfl, rfl⟩ := Reply.ok.inj last
    have plain : token.kind ≠ .eof ∧ token.kind ≠ .number := by
      constructor <;>
        · intro same
          rw [same] at sign
          cases sign
    rcases cut.next_of_lead next plain.1 with ⟨less, within, right, seen⟩ | past | ⟨number, -⟩
    · refine .inl ⟨by omega, seen, within, ?_⟩
      rw [bind_of_ok right]
      simp only [sign]
      rfl
    · exact .inr (.inl past)
    · exact absurd number plain.2
  | none =>
    simp only [sign] at last
    obtain ⟨rfl, rfl⟩ := Reply.ok.inj last
    by_cases blind : cut.Blind k
    · exact .inr blind
    · obtain ⟨less, token', m', right, seen⟩ := cut.next_of_seen blind
      have none : token'.kind.unary? = none := by
        rcases seen with blob | left
        · rw [blob]
          rfl
        · obtain ⟨rfl, -⟩ := Reply.ok.inj (next.symm.trans left)
          exact sign
      refine .inl ⟨by omega, blind, by omega, ?_⟩
      rw [bind_of_ok right]
      simp only [none]
      rfl

theorem prefixed_holds (inner : cut.Reads operand) : cut.Reads (prefixed operand) := by
  intro i
  rw [prefixed_eq]
  refine (cut.signs_holds i).through (fun _ => cut.Blind) (fun _ _ => .inr) fun ops k _ => ?_
  apply (inner k).bind
  intro value l _
  exact cut.keeps_pure l _

theorem ternary_holds (inner : cut.Reads expr) (operand_ : cut.Reads operand) : cut.Reads (ternary expr operand) := by
  intro i
  apply (operand_ i).bind
  intro cond k _
  apply Holds.tell
  refine Holds.glance (v := cond) (fun kind => kind == .question) ?_ ⟨rfl, rfl⟩ ?_ ?_ id
  · intro kind acts
    rw [eq_of_beq acts]
    rfl
  · intro token quiet
    rw [if_neg (by simpa using quiet)]
  · intro token l _ acts
    rw [if_pos acts]
    apply ((inner l).unless False.elim).bind
    intro yes m _
    refine (Holds.expect rfl fun colon n => ?_).unless And.right
    apply ((inner n).unless False.elim).bind
    intro no p _
    exact cut.keeps_pure p _

/-! ### All levels -/

theorem level_holds (inner : cut.Reads expr) (onward : ∀ low, Since low expr) (commas : EndsBeforeComma s expr) :
    cut.Reads (level expr) := by
  have operands := prefixed_holds (postfixed_holds inner (primary_holds inner onward commas))
  have products : cut.Reads (product expr) := chain_holds ⟨rfl, rfl, rfl, rfl, rfl⟩ operands
  have sums : cut.Reads (sum expr) := chain_holds ⟨rfl, rfl, rfl, rfl, rfl⟩ products
  have conjunctions : cut.Reads (conjunction expr) := chain_holds ⟨rfl, rfl, rfl, rfl, rfl⟩ (comparison_holds sums)
  exact ternary_holds inner (chain_holds ⟨rfl, rfl, rfl, rfl, rfl⟩ conjunctions)

theorem nested_holds (cut : s.Cut t j) (depth : Nat) : cut.Reads (nested depth) := by
  induction depth with
  | zero => rintro i v k ⟨⟩
  | succ depth ih => exact level_holds ih (fun _ => nested_since depth) (nested_endsBeforeComma s depth)

theorem read_holds (cut : s.Cut t j) : cut.Reads Expr.read := by
  intro i v k run
  rcases Nat.lt_or_ge s.size i with past | bound
  · have later := (nested_since _ s i (Nat.le_refl i)).of_ok run
    have last := cut.bound
    exact .inr (cut.lost_of_past (by omega))
  · have size := cut.size
    rw [← nested_eq_read (t.size + 1) bound (by omega)] at run
    exact nested_holds cut (t.size + 1) i v k run

/-! ### Targets -/

/-- A name in braces is read again from its brace. -/
theorem brace_holds (inner : cut.Reads expr) (onward : ∀ low, Since low expr) (run : Token.next s i = .ok token k)
    (brace : token.kind = .braceOpen) : cut.Keeps k False (do Scan.seek i; name expr) := by
  refine (name_holds inner i).back fun past v l read => ?_
  have only : ∀ form ∈ operators, form.2 = .braceOpen → form.1 = "\x7b" := by decide
  obtain ⟨b, skip, front, stop⟩ :=
    operator_text run (by rwa [brace]) (by rw [brace]; decide) (show "\x7b".toList = ['\x7b'] from rfl) rfl
  obtain rfl : k = b + 1 := stop
  obtain ⟨parts, turns⟩ := nameTurns_of_name read skip front (by decide) (by decide)
  obtain ⟨value, m, q, read', skip', -, passes⟩ := passes_of_nameTurns onward front turns
  have first := (onward (b + 1) s (b + 1) (Nat.le_refl _)).of_ok read'
  have second := (skipWhile_since _ s m first).of_ok skip'
  omega

theorem base_holds (cut : s.Cut t j) : cut.Reads Target.base := by
  have inner := cut.read_holds
  have onward (low : Nat) : Since low Expr.read := by
    intro s i later v k run
    exact (nested_since (s.size + 1) s i later).of_ok run
  intro i
  apply Holds.tell
  apply Holds.lead
  · rintro token k v l - read ended
    simp only [ended] at read
    cases read
  · intro token k v l number _ read
    simp only [number] at read
    cases read
  intro token k run
  split
  case h_1 | h_2 | h_3 => exact .give
  case h_4 kind => exact brace_holds inner onward run kind
  case h_5 kind => exact word_holds inner onward run (by rw [kind]; rfl)
  case h_6 kind => exact angle_holds inner onward run kind
  case h_7 => exact .fail

/-- Kinds of token that a target goes on with. -/
def targetGoesOn (adjacent : Bool) : TokenKind → Bool
  | .bracketOpen | .dot => adjacent
  | _ => false

theorem target_holds (cut : s.Cut t j) : cut.Reads Target.read := by
  intro i
  rw [Target.read_eq]
  apply (cut.base_holds i).bind
  intro first k _
  refine .loop_of_all (fun _ => cut.Lost) fun left k => Holds.tell (Holds.turn left targetGoesOn ?_ ?_ ?_)
  · intro adjacent kind goes
    cases kind <;> simp_all [targetGoesOn, isFixed]
  · intro token adjacent stops
    unfold Target.part
    split
    · simp_all [targetGoesOn]
    · simp_all [targetGoesOn]
    · rfl
  · intro token adjacent k first goes
    have covers := covers_of_next first
    have later := covers.start_le
    have stop := covers.spans.cursor
    unfold Target.part
    split
    · exact (Holds.again_of (index_holds cut.read_holds left token.position k)).mono fun _ _ => .inl
    · exact memberTurn_holds left token.position _ (by omega)
    · unfold targetGoesOn at goes
      split at goes <;> simp_all

end VimScript.Source.Cut
