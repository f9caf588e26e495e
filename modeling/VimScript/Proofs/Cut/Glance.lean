import VimScript.Proofs.Cut.Token

/-!
Reading on by tokens before a cut: where a token is asked for, where one is looked at and put back, and where one that
closes a list may stand.
-/

set_option autoImplicit false

namespace VimScript.Source.Cut

open Scan Token

variable {α β : Type} {s t : Source} {i j k : Nat} {cut : s.Cut t j} {token : Token} {kind : TokenKind}

/-- Kinds of token that are shared whenever they end before the cut, and that no operand goes on with where it is lost:
all but names, numbers and the end of input. -/
def isFixed : TokenKind → Bool
  | .identifier | .number | .eof => false
  | _ => true

theorem past_of_next (h : j < i) (run : Token.next s i = .ok token k) : j < k := by
  have covers := covers_of_next run
  have later := covers.start_le
  have length := covers.spans.cursor
  omega

theorem next_of_fixed (cut : s.Cut t j) (run : Token.next s i = .ok token k) (fixed : isFixed token.kind = true) :
    (i ≤ j ∧ k ≤ j ∧ Token.next t i = .ok token k ∧ ¬cut.Shut i) ∨ j < k := by
  have plain : token.kind ≠ .identifier ∧ token.kind ≠ .number ∧ token.kind ≠ .eof := by
    refine ⟨?_, ?_, ?_⟩ <;>
      · intro same
        rw [same] at fixed
        cases fixed
  by_cases before : i ≤ j
  · rcases cut.next_within before run with ⟨-, within, right⟩ | ⟨token', k', -, broken⟩
    · refine .inl ⟨before, within, right, fun shut => ?_⟩
      rcases shut token k run with past | name | ended
      · omega
      · exact plain.1 name
      · exact plain.2.2 ended
    · rcases broken.gone with past | ended | ⟨number, -⟩
      · exact .inr past
      · exact absurd ended plain.2.2
      · exact absurd number plain.2.1
  · exact .inr (past_of_next (by omega) run)

variable {out : Prop} {lost : α → Nat → Prop} {final : β → Nat → Prop} {f g : Token → Scan β}

/-- A scan that gives nothing in a buffer. -/
def Refuses (x : Scan α) (s : Source) : Prop :=
  ∀ i v k, x s i ≠ .ok v k

theorem refuses_fail {cause : Cause} {position : Position} : Refuses (Scan.fail cause position : Scan α) s := by
  rintro i v k ⟨⟩

/-- A token of a fixed kind is asked for. -/
theorem Holds.demand (fixed : ∀ token, isFixed token.kind = false → Refuses (f token) s)
    (second : ∀ token k, Token.next s i = .ok token k → isFixed token.kind = true → cut.Holds k False final (f token)) :
    cut.Holds i (cut.Shut i) final (Token.next >>= f) := by
  intro v l run
  obtain ⟨token, k, first, run⟩ := bind_ok.mp run
  have kind : isFixed token.kind = true := by
    by_contra other
    exact fixed token (by simpa using other) k v l run
  rcases second token k first kind v l run with ⟨bound, -, within, right⟩ | gone
  · rcases cut.next_of_fixed first kind with ⟨before, -, right', open'⟩ | past
    · exact .inl ⟨before, open', within, by rw [bind_of_ok right', right]⟩
    · omega
  · exact .inr gone

/-- What is seen in the second buffer where the expression may go on. -/
theorem next_of_open (cut : s.Cut t j) (goes : ¬cut.Lost i) :
    i ≤ j ∧ ∃ token k, Token.next t i = .ok token k ∧
      (i = j ∧ token.kind = .eol ∨ i < j ∧ token.kind = .blob ∨ i < j ∧ k ≤ j ∧ Token.next s i = .ok token k) := by
  by_cases same : i = j
  · obtain ⟨more, newline⟩ := cut.newline
    exact ⟨Nat.le_of_eq same, _, _, next_of_newline (same ▸ newline), .inl ⟨same, rfl⟩⟩
  · obtain ⟨token, k, run, within, name, ended⟩ : ∃ token k, Token.next s i = .ok token k ∧ k ≤ j ∧
        token.kind ≠ .identifier ∧ token.kind ≠ .eof := by
      by_contra none
      refine goes ⟨same, fun token k run => ?_⟩
      by_contra sound
      simp only [not_or, Nat.not_lt] at sound
      exact none ⟨token, k, run, sound⟩
    have before := (covers_of_next run).lt_of_more ended
    refine ⟨by omega, ?_⟩
    rcases cut.next_within (by omega) run with ⟨-, -, right⟩ | ⟨token', k', right, broken⟩
    · exact ⟨token, k, right, .inr (.inr ⟨by omega, within, run⟩)⟩
    · rcases broken.gone with past | eof | ⟨-, blob, -⟩
      · omega
      · exact absurd eof ended
      · exact ⟨token', k', right, .inr (.inl ⟨by omega, blob⟩)⟩

/-- A token is looked at, and put back unless the expression goes on with it. Where it stands at the cut the two scans
may differ, but for the end of a line. -/
theorem glance_apart {v : β} (acts : TokenKind → Bool) (fixed : ∀ kind, acts kind = true → isFixed kind = true)
    (blob : acts .blob = false) (quiet : ∀ token, acts token.kind = false → f token = (do Scan.seek i; return v))
    (line : ∀ token, token.kind = .eol → g token = (do Scan.seek i; return v)) (same : i < j → f = g)
    (act : ∀ token k, Token.next s i = .ok token k → acts token.kind = true →
      cut.Holds k False (fun u l => final u l ∨ j < k ∧ u = v ∧ l = i) (f token))
    (kept : cut.Lost i → final v i) {u : β} {l : Nat} (run : (Token.next >>= f) s i = .ok u l) :
    (i ≤ j ∧ ¬cut.Lost i ∧ l ≤ j ∧ (Token.next >>= g) t i = .ok u l) ∨ final u l := by
  obtain ⟨token, k, first, last⟩ := bind_ok.mp run
  -- Whatever was looked at, the operand ends here, and so it does in the second buffer.
  have puts (apart : acts token.kind = false ∨ j < k) : (i ≤ j ∧ ¬cut.Lost i ∧ i ≤ j ∧
      (Token.next >>= g) t i = .ok v i) ∨ final v i := by
    by_cases goes : cut.Lost i
    · exact .inr (kept goes)
    · obtain ⟨before, token', k', right, seen⟩ := cut.next_of_open goes
      refine .inl ⟨before, goes, before, ?_⟩
      rw [bind_of_ok right]
      rcases seen with ⟨-, eol⟩ | ⟨less, isBlob⟩ | ⟨less, within, left⟩
      · rw [line token' eol]
        rfl
      · rw [← same less, quiet token' (by rw [isBlob, blob])]
        rfl
      · obtain ⟨rfl, rfl⟩ := Reply.ok.inj (first.symm.trans left)
        rw [← same less, quiet token (apart.resolve_right (by omega))]
        rfl
  cases acting : acts token.kind with
  | false =>
    rw [quiet token acting] at last
    obtain ⟨rfl, rfl⟩ := Reply.ok.inj last
    exact puts (.inl acting)
  | true =>
    rcases act token k first acting u l last with ⟨bound, -, within, right⟩ | gone | ⟨past, rfl, rfl⟩
    · rcases cut.next_of_fixed first (fixed _ acting) with ⟨before, -, right', open'⟩ | past
      · have covers := covers_of_next first
        have less : i < j := by
          have more := covers.lt_of_more fun ended => by
            have impossible := fixed _ acting
            rw [ended] at impossible
            cases impossible
          omega
        exact .inl ⟨before, fun lost => open' lost.2, within, by rw [bind_of_ok right', ← same less, right]⟩
      · omega
    · exact .inr gone
    · exact puts (.inr past)

theorem Holds.glance {v : β} (acts : TokenKind → Bool) (fixed : ∀ kind, acts kind = true → isFixed kind = true)
    (ends : acts .eol = false ∧ acts .blob = false)
    (quiet : ∀ token, acts token.kind = false → f token = (do Scan.seek i; return v))
    (act : ∀ token k, Token.next s i = .ok token k → acts token.kind = true → cut.Holds k False final (f token))
    (kept : cut.Lost i → final v i) : cut.Holds i (cut.Lost i) final (Token.next >>= f) :=
  fun _ _ run => glance_apart acts fixed ends.2 quiet (fun token eol => quiet token (by rw [eol, ends.1])) (fun _ => rfl)
    (fun token k first acting => (act token k first acting).mono fun _ _ => .inl) kept run

/-! ### Tokens that are only looked at -/

theorem peek_ok {u : Source} {l : Nat} : Token.peek u i = .ok token l ↔ i = l ∧ ∃ k, Token.next u i = .ok token k := by
  unfold Token.peek Scan.peeking
  cases Token.next u i <;> simp [and_comm]

theorem Holds.congr {lost : α → Nat → Prop} {x y : Scan α} (same : ∀ u v k, x u i = .ok v k ↔ y u i = .ok v k)
    (h : cut.Holds i out lost y) : cut.Holds i out lost x := by
  intro v k run
  refine (h v k ((same s v k).mp run)).imp_left fun ⟨bound, here, within, right⟩ => ⟨bound, here, within, ?_⟩
  exact (same t v k).mpr right

/-- A token of another kind is not cut down to one of a kind that remains whole. -/
theorem other_of_next (cut : s.Cut t j) (h : i ≤ j) (run : Token.next s i = .ok token k) (whole : isRemnant kind = false)
    (other : token.kind ≠ kind) : ∃ token' k', Token.next t i = .ok token' k' ∧ token'.kind ≠ kind := by
  rcases cut.next_within h run with ⟨-, -, same⟩ | ⟨token', k', right, broken⟩
  · exact ⟨token, k, same, other⟩
  · refine ⟨token', k', right, fun same => ?_⟩
    have remnant := broken.remnant
    rw [same, whole] at remnant
    cases remnant

/-- A token that closes a list may stand in place of its next part. -/
theorem Holds.close {g : Token → Token → Scan β} {y : Scan β} (fixed : isFixed kind = true) (whole : isRemnant kind = false)
    (yes : ∀ token k, Token.next s i = .ok token k → token.kind = kind → cut.Holds k False final (g token token))
    (no : cut.Holds i False final y) :
    cut.Holds i False final (do
      let first ← Token.peek
      if first.kind == kind then
        let token ← Token.next
        g first token
      else y) := by
  intro v l run
  obtain ⟨token, _, seen, last⟩ := bind_ok.mp run
  obtain ⟨rfl, k, first⟩ := peek_ok.mp seen
  by_cases closes : token.kind = kind
  · rw [if_pos (by simpa using closes), bind_of_ok first] at last
    refine (yes token k first closes v l last).imp_left fun ⟨bound, _, within, right⟩ => ?_
    rcases cut.next_of_fixed first (by rw [closes, fixed]) with ⟨before, -, right', -⟩ | past
    · refine ⟨before, id, within, ?_⟩
      rw [bind_of_ok (peek_ok.mpr ⟨rfl, k, right'⟩), if_pos (by simpa using closes), bind_of_ok right', right]
    · omega
  · rw [if_neg (by simpa using closes)] at last
    refine (no v l last).imp_left fun ⟨bound, _, within, right⟩ => ⟨bound, id, within, ?_⟩
    obtain ⟨token', k', right', other⟩ := cut.other_of_next bound first whole closes
    rw [bind_of_ok (peek_ok.mpr ⟨rfl, k', right'⟩), if_neg (by simpa using other), right]

/-! ### The first token of an operand -/

theorem next_of_lead (cut : s.Cut t j) (run : Token.next s i = .ok token k) (more : token.kind ≠ .eof) :
    (i < j ∧ k ≤ j ∧ Token.next t i = .ok token k ∧ ¬cut.Blind i) ∨ j < k ∨
      token.kind = .number ∧ k < j ∧ cut.Shut k := by
  by_cases before : i ≤ j
  · rcases cut.next_within before run with ⟨less, within, right⟩ | ⟨token', k', -, broken⟩
    · refine .inl ⟨less, within, right, fun blind => ?_⟩
      rcases blind token k run with past | ended
      · omega
      · exact more ended
    · rcases broken.gone with past | ended | ⟨number, -, less, shut⟩
      · exact .inr (.inl past)
      · exact absurd ended more
      · exact .inr (.inr ⟨number, less, shut⟩)
  · exact .inr (.inl (past_of_next (by omega) run))

theorem Holds.lead (more : ∀ token k v l, Token.next s i = .ok token k → f token s k = .ok v l → token.kind ≠ .eof)
    (number : ∀ token k v l, token.kind = .number → cut.Lost k → f token s k = .ok v l → final v l)
    (second : ∀ token k, Token.next s i = .ok token k → cut.Holds k False final (f token)) :
    cut.Holds i (cut.Blind i) final (Token.next >>= f) := by
  intro v l run
  obtain ⟨token, k, first, last⟩ := bind_ok.mp run
  rcases second token k first v l last with ⟨bound, -, within, right⟩ | gone
  · rcases cut.next_of_lead first (more token k v l first last) with ⟨less, -, right', seen⟩ | past | ⟨isNumber, less, shut⟩
    · exact .inl ⟨by omega, seen, within, by rw [bind_of_ok right', right]⟩
    · omega
    · exact .inr (number token k v l isNumber ⟨by omega, shut⟩ last)
  · exact .inr gone

/-- What is seen in the second buffer where an operand may stand. -/
theorem next_of_seen (cut : s.Cut t j) (goes : ¬cut.Blind i) :
    i < j ∧ ∃ token k, Token.next t i = .ok token k ∧ (token.kind = .blob ∨ Token.next s i = .ok token k) := by
  obtain ⟨token, k, run, within, ended⟩ : ∃ token k, Token.next s i = .ok token k ∧ k ≤ j ∧ token.kind ≠ .eof := by
    by_contra none
    refine goes fun token k run => ?_
    by_contra sound
    simp only [not_or, Nat.not_lt] at sound
    exact none ⟨token, k, run, sound⟩
  have before := (covers_of_next run).lt_of_more ended
  refine ⟨by omega, ?_⟩
  rcases cut.next_within (by omega) run with ⟨-, -, right⟩ | ⟨token', k', right, broken⟩
  · exact ⟨token, k, right, .inr run⟩
  · rcases broken.gone with past | eof | ⟨-, blob, -⟩
    · omega
    · exact absurd eof ended
    · exact ⟨token', k', right, .inl blob⟩

/-! ### Characters -/

theorem Holds.skipWhile (p : Char → Bool) {f : Unit → Scan β} (second : ∀ k, i ≤ k → cut.Holds k out final (f ())) :
    cut.Holds i out final (Scan.skipWhile p >>= f) := by
  have later := skipWhile_eq p s i
  by_cases before : i ≤ j
  · obtain ⟨q, r, later, bound, left, right, same | ⟨rfl, past⟩⟩ := cut.skipWhile_within p before
    · subst same
      exact .after left (fun _ => right) later (second r later)
    · intro v l run
      rw [bind_of_ok left] at run
      rcases second r (by omega) v l run with ⟨bound', -⟩ | gone
      · omega
      · exact .inr gone
  · intro v l run
    rw [bind_of_ok later] at run
    rcases second _ (Nat.le_add_right ..) v l run with ⟨bound', -⟩ | gone
    · omega
    · exact .inr gone

theorem Holds.skipWhite {f : Unit → Scan β} (second : ∀ k, i ≤ k → cut.Holds k out final (f ())) :
    cut.Holds i out final (Scan.skipWhite >>= f) :=
  .skipWhile CharClass.white.has second

theorem Holds.textBetween {f : String → Scan β} (start stop : Nat) (h : stop ≤ i)
    (second : cut.Holds i out final (f (s.text start stop))) : cut.Holds i out final (Scan.textBetween start stop >>= f) := by
  refine .after (show Scan.textBetween start stop s i = .ok _ i from rfl) (fun bound => ?_) (Nat.le_refl i) second
  show Reply.ok (t.text start stop) i = _
  rw [cut.text_eq (by omega)]

theorem Holds.textSince {f : String → Scan β} (start : Nat) (second : cut.Holds i out final (f (s.text start i))) :
    cut.Holds i out final (Scan.textSince start >>= f) :=
  second.textBetween start i (Nat.le_refl i)

/-- At the cut the second scan stops and gives what the first one gives. -/
def Meets (_ : s.Cut t j) (i : Nat) (out : Prop) (lost : α → Nat → Prop) (x y : Scan α) : Prop :=
  ∀ v k, x s i = .ok v k → (i = j ∧ ¬out ∧ k = j ∧ y t i = .ok v k) ∨ lost v k

/-- A scan that cannot be read before the cut, since it starts there or behind it. -/
theorem Holds.meets {x y : Scan β} (past : j ≤ i) (behind : cut.Holds (i + 1) out final x) :
    cut.Meets i out final (do Scan.skip 1; x) y := by
  intro v k run
  rcases behind v k run with ⟨bound, -⟩ | gone
  · omega
  · exact .inr gone

/-- A character is looked at. At the cut the second buffer has the end of a line in its place. -/
theorem Holds.peek {f : Option Char → Scan β} (before : i < j → cut.Holds i out final (f (s.char? i)))
    (behind : j ≤ i → cut.Meets i out final (f (s.char? i)) (f (some '\n'))) :
    cut.Holds i out final (Scan.peek >>= f) := by
  rcases Nat.lt_or_ge i j with less | past
  · obtain ⟨c, left, right⟩ := cut.exists_char less
    have same : s.char? i = t.char? i := by rw [Source.char?_of_cons left, Source.char?_of_cons right]
    exact .after (peek_char s i) (fun _ => by rw [peek_char, same]) (Nat.le_refl i) (before less)
  · intro v k run
    rw [bind_of_ok (peek_char s i)] at run
    refine (behind past v k run).imp_left fun ⟨last, goes, stop, right⟩ => ⟨by omega, goes, by omega, ?_⟩
    obtain ⟨more, newline⟩ := cut.newline
    rw [bind_of_ok (peek_char t i), last, Source.char?_of_cons newline, ← last, right]

/-- A scan that moves on over a character starts before the cut. -/
theorem Holds.advance {f : Unit → Scan β} (second : cut.Holds (i + 1) False final (f ())) :
    cut.Holds i (j ≤ i) final (Scan.skip 1 >>= f) := by
  intro v k run
  refine (second v k run).imp_left fun ⟨bound, _, within, right⟩ => ⟨by omega, by omega, within, right⟩

/-- A character of the line is asked for. -/
theorem Holds.peekInLine {f : Option Char → Scan β} (none : Refuses (f none) s)
    (some : ∀ c, cut.Holds i (j ≤ i) final (f (some c))) : cut.Holds i False final (Scan.peekInLine >>= f) := by
  intro v k run
  rw [bind_of_ok (peekInLine_of_ahead rfl)] at run
  cases char : (s.ahead i).head?.filter (· != '\n') with
  | none =>
    rw [char] at run
    exact absurd run (none i v k)
  | some c =>
    rw [char] at run
    refine (some c v k run).imp_left fun ⟨bound, less, within, right⟩ => ⟨bound, id, within, ?_⟩
    obtain ⟨d, left, right'⟩ := cut.exists_char (i := i) (by omega)
    rw [left, List.head?_cons] at char
    rw [bind_of_ok (peekInLine_of_ahead rfl), right', List.head?_cons, char, right]

end VimScript.Source.Cut
