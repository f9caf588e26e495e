import VimScript.Proofs.Expr.Shape
import VimScript.Proofs.Tree.Verbatim
import VimScript.Target

/-!
Every expression and every target that is read is verbatim: the position of a leaf is taken where its text starts,
whichever way the text is had.
-/

set_option autoImplicit false

namespace VimScript

variable {s : Source} {i j k : Nat} {position : Position} {n : Node} {token first brace : Token}

namespace Token

/-- A token that is not a mark of an end shows the text at its place. -/
def Shown (s : Source) (token : Token) : Prop :=
  isInLine token.kind = true → s.Shows token.position.cursor token.value

theorem shown_of_next (run : next s i = .ok token j) : token.Shown s := by
  obtain ⟨k, -, taken⟩ := taken_of_next run
  intro inside
  cases taken with
  | eof | eol => cases inside
  | lexeme spans spelled => exact Source.Spans.shows (by simpa using spans)

theorem gives_next_shown (s : Source) (i : Nat) : next.Gives s i fun token _ => token.Shown s :=
  fun _ _ => shown_of_next

/-- A token stands behind the blanks before it. -/
theorem cursor_of_next (run : next s i = .ok token j) (blanks : Scan.skipWhite s i = .ok () k) :
    token.position.cursor = k := by
  obtain ⟨k', skipped, taken⟩ := taken_of_next run
  obtain rfl : k' = k := (Reply.ok.inj (skipped.symm.trans blanks)).2
  cases taken <;> rfl

/-- A brace for literal keys is written as one. -/
theorem Shown.literalBrace (shown : brace.Shown s) (run : next s i = .ok brace j)
    (literal : brace.kind = .literalBraceOpen) : s.Shows brace.position.cursor "#\x7b" := by
  have written := shown (by rw [literal]; rfl)
  obtain ⟨k, -, taken⟩ := taken_of_next run
  cases taken with
  | eof | eol => cases literal
  | lexeme spans spelled =>
    obtain rfl := literal
    have table : ∀ form ∈ operators, form.2 = .literalBraceOpen → form.1 = "#\x7b" := by decide
    have same := table _ (spelled.mem_operators (by decide)) rfl
    exact same ▸ written

end Token

namespace Expr

open Scan Node

/-- Expressions read by a scan are verbatim. -/
def ReadsVerbatim (x : Scan Node) : Prop :=
  ∀ s i, x.Gives s i fun n _ => n.Verbatim s

variable {expr primary operand key : Scan Node} {left : Node}

/-! ### Names -/

/-- The parts read so far of a name that starts at a given cursor. -/
structure PartsRead (s : Source) (start : Nat) (parts : List Node) (i : Nat) : Prop where
  all : AllVerbatim s parts
  empty : parts = [] → i = start
  front : ∀ n ∈ parts.head?, n.type = .leaf .curlyPart → n.position.cursor = start

theorem PartsRead.concat {start : Nat} {parts : List Node} (read : PartsRead s start parts i) (last : n.Verbatim s)
    (place : n.type = .leaf .curlyPart → n.position.cursor = i) (j : Nat) : PartsRead s start (parts ++ [n]) j where
  all := read.all.concat last
  empty := by simp
  front := by
    cases parts with
    | nil =>
      rintro _ ⟨⟩ part
      rw [place part, read.empty rfl]
    | cons => exact read.front

theorem nameParts_verbatim (inner : ReadsVerbatim expr) :
    (nameParts expr).Gives s i fun parts _ => AllVerbatim s parts ∧
      ∀ n ∈ parts.head?, n.type = .leaf .curlyPart → n.position.cursor = i := by
  refine .after (here_apply s i) (.step fun text i' peeked => ?_)
  obtain ⟨rfl, -⟩ := peeking_ok peeked
  have none : PartsRead s i' [] i' := ⟨.nil, fun _ => rfl, by simp⟩
  refine Gives.bind (q := PartsRead s i') ?_ fun scope j read => ?_
  · refine .ite (fun _ => .step fun text j run => .pure ?_) fun _ => .pure none
    have part : (Node.leaf .curlyPart text (s.position i')).Verbatim s := .leaf (shows_of_take run)
    exact none.concat part (fun _ => rfl) j
  · refine .loop (PartsRead s i') read fun parts j read => .step fun c j' peeked => ?_
    obtain ⟨-, rfl⟩ := Reply.ok.inj peeked
    split
    · refine .after (skip_apply 1 s j) (.after (here_apply s (j + 1)) ?_)
      refine (inner s (j + 1)).bind fun value k verbatim => ?_
      refine .step fun _ _ _ => .step fun _ _ _ => .ite (fun _ => .stop .failHere) fun _ => .step fun _ k' _ => .pure ?_
      have part : (Node.mk (s.position (j + 1)) (.curlyExpr value)).Verbatim s :=
        .mk trivial (.single verbatim)
      exact read.concat part (by simp [Node.type, Kind.nodeType]) k'
    · refine .ite (fun _ => ?_) fun _ => .pure ⟨read.all, read.front⟩
      refine .after (here_apply s j) (.step fun text k run => .pure ?_)
      have part : (Node.leaf .curlyPart text (s.position j)).Verbatim s := .leaf (shows_of_takeClass run)
      exact read.concat part (fun _ => rfl) k

theorem verbatim_nameOfParts {parts : List Node} (all : AllVerbatim s parts)
    (front : ∀ n ∈ parts.head?, n.type = .leaf .curlyPart → n.position.cursor = i) :
    (nameOfParts (s.position i) parts).Verbatim s := by
  unfold nameOfParts
  split
  · rename_i position text
    have shows : s.Shows position.cursor text := (all _ (List.mem_singleton.mpr rfl)).own
    rw [show position.cursor = i from front _ rfl rfl] at shows
    exact .leaf shows
  · exact .mk trivial all

theorem name_verbatim (inner : ReadsVerbatim expr) : ReadsVerbatim (name expr) := by
  intro s i
  refine .step fun _ j _ => .after (here_apply s j) ((nameParts_verbatim inner).bind ?_)
  rintro parts k ⟨all, front⟩
  exact .pure (verbatim_nameOfParts all front)

/-! ### What follows an operand -/

theorem optional_verbatim {stop : Prop} [Decidable stop] (inner : ReadsVerbatim expr) :
    (if stop then Pure.pure none else some <$> expr : Scan (Option Node)).Gives s i fun found _ =>
      ∀ n ∈ found, n.Verbatim s := by
  refine .ite (fun _ => .pure (by simp)) fun _ => .map ((inner s i).mono fun n j verbatim => ?_)
  rintro _ ⟨⟩
  exact verbatim

theorem index_verbatim (inner : ReadsVerbatim expr) (first : left.Verbatim s) :
    (index expr left position).Gives s i fun n _ => n.Verbatim s := by
  refine .bind (q := fun found _ => ∀ n ∈ found, n.Verbatim s) ?_ fun lower j below => ?_
  · exact .step fun _ _ _ => optional_verbatim inner
  refine .step fun colon j' _ => ?_
  dsimp only
  split
  · refine .step fun close k _ => .ite (fun _ => .stop .fail) fun _ => .pure (.mk trivial ?_)
    simpa [AllVerbatim, Kind.children] using ⟨first, below _ rfl⟩
  · refine .step fun _ k _ => .bind (q := fun found _ => ∀ n ∈ found, n.Verbatim s) ?_ fun upper j above => ?_
    · exact .step fun _ _ _ => optional_verbatim inner
    refine .step fun close k _ => .ite (fun _ => .stop .fail) fun _ => .pure (.mk trivial ?_)
    simpa [AllVerbatim, Kind.children, or_imp, forall_and] using ⟨first, fun n place => below n place, above⟩

theorem arguments_verbatim (inner : ReadsVerbatim expr) :
    (arguments expr).Gives s i fun args _ => AllVerbatim s args := by
  have list : (argumentList expr).Gives s i fun found _ => AllVerbatim s found.1 := by
    refine .step fun first _ _ => .ite (fun _ => .step fun _ _ _ => .pure .nil) fun _ => ?_
    refine .loop (fun args _ => AllVerbatim s args) .nil fun args j known => ?_
    refine (inner s j).bind fun arg k verbatim => .step fun token k' _ => ?_
    have all := known.concat verbatim
    split
    · exact .step fun _ _ _ => .ite (fun _ => .step fun _ _ _ => .pure all) fun _ => .pure all
    · exact .pure all
    · exact .fail
  exact list.bind fun _ _ all => .ite (fun _ => .stop .fail) fun _ => .pure all

theorem member_verbatim (first : left.Verbatim s) :
    (member left position).Gives s i fun found _ => ∀ n ∈ found, n.Verbatim s := by
  refine .step fun c i' peeked => .ite (fun _ => ?_) fun _ => .pure (by simp)
  obtain ⟨-, rfl⟩ := Reply.ok.inj peeked
  refine .after (here_apply s i) (.step fun text j run => .step fun _ _ _ => ?_)
  refine .ite (fun _ => .pure (by simp)) fun _ => .pure ?_
  have name : (Node.identifier text (s.position i)).Verbatim s := .leaf (shows_of_takeClass run)
  rintro _ ⟨⟩
  exact .mk trivial (by simpa [AllVerbatim, Kind.children] using ⟨first, name⟩)

theorem method_verbatim (inner : ReadsVerbatim expr) (operand : ReadsVerbatim primary) (first : left.Verbatim s) :
    (method expr primary left).Gives s i fun n _ => n.Verbatim s := by
  refine (operand s i).bind fun callee j verbatim => .step fun paren k _ => ?_
  refine .ite (fun _ => .stop .fail) fun _ => (arguments_verbatim inner).bind fun args _ all => .pure ?_
  have call : (Node.mk paren.position (.call callee args)).Verbatim s :=
    .mk trivial (by simpa [AllVerbatim, Kind.children] using ⟨verbatim, all⟩)
  exact .mk trivial (by simpa [AllVerbatim, Kind.children] using ⟨first, call⟩)

theorem postfixed_verbatim (inner : ReadsVerbatim expr) (operand : ReadsVerbatim primary) :
    ReadsVerbatim (postfixed expr primary) := by
  intro s i
  refine (operand s i).bind fun first j verbatim => .loop (fun left _ => left.Verbatim s) verbatim ?_
  intro left j verbatim
  refine .after (tell_apply s j) (.step fun _ _ _ => .step fun token k _ => ?_)
  split
  · exact (index_verbatim inner verbatim).bind fun node _ verbatim => .pure verbatim
  · exact (method_verbatim inner operand verbatim).bind fun node _ verbatim => .pure verbatim
  · refine (arguments_verbatim inner).bind fun args _ all => .pure (.mk trivial ?_)
    simpa [AllVerbatim, Kind.children] using ⟨verbatim, all⟩
  · refine (member_verbatim verbatim).bind fun found k' members => ?_
    cases found with
    | none => exact .after (seek_apply j s k') (.pure verbatim)
    | some node => exact .pure (members node rfl)
  · exact .after (seek_apply j s k) (.pure verbatim)

/-! ### Operands -/

theorem list_verbatim (inner : ReadsVerbatim expr) : (list expr position).Gives s i fun n _ => n.Verbatim s := by
  refine .step fun _ _ _ => .ite (fun _ => .step fun _ _ _ => .pure (.mk trivial .nil))
    fun _ => ?_
  refine .loop (fun items _ => AllVerbatim s items) .nil fun items j known => ?_
  refine (inner s j).bind fun item k verbatim => .step fun token k' _ => ?_
  have all := known.concat verbatim
  split
  · refine .step fun _ _ _ => .step fun _ _ _ => .ite (fun _ => ?_) fun _ => .pure all
    exact .step fun _ _ _ => .pure (.mk trivial all)
  · exact .step fun _ _ _ => .pure (.mk trivial all)
  · exact .fail

theorem parameter_verbatim (params : List Node) (shows : s.Shows token.position.cursor token.value) :
    (parameter params token).Gives s i fun n _ => n.Verbatim s := by
  refine .ite (fun _ => .stop .fail) fun _ => .ite (fun _ => .stop .fail) fun _ => ?_
  refine .step fun _ _ _ => .ite (fun _ => ?_) fun _ => .pure (.leaf shows)
  exact .step fun _ _ _ => .ite (fun _ => .stop .failHere) fun _ => .pure (.leaf shows)

theorem parameters_verbatim (shown : first.Shown s) :
    (parameters first).Gives s i fun found _ => ∀ params ∈ found, AllVerbatim s params := by
  have done {params : List Node} (all : AllVerbatim s params) : ∀ found ∈ some params, AllVerbatim s found := by
    rintro _ ⟨⟩
    exact all
  refine .loop (fun state _ => AllVerbatim s state.1 ∧ state.2.Shown s) ⟨.nil, shown⟩ ?_
  rintro ⟨params, token⟩ k ⟨known, shown⟩
  dsimp only
  split
  · exact .pure (done known)
  · rename_i word
    refine (parameter_verbatim params (shown (by rw [word]; rfl))).bind fun param _ verbatim => ?_
    have all := known.concat verbatim
    refine .step fun after _ _ => ?_
    split
    · refine .step fun _ _ _ => .ite (fun _ => .step fun _ _ _ => .pure (done all)) fun _ => ?_
      exact (Token.gives_next_shown s _).bind fun token _ shown => .pure ⟨all, shown⟩
    · exact .pure (done all)
    · exact .fail
  · rename_i dots
    have rest : (Node.identifier token.value token.position).Verbatim s := .leaf (shown (by rw [dots]; rfl))
    have all := known.concat rest
    exact .step fun _ _ _ => .ite (fun _ => .step fun _ _ _ => .pure (done all)) fun _ => .fail
  · refine .pure ?_
    rintro _ ⟨⟩

theorem lambda_verbatim (inner : ReadsVerbatim expr) (shown : first.Shown s) :
    (lambda expr first position).Gives s i fun found _ => ∀ n ∈ found, n.Verbatim s := by
  refine (parameters_verbatim shown).bind fun found j known => ?_
  cases found with
  | none => exact .pure (by simp)
  | some params =>
    refine (inner s j).bind fun body _ verbatim => .step fun close _ _ => .ite (fun _ => .stop .fail) fun _ => .pure ?_
    rintro _ ⟨⟩
    exact .mk trivial ((known params rfl).concat verbatim)

theorem literalKey_shows (s : Source) (i : Nat) : literalKey.Gives s i fun n _ => n.ShowsKey s := by
  refine (Token.gives_literalKey s i).bind ?_
  rintro _ j ⟨k, key, rfl, -, spans⟩
  exact .pure ⟨String.ofList key, k, rfl, rfl, Source.Spans.shows (by rwa [String.toList_ofList])⟩

theorem dict_verbatim (inner : ReadsVerbatim expr) {start : Nat}
    (keys : ∀ i, key.Gives s i fun n _ => n.Verbatim s ∨ s.Shows position.cursor "#\x7b" ∧ n.ShowsKey s) :
    (dict expr key start position).Gives s i fun n _ => n.Verbatim s := by
  refine .step fun _ _ _ => .ite (fun _ => .step fun _ _ _ => .pure (.dict (by simp) (by simp))) fun _ => ?_
  refine .loop (fun entries _ => ∀ e ∈ entries,
    (e.1.Verbatim s ∨ s.Shows position.cursor "#\x7b" ∧ e.1.ShowsKey s) ∧ e.2.Verbatim s) (by simp) ?_
  intro entries j known
  refine (keys j).bind fun key k either => .step fun colon k' _ => ?_
  split
  · refine .ite (fun _ => .after (seek_apply start s k') ?_) fun _ => .fail
    exact (name_verbatim inner s start).bind fun node _ verbatim => .pure verbatim
  · refine (inner s k').bind fun value m verbatim => .step fun token m' _ => ?_
    have all : ∀ e ∈ entries ++ [(key, value)],
        (e.1.Verbatim s ∨ s.Shows position.cursor "#\x7b" ∧ e.1.ShowsKey s) ∧ e.2.Verbatim s := by
      intro e place
      rcases List.mem_append.mp place with old | new
      · exact known e old
      · rw [List.mem_singleton.mp new]
        exact ⟨either, verbatim⟩
    have made : (Node.mk position (.dict (entries ++ [(key, value)]))).Verbatim s :=
      .dict (fun e place => (all e place).1) fun e place => (all e place).2
    split
    · exact .step fun _ _ _ => .ite (fun _ => .step fun _ _ _ => .pure made) fun _ => .pure all
    · exact .pure made
    · exact .fail
  · exact .fail

theorem braces_verbatim (inner : ReadsVerbatim expr) (run : Token.next s k = .ok brace j) (start : Nat) :
    (braces expr start brace).Gives s i fun n _ => n.Verbatim s := by
  refine .after (tell_apply s i) ((Token.gives_next_shown s i).bind fun first m shown => ?_)
  refine .bind (q := fun found _ => ∀ n ∈ found, n.Verbatim s) ?_ fun found k known => ?_
  · exact .step fun _ _ _ => .ite (fun _ => lambda_verbatim inner shown) fun _ => .pure (by simp)
  · cases found with
    | some node => exact .pure (known node rfl)
    | none =>
      refine .after (seek_apply i s k) (dict_verbatim inner fun i => ?_)
      split
      · rename_i literal
        have opened := (Token.shown_of_next run).literalBrace run (by simpa using literal)
        exact (literalKey_shows s i).mono fun _ _ shows => .inr ⟨opened, shows⟩
      · exact (inner s i).mono fun _ _ verbatim => .inl verbatim

theorem primary_verbatim (inner : ReadsVerbatim expr) : ReadsVerbatim (Expr.primary expr) := by
  intro s i
  refine .after (tell_apply s i) (.step fun token j run => ?_)
  have alone {sort : Leaf} (inLine : Token.isInLine token.kind = true) :
      (Node.leaf sort token.value token.position).Verbatim s := .leaf (Token.shown_of_next run inLine)
  have named (k : Nat) : Gives (do Scan.seek i; name expr) s k fun n _ => n.Verbatim s :=
    .after (seek_apply i s k) (name_verbatim inner s i)
  -- The quotes are put back around the body of a string, and there they stand.
  have quoted {text : String} {q : Char} {body : List Char} {k l : Nat} (blanks : Scan.skipWhite s i = .ok () k)
      (same : text.toList = q :: (body ++ [q])) (spans : s.Spans k (q :: (body ++ [q])) l) :
      (Node.leaf .string text token.position).Verbatim s := by
    refine .leaf ?_
    rw [Token.cursor_of_next run blanks]
    exact Source.Spans.shows (same ▸ spans)
  split
  case h_1 | h_2 | h_3 | h_4 | h_5 => exact .pure (alone (by simp [*, Token.isInLine]))
  · refine .after (seek_apply i s j) ((Token.gives_doubleQuoted s i).bind ?_)
    rintro _ l ⟨k, body, blanks, rfl, -, spans⟩
    exact .pure (quoted blanks (by simp) spans)
  · refine .after (seek_apply i s j) ((Token.gives_singleQuoted s i).bind ?_)
    rintro _ l ⟨k, body, blanks, rfl, -, spans⟩
    exact .pure (quoted blanks (by simp) spans)
  · exact list_verbatim inner
  case h_9 | h_10 => exact braces_verbatim inner run i
  · refine (inner s j).bind fun value k verbatim => .step fun close _ _ => ?_
    exact .ite (fun _ => .stop .fail) fun _ => .pure verbatim
  · exact .step fun _ k _ => .ite (fun _ => named k) fun _ => .fail
  case h_13 | h_14 | h_15 | h_16 | h_17 => exact named j
  · exact .fail

/-! ### Levels -/

theorem chain_verbatim (operator : TokenKind → Option BinaryOp) (inner : ReadsVerbatim operand) :
    ReadsVerbatim (chain operator operand) := by
  intro s i
  refine (inner s i).bind fun first j verbatim => .loop (fun left _ => left.Verbatim s) verbatim ?_
  intro left j verbatim
  refine .after (tell_apply s j) (.step fun token k _ => ?_)
  split
  · refine (inner s k).bind fun right _ verbatim' => .pure (.mk trivial ?_)
    simpa [AllVerbatim, Kind.children] using ⟨verbatim, verbatim'⟩
  · exact .after (seek_apply j s k) (.pure verbatim)

theorem comparison_verbatim (inner : ReadsVerbatim operand) : ReadsVerbatim (comparison operand) := by
  intro s i
  refine (inner s i).bind fun left j verbatim => .after (tell_apply s j) (.step fun token k _ => ?_)
  split
  · refine (inner s k).bind fun right _ verbatim' => .pure (.mk trivial ?_)
    simpa [AllVerbatim, Kind.children] using ⟨verbatim, verbatim'⟩
  · exact .after (seek_apply j s k) (.pure verbatim)

theorem prefixed_verbatim (inner : ReadsVerbatim operand) : ReadsVerbatim (prefixed operand) := by
  intro s i
  refine .step fun ops j run => (inner s j).bind fun value k verbatim => .pure ?_
  clear run
  induction ops generalizing value with
  | nil => exact verbatim
  | cons op ops ih => exact ih _ (.mk trivial (.single verbatim))

theorem ternary_verbatim (inner : ReadsVerbatim expr) (cond : ReadsVerbatim operand) :
    ReadsVerbatim (ternary expr operand) := by
  intro s i
  refine (cond s i).bind fun value j first => .after (tell_apply s j) (.step fun token k _ => ?_)
  refine .ite (fun _ => ?_) fun _ => .after (seek_apply j s k) (.pure first)
  refine (inner s k).bind fun yes m second => .step fun colon m' _ => .ite (fun _ => .stop .fail) fun _ => ?_
  refine (inner s m').bind fun no _ last => .pure (.mk trivial ?_)
  simpa [AllVerbatim, Kind.children] using ⟨first, second, last⟩

theorem nested_verbatim (depth : Nat) : ReadsVerbatim (nested depth) := by
  induction depth with
  | zero =>
    rintro s i n j ⟨⟩
  | succ depth inner =>
    have operand := prefixed_verbatim (postfixed_verbatim inner (primary_verbatim inner))
    have sum := chain_verbatim TokenKind.additive? (chain_verbatim TokenKind.multiplicative? operand)
    have conjunction := chain_verbatim TokenKind.conjunction? (comparison_verbatim sum)
    exact ternary_verbatim inner (chain_verbatim TokenKind.disjunction? conjunction)

theorem read_verbatim : ReadsVerbatim read :=
  fun s i n j run => nested_verbatim _ s i n j run

end Expr

namespace Target

open Scan Node VimScript.Expr

theorem base_verbatim : ReadsVerbatim base := by
  intro s i
  refine .after (tell_apply s i) (.step fun token j run => ?_)
  have alone {sort : Leaf} (inLine : Token.isInLine token.kind = true) :
      (Node.leaf sort token.value token.position).Verbatim s := .leaf (Token.shown_of_next run inLine)
  have named (k : Nat) : Gives (do Scan.seek i; name Expr.read) s k fun n _ => n.Verbatim s :=
    .after (seek_apply i s k) (name_verbatim read_verbatim s i)
  split
  case h_1 | h_2 | h_3 => exact .pure (alone (by simp [*, Token.isInLine]))
  case h_4 | h_5 => exact named j
  · exact .step fun _ k _ => .ite (fun _ => named k) fun _ => .fail
  · exact .fail

theorem read_verbatim : ReadsVerbatim read := by
  intro s i
  refine (base_verbatim s i).bind fun first j verbatim => .loop (fun left _ => left.Verbatim s) verbatim ?_
  intro left j verbatim
  refine .after (tell_apply s j) (.step fun _ _ _ => .step fun token k _ => ?_)
  split
  · exact (index_verbatim Expr.read_verbatim verbatim).bind fun node _ verbatim => .pure verbatim
  · refine (member_verbatim verbatim).bind fun found k' members => ?_
    cases found with
    | none => exact .after (seek_apply j s k') (.pure verbatim)
    | some node => exact .pure (members node rfl)
  · exact .after (seek_apply j s k) (.pure verbatim)

end Target

end VimScript
