import VimScript.Proofs.Expr.Shaped
import VimScript.Proofs.Tree.WellFormed
import VimScript.Target

/-!
Every expression and every target that is read is well formed. Names are read only where one stands ahead, also when
what is in a brace is read again as one.
-/

set_option autoImplicit false

namespace VimScript

variable {s : Source} {i j k : Nat} {c : Char} {cs : List Char} {position : Position} {n : Node}
  {parts params : List Node} {token first : Token}

namespace Expr

open Scan Node

/-- Expressions read by a scan are well formed. -/
def ReadsWellFormed (x : Scan Node) : Prop :=
  ∀ s i, x.Gives s i fun n _ => n.WellFormed

def AllWellFormed (ns : List Node) : Prop :=
  ∀ n ∈ ns, n.WellFormed

theorem AllWellFormed.nil : AllWellFormed [] := by
  simp [AllWellFormed]

theorem AllWellFormed.concat {ns : List Node} (before : AllWellFormed ns) (last : n.WellFormed) :
    AllWellFormed (ns ++ [n]) := by
  simpa [AllWellFormed, or_imp, forall_and] using ⟨before, last⟩

variable {expr primary operand key : Scan Node} {left : Node}

/-! ### Names -/

/-- The parts read so far of a name that starts at a given cursor, where one stands ahead. -/
structure PartsFormed (s : Source) (start : Nat) (parts : List Node) (i : Nat) : Prop where
  types : ∀ n ∈ parts, n.type.isNamePart = true
  inner : ∀ n ∈ parts, AllWellFormed n.children
  opens : parts = [] → i = start ∧
    ∃ c cs, s.ahead i = c :: cs ∧ (c = '\x7b' ∨ CharClass.name.has c = true ∧ CharClass.digit.has c = false)

theorem PartsFormed.concat {start : Nat} (formed : PartsFormed s start parts i) (type : n.type.isNamePart = true)
    (inner : AllWellFormed n.children) (j : Nat) : PartsFormed s start (parts ++ [n]) j where
  types := by simpa [or_imp, forall_and] using ⟨formed.types, type⟩
  inner := by simpa [or_imp, forall_and] using ⟨formed.inner, inner⟩
  opens := by simp

theorem PartsFormed.run {start : Nat} {text : String} (formed : PartsFormed s start parts i) (j : Nat) :
    PartsFormed s start (parts ++ [Node.leaf .curlyPart text position]) j := by
  have inner : AllWellFormed (Node.leaf .curlyPart text position).children := .nil
  exact formed.concat rfl inner j

theorem PartsFormed.braced {start : Nat} {value : Node} (formed : PartsFormed s start parts i)
    (known : value.WellFormed) (j : Nat) : PartsFormed s start (parts ++ [Node.mk position (.curlyExpr value)]) j := by
  have inner : AllWellFormed (Node.mk position (.curlyExpr value)).children := AllWellFormed.nil.concat known
  exact formed.concat rfl inner j

theorem nameParts_wellFormed (inner : ReadsWellFormed expr) (opens : OpensName s i) :
    (nameParts expr).Gives s i fun parts _ =>
      parts ≠ [] ∧ (∀ n ∈ parts, n.type.isNamePart = true) ∧ ∀ n ∈ parts, AllWellFormed n.children := by
  refine .after (here_apply s i) (.step fun text i' peeked => ?_)
  obtain ⟨rfl, k, taken⟩ := peeking_ok peeked
  refine Gives.bind (q := PartsFormed s i') ?_ fun scope j formed => ?_
  · refine .ite (fun _ => .after taken (.pure ?_)) fun other => .pure ⟨by simp, by simp, fun _ => ⟨rfl, ?_⟩⟩
    · exact ⟨List.forall_mem_singleton.mpr rfl, List.forall_mem_singleton.mpr .nil, by simp⟩
    · rcases opens with ⟨text', j, peeked', same⟩ | front
      · obtain ⟨rfl, -⟩ := Reply.ok.inj (peeked.symm.trans peeked')
        exact absurd same other
      · exact front
  · refine .loop (PartsFormed s i') formed fun parts j formed => .after (peek_of_ahead rfl) ?_
    split
    · refine .after (skip_apply 1 s j) (.after (here_apply s (j + 1)) ((inner s (j + 1)).bind fun value k known => ?_))
      refine .step fun _ _ _ => .step fun _ _ _ => .ite (fun _ => .stop .failHere) fun _ => .step fun _ m _ => ?_
      exact .pure (formed.braced known m)
    · rename_i noBrace
      refine .ite (fun _ => .step fun _ _ _ => .step fun _ m _ => .pure (formed.run m)) fun stop => .pure ?_
      -- A name that has no parts so far still stands ahead, so it does not stop here.
      refine ⟨fun none => ?_, formed.types, formed.inner⟩
      obtain ⟨-, c, cs, ahead, rfl | ⟨inside, -⟩⟩ := formed.opens none
      · exact noBrace (by rw [ahead, List.head?_cons])
      · exact stop (by rw [ahead, List.head?_cons, CharClass.hasOpt_some, inside])

theorem name_wellFormed (inner : ReadsWellFormed expr) (ahead : NameAhead s i) :
    (name expr).Gives s i fun n _ => n.WellFormed := by
  refine .step fun _ j blanks => .after (here_apply s j) ((nameParts_wellFormed inner (ahead j blanks)).bind ?_)
  rintro parts k ⟨some, types, inner⟩
  refine .pure ?_
  unfold nameOfParts
  split
  · exact .identifier
  · rename_i several
    refine .curlyName ⟨some, types, ?_⟩ inner
    rintro ⟨position, kind⟩ rfl part
    cases kind <;> simp [Node.type, Kind.nodeType] at part
    exact several position _ (by rw [part])

/-! ### What follows an operand -/

theorem optional_wellFormed {stop : Prop} [Decidable stop] (inner : ReadsWellFormed expr) :
    (if stop then Pure.pure none else some <$> expr : Scan (Option Node)).Gives s i fun found _ =>
      ∀ n ∈ found, n.WellFormed := by
  refine .ite (fun _ => .pure (by simp)) fun _ => .map ((inner s i).mono fun n j known => ?_)
  rintro _ ⟨⟩
  exact known

theorem index_wellFormed (inner : ReadsWellFormed expr) (first : left.WellFormed) :
    (index expr left position).Gives s i fun n _ => n.WellFormed := by
  refine .bind (q := fun found _ => ∀ n ∈ found, n.WellFormed) ?_ fun lower j below => ?_
  · exact .step fun _ _ _ => optional_wellFormed inner
  refine .step fun colon j' _ => ?_
  dsimp only
  split
  · refine .step fun close k _ => .ite (fun _ => .stop .fail) fun _ => .pure ?_
    exact .subscript first (below _ rfl)
  · refine .step fun _ k _ => .bind (q := fun found _ => ∀ n ∈ found, n.WellFormed) ?_ fun upper j above => ?_
    · exact .step fun _ _ _ => optional_wellFormed inner
    refine .step fun close k _ => .ite (fun _ => .stop .fail) fun _ => .pure ?_
    exact .slice first (fun n place => below n place) above

theorem arguments_wellFormed (inner : ReadsWellFormed expr) :
    (arguments expr).Gives s i fun args _ => AllWellFormed args := by
  have list : (argumentList expr).Gives s i fun found _ => AllWellFormed found.1 := by
    refine .step fun first _ _ => .ite (fun _ => .step fun _ _ _ => .pure .nil) fun _ => ?_
    refine .loop (fun args _ => AllWellFormed args) .nil fun args j known => ?_
    refine (inner s j).bind fun arg k last => .step fun token k' _ => ?_
    have all := known.concat last
    split
    · exact .step fun _ _ _ => .ite (fun _ => .step fun _ _ _ => .pure all) fun _ => .pure all
    · exact .pure all
    · exact .fail
  exact list.bind fun _ _ all => .ite (fun _ => .stop .fail) fun _ => .pure all

/-- A dot selects a member of what has some. -/
theorem member_wellFormed (first : left.WellFormed) :
    (member left position).Gives s i fun found _ => ∀ n ∈ found, n.WellFormed := by
  refine .after (peek_of_ahead rfl) (.ite (fun front => ?_) fun _ => .pure (by simp))
  obtain ⟨members, front⟩ := Bool.and_eq_true_iff.mp front
  obtain ⟨c, cs, ahead, inside⟩ := front_of_hasOpt front
  refine .after (here_apply s i) ((Token.gives_takeClass_head .word ahead inside).bind ?_)
  rintro _ j ⟨ws, rfl, -, word, -⟩
  refine .step fun _ _ _ => .ite (fun _ => .pure (by simp)) fun _ => .pure ?_
  have name : (Node.identifier (String.ofList (c :: ws)) (s.position i)).IsWord :=
    ⟨_, _, rfl, by simp, by simpa [inside] using word⟩
  rintro _ ⟨⟩
  exact .dot first members name

theorem method_wellFormed (inner : ReadsWellFormed expr) (operand : ReadsWellFormed primary) (first : left.WellFormed) :
    (method expr primary left).Gives s i fun n _ => n.WellFormed := by
  refine (operand s i).bind fun callee j known => .step fun paren k _ => ?_
  refine .ite (fun _ => .stop .fail) fun _ => (arguments_wellFormed inner).bind fun args _ all => .pure ?_
  exact .method first rfl (.call known all)

theorem postfixed_wellFormed (inner : ReadsWellFormed expr) (operand : ReadsWellFormed primary) :
    ReadsWellFormed (postfixed expr primary) := by
  intro s i
  refine (operand s i).bind fun first j known => .loop (fun left _ => left.WellFormed) known ?_
  intro left j known
  refine .after (tell_apply s j) (.step fun _ _ _ => .step fun token k _ => ?_)
  split
  · exact (index_wellFormed inner known).bind fun node _ known => .pure known
  · exact (method_wellFormed inner operand known).bind fun node _ known => .pure known
  · exact (arguments_wellFormed inner).bind fun args _ all => .pure (.call known all)
  · refine (member_wellFormed known).bind fun found k' members => ?_
    cases found with
    | none => exact .after (seek_apply j s k') (.pure known)
    | some node => exact .pure (members node rfl)
  · exact .after (seek_apply j s k) (.pure known)

/-! ### Operands -/

theorem list_wellFormed (inner : ReadsWellFormed expr) : (list expr position).Gives s i fun n _ => n.WellFormed := by
  refine .step fun _ _ _ => .ite (fun _ => .step fun _ _ _ => .pure (.list AllWellFormed.nil)) fun _ => ?_
  refine .loop (fun items _ => AllWellFormed items) .nil fun items j known => ?_
  refine (inner s j).bind fun item k last => .step fun token k' _ => ?_
  have all := known.concat last
  split
  · refine .step fun _ _ _ => .step fun _ _ _ => .ite (fun _ => ?_) fun _ => .pure all
    exact .step fun _ _ _ => .pure (.list all)
  · exact .step fun _ _ _ => .pure (.list all)
  · exact .fail

theorem value_of_ellipsis (run : Token.next s i = .ok token j) (dots : token.kind = .ellipsis) :
    token.value = "..." := by
  obtain ⟨_, -, taken⟩ := Token.taken_of_next run
  cases taken with
  | eof | eol => cases dots
  | lexeme _ spelled =>
    obtain rfl := dots
    have table : ∀ form ∈ Token.operators, form.2 = .ellipsis → form.1 = "..." := by decide
    exact table _ (spelled.mem_operators (by decide)) rfl

theorem parameter_wellFormed (known : AreArguments params) :
    (parameter params token).Gives s i fun n _ => AreArguments (params ++ [n]) := by
  refine .ite (fun _ => .stop .fail) fun name => .ite (fun _ => .stop .fail) fun fresh => ?_
  have all : AreArguments (params ++ [Node.identifier token.value token.position]) :=
    known.concat (by simpa using name) (by simpa using fresh)
  refine .step fun _ _ _ => .ite (fun _ => ?_) fun _ => .pure all
  exact .step fun _ _ _ => .ite (fun _ => .stop .failHere) fun _ => .pure all

theorem parameters_wellFormed (run : Token.next s i = .ok first j) :
    (parameters first).Gives s k fun found _ => ∀ params ∈ found, AreParameters params := by
  have done {params : List Node} (known : AreParameters params) : ∀ found ∈ some params, AreParameters found := by
    rintro _ ⟨⟩
    exact known
  refine .loop (fun state _ => AreArguments state.1 ∧ (state.2.kind = .ellipsis → state.2.value = "..."))
    ⟨.nil, value_of_ellipsis run⟩ ?_
  rintro ⟨params, token⟩ k ⟨known, dots⟩
  dsimp only
  split
  · exact .pure (done known.parameters)
  · refine (parameter_wellFormed known).bind fun param _ known => .step fun after _ _ => ?_
    have all := known.parameters
    split
    · refine .step fun _ _ _ => .ite (fun _ => .step fun _ _ _ => .pure (done all)) fun _ => ?_
      exact .step fun token _ run => .pure ⟨known, value_of_ellipsis run⟩
    · exact .pure (done all)
    · exact .fail
  · rename_i ellipsis
    -- Nothing but the arrow is taken after the dots.
    have all : AreParameters (params ++ [Node.identifier token.value token.position]) :=
      dots ellipsis ▸ known.rest
    exact .step fun _ _ _ => .ite (fun _ => .step fun _ _ _ => .pure (done all)) fun _ => .fail
  · refine .pure ?_
    rintro _ ⟨⟩

theorem lambda_wellFormed (inner : ReadsWellFormed expr) (run : Token.next s i = .ok first j) :
    (lambda expr first position).Gives s k fun found _ => ∀ n ∈ found, n.WellFormed := by
  refine (parameters_wellFormed run).bind fun found m known => ?_
  cases found with
  | none => exact .pure (by simp)
  | some params =>
    refine (inner s m).bind fun body _ last => .step fun close _ _ => .ite (fun _ => .stop .fail) fun _ => .pure ?_
    rintro _ ⟨⟩
    exact .lambda (known params rfl) last

theorem literalKey_wellFormed : ReadsWellFormed literalKey := by
  intro s i
  exact .step fun _ _ _ => .pure (.leaf (by decide))

theorem dict_wellFormed (inner : ReadsWellFormed expr) (keys : ReadsWellFormed key) {start : Nat}
    (ahead : NameAhead s start) : (dict expr key start position).Gives s i fun n _ => n.WellFormed := by
  refine .step fun _ _ _ => .ite (fun _ => .step fun _ _ _ => .pure (.dict (by simp) (by simp))) fun _ => ?_
  refine .loop (fun entries _ => ∀ e ∈ entries, e.1.WellFormed ∧ e.2.WellFormed) (by simp) fun entries j known => ?_
  refine (keys s j).bind fun key k first => .step fun colon k' _ => ?_
  split
  · refine .ite (fun _ => .after (seek_apply start s k') ?_) fun _ => .fail
    exact (name_wellFormed inner ahead).bind fun node _ known => .pure known
  · refine (inner s k').bind fun value m last => .step fun token m' _ => ?_
    have all : ∀ e ∈ entries ++ [(key, value)], e.1.WellFormed ∧ e.2.WellFormed := by
      intro e place
      rcases List.mem_append.mp place with old | new
      · exact known e old
      · rw [List.mem_singleton.mp new]
        exact ⟨first, last⟩
    have made : (Node.mk position (.dict (entries ++ [(key, value)]))).WellFormed :=
      .dict (fun e place => (all e place).1) fun e place => (all e place).2
    split
    · exact .step fun _ _ _ => .ite (fun _ => .step fun _ _ _ => .pure made) fun _ => .pure all
    · exact .pure made
    · exact .fail
  · exact .fail

theorem braces_wellFormed (inner : ReadsWellFormed expr) {start : Nat} {brace : Token} (ahead : NameAhead s start) :
    (braces expr start brace).Gives s i fun n _ => n.WellFormed := by
  refine .after (tell_apply s i) (.step fun first j run => ?_)
  refine .bind (q := fun found _ => ∀ n ∈ found, n.WellFormed) ?_ fun found k known => ?_
  · exact .step fun _ _ _ => .ite (fun _ => lambda_wellFormed inner run) fun _ => .pure (by simp)
  · cases found with
    | some node => exact .pure (known node rfl)
    | none =>
      refine .after (seek_apply i s k) (dict_wellFormed inner ?_ ahead)
      split
      · exact literalKey_wellFormed
      · exact inner

theorem primary_wellFormed (inner : ReadsWellFormed expr) : ReadsWellFormed (Expr.primary expr) := by
  intro s i
  refine .after (tell_apply s i) (.step fun token j run => ?_)
  have named (opens : opensName token.kind = true) : (name expr).Gives s i fun n _ => n.WellFormed :=
    name_wellFormed inner (nameAhead_of_next run opens)
  have braced (opens : opensName token.kind = true) : (braces expr i token).Gives s j fun n _ => n.WellFormed :=
    braces_wellFormed inner (nameAhead_of_next run opens)
  split
  case h_1 | h_2 | h_3 | h_4 | h_5 => exact .pure (.leaf (by decide))
  case h_6 | h_7 => exact .after (seek_apply i s j) (.step fun _ _ _ => .pure (.leaf (by decide)))
  · exact list_wellFormed inner
  case h_9 | h_10 => exact braced (by simp [*, opensName])
  · refine (inner s j).bind fun value k known => .step fun close _ _ => ?_
    exact .ite (fun _ => .stop .fail) fun _ => .pure known
  · rename_i angle
    refine .step fun found k peeked => .ite (fun isName => ?_) fun _ => .fail
    obtain rfl := isName
    exact .after (seek_apply i s k) (name_wellFormed inner (nameAhead_of_angle run angle peeked))
  case h_13 | h_14 | h_15 | h_16 | h_17 =>
    exact .after (seek_apply i s j) (named (by simp [*, opensName, Token.startsName]))
  · exact .fail

/-! ### Levels -/

theorem chain_wellFormed (operator : TokenKind → Option BinaryOp) (inner : ReadsWellFormed operand) :
    ReadsWellFormed (chain operator operand) := by
  intro s i
  refine (inner s i).bind fun first j known => .loop (fun left _ => left.WellFormed) known ?_
  intro left j known
  refine .after (tell_apply s j) (.step fun token k _ => ?_)
  split
  · exact (inner s k).bind fun right _ last => .pure (.binary known last)
  · exact .after (seek_apply j s k) (.pure known)

theorem comparison_wellFormed (inner : ReadsWellFormed operand) : ReadsWellFormed (comparison operand) := by
  intro s i
  refine (inner s i).bind fun left j known => .after (tell_apply s j) (.step fun token k _ => ?_)
  split
  · exact (inner s k).bind fun right _ last => .pure (.binary known last)
  · exact .after (seek_apply j s k) (.pure known)

theorem prefixed_wellFormed (inner : ReadsWellFormed operand) : ReadsWellFormed (prefixed operand) := by
  intro s i
  refine .step fun ops j run => (inner s j).bind fun value k known => .pure ?_
  clear run
  induction ops generalizing value with
  | nil => exact known
  | cons op ops ih => exact ih _ (.unary known)

theorem ternary_wellFormed (inner : ReadsWellFormed expr) (cond : ReadsWellFormed operand) :
    ReadsWellFormed (ternary expr operand) := by
  intro s i
  refine (cond s i).bind fun value j first => .after (tell_apply s j) (.step fun token k _ => ?_)
  refine .ite (fun _ => ?_) fun _ => .after (seek_apply j s k) (.pure first)
  refine (inner s k).bind fun yes m second => .step fun colon m' _ => .ite (fun _ => .stop .fail) fun _ => ?_
  exact (inner s m').bind fun no _ last => .pure (.ternary first second last)

theorem nested_wellFormed (depth : Nat) : ReadsWellFormed (nested depth) := by
  induction depth with
  | zero =>
    rintro s i n j ⟨⟩
  | succ depth inner =>
    have operand := prefixed_wellFormed (postfixed_wellFormed inner (primary_wellFormed inner))
    have sum := chain_wellFormed TokenKind.additive? (chain_wellFormed TokenKind.multiplicative? operand)
    have conjunction := chain_wellFormed TokenKind.conjunction? (comparison_wellFormed sum)
    exact ternary_wellFormed inner (chain_wellFormed TokenKind.disjunction? conjunction)

theorem read_wellFormed : ReadsWellFormed read :=
  fun s i n j run => nested_wellFormed _ s i n j run

end Expr

namespace Target

open Scan Node VimScript.Expr

theorem base_wellFormed : ReadsWellFormed base := by
  intro s i
  refine .after (tell_apply s i) (.step fun token j run => ?_)
  have named (opens : opensName token.kind = true) : (name Expr.read).Gives s i fun n _ => n.WellFormed :=
    name_wellFormed read_wellFormed (nameAhead_of_next run opens)
  split
  case h_1 | h_2 | h_3 => exact .pure (.leaf (by decide))
  case h_4 | h_5 => exact .after (seek_apply i s j) (named (by simp [*, opensName, Token.startsName]))
  · rename_i angle
    refine .step fun found k peeked => .ite (fun isName => ?_) fun _ => .fail
    obtain rfl := isName
    exact .after (seek_apply i s k) (name_wellFormed read_wellFormed (nameAhead_of_angle run angle peeked))
  · exact .fail

theorem read_wellFormed : ReadsWellFormed read := by
  intro s i
  refine (base_wellFormed s i).bind fun first j known => .loop (fun left _ => left.WellFormed) known ?_
  intro left j known
  refine .after (tell_apply s j) (.step fun _ _ _ => .step fun token k _ => ?_)
  split
  · exact (index_wellFormed Expr.read_wellFormed known).bind fun node _ known => .pure known
  · refine (member_wellFormed known).bind fun found k' members => ?_
    cases found with
    | none => exact .after (seek_apply j s k') (.pure known)
    | some node => exact .pure (members node rfl)
  · exact .after (seek_apply j s k) (.pure known)

end Target

end VimScript
