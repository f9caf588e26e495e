import VimScript.Proofs.Statement.Variables
import VimScript.Proofs.Token.Lexemes

/-!
Lists of parameters. They are read one turn after the other; each turn keeps the parameters found so far in step with
the ones that were written, or it reports the first of them that may not stand where it does.
-/

set_option autoImplicit false

namespace VimScript

namespace Expr

open Token

theorem nested_of_number {s : Source} {i : Nat} {ws cs : List Char} {c : Char} (depth : Nat) (isNumber : IsNumber ws)
    (h : s.ahead i = ' ' :: (ws ++ c :: cs)) (mark : c = ',' ∨ c = ')') :
    nested (depth + 1) s i = .ok (.leaf .number (String.ofList ws) (s.position (i + 1))) (i + 1 + ws.length) := by
  have blank : s.ahead i = [' '] ++ (ws ++ c :: cs) := h
  have digits : s.ahead (i + 1) = ws ++ c :: cs := Source.ahead_of_cons h
  have stop : CharClass.name.hasOpt (c :: cs).head? = false ∧ (c :: cs).head? ≠ some '.' := by
    rcases mark with rfl | rfl <;> exact ⟨rfl, by simp⟩
  have first := (next_blanks [' '] blank (List.all_eq_true.mp rfl)).trans (next_of_number isNumber digits stop.1 stop.2)
  have ends : EndsAt s (i + 1 + ws.length) := by
    apply endsAt_of_mark (Source.ahead_of_append digits)
    rcases mark with rfl | rfl <;> decide
  apply nested_of_postfixed first rfl (postfixed_of_ends ?_ ends) ends
  simp only [primary, Scan.bind_of_ok (Scan.tell_apply s i), Scan.bind_of_ok first]
  rfl

end Expr

namespace Statement

open Token (IsLexeme)

/-! ### Written parameters -/

/-- A parameter as it is written, with its default if it has one. -/
structure Parameter where
  name : String
  default? : Option String

/-- The end of a list of parameters. Blanks may stand behind a trailing comma. -/
inductive ParameterEnd where
  | close | ellipsis | comma (blanks : Nat)
deriving DecidableEq

namespace ParameterEnd

/-- What stands behind the last parameter like one more. -/
def names : ParameterEnd → List String
  | .ellipsis => ["..."]
  | _ => []

def trail : ParameterEnd → String
  | .comma blanks => "," ++ String.ofList (List.replicate blanks ' ')
  | _ => ""

end ParameterEnd

namespace Parameter

/-- The name is one token and the default is a number. -/
structure IsWritten (p : Parameter) : Prop where
  name : IsLexeme .identifier p.name
  default : ∀ d ∈ p.default?, IsLexeme .number d

def text (p : Parameter) : String :=
  match p.default? with
  | some d => p.name ++ " = " ++ d
  | none => p.name

/-- The text between the parentheses. -/
def listed (params : List Parameter) (ending : ParameterEnd) : String :=
  ", ".intercalate (params.map text ++ ending.names) ++ ending.trail

/-- What is reported of a parameter behind others. -/
def offence? (before : List Parameter) (p : Parameter) : Option String :=
  if isArgumentName p.name = false ∨ p.name = "firstline" ∨ p.name = "lastline" then
    some ("E125: Illegal argument: " ++ p.name)
  else if p.name ∈ before.map name then
    some ("E853: Duplicate argument name: " ++ p.name)
  else if p.default? = none ∧ ∃ q ∈ before, q.default? ≠ none then
    some "E989: Non-default argument follows default argument"
  else
    none

/-- The names are legal and distinct, and the parameters with defaults are the last ones. -/
structure Acceptable (params : List Parameter) : Prop where
  legal : ∀ p ∈ params, isArgumentName p.name = true ∧ p.name ≠ "firstline" ∧ p.name ≠ "lastline"
  distinct : (params.map name).Nodup
  defaults : params.Pairwise fun p q => p.default? ≠ none → q.default? ≠ none

theorem acceptable_nil : Acceptable [] where
  legal := by simp
  distinct := .nil
  defaults := .nil

theorem offence?_eq_none_iff {before : List Parameter} {p : Parameter} :
    offence? before p = none ↔
      (isArgumentName p.name = true ∧ p.name ≠ "firstline" ∧ p.name ≠ "lastline") ∧ p.name ∉ before.map name ∧
        ∀ q ∈ before, q.default? ≠ none → p.default? ≠ none := by
  unfold offence?
  split_ifs with illegal known plain
  · rcases illegal with illegal | illegal | illegal <;> simp [illegal]
  · simp [known]
  · obtain ⟨none, q, place, some⟩ := plain
    simp only [false_iff, not_and]
    exact fun _ _ all => all q place some none
  · have legal : isArgumentName p.name = true ∧ p.name ≠ "firstline" ∧ p.name ≠ "lastline" := by simpa using illegal
    refine iff_of_true rfl ⟨legal, known, ?_⟩
    exact fun q place some none => plain ⟨none, q, place, some⟩

theorem acceptable_concat {before : List Parameter} {p : Parameter} :
    Acceptable (before ++ [p]) ↔ Acceptable before ∧ offence? before p = none := by
  rw [offence?_eq_none_iff]
  constructor
  · intro all
    have legal := List.forall_mem_append.mp all.legal
    have distinct := all.distinct
    rw [List.map_append, List.nodup_append] at distinct
    have defaults := List.pairwise_append.mp all.defaults
    refine ⟨⟨legal.1, distinct.1, defaults.1⟩, legal.2 p (by simp), ?_, ?_⟩
    · intro known
      exact distinct.2.2 _ known _ (by simp) rfl
    · intro q place some
      exact defaults.2.2 q place p (by simp) some
  · rintro ⟨inner, legal, fresh, ordered⟩
    refine ⟨?_, ?_, ?_⟩
    · exact List.forall_mem_append.mpr ⟨inner.legal, by simpa using legal⟩
    · rw [List.map_append, List.nodup_append]
      refine ⟨inner.distinct, by simp, ?_⟩
      intro one place other last same
      obtain rfl : other = p.name := by simpa using last
      exact fresh (same ▸ place)
    · refine List.pairwise_append.mpr ⟨inner.defaults, List.pairwise_singleton .., ?_⟩
      intro q place other last some
      obtain rfl : other = p := by simpa using last
      exact ordered q place some

theorem Acceptable.front {before after : List Parameter} (h : Acceptable (before ++ after)) : Acceptable before where
  legal p place := h.legal p (by simp [place])
  distinct := by
    have distinct := h.distinct
    rw [List.map_append, List.nodup_append] at distinct
    exact distinct.1
  defaults := (List.pairwise_append.mp h.defaults).1

/-- A list that is not acceptable has a first parameter that is reported. -/
theorem exists_offence {params : List Parameter} (not : ¬Acceptable params) :
    ∃ before p after message, params = before ++ p :: after ∧ Acceptable before ∧ offence? before p = some message := by
  induction params using List.reverseRecOn with
  | nil => exact absurd acceptable_nil not
  | append_singleton params p ih =>
    by_cases inner : Acceptable params
    · cases reported : offence? params p with
      | none => exact absurd (acceptable_concat.mpr ⟨inner, reported⟩) not
      | some message => exact ⟨params, p, [], message, rfl, inner, reported⟩
    · obtain ⟨before, q, after, message, rfl, front, reported⟩ := ih inner
      exact ⟨before, q, after ++ [p], message, by simp, front, reported⟩

/-! ### The text -/

/-- The text of parameters in front of another one. -/
def front (before : List Parameter) : String :=
  String.join (before.map fun p => p.text ++ ", ")

theorem toList_front_cons (p : Parameter) (ps : List Parameter) :
    (front (p :: ps)).toList = p.text.toList ++ ',' :: ' ' :: (front ps).toList := by
  simp [front, String.join_cons]

theorem intercalate_front (before : List Parameter) (text : String) (texts : List String) :
    (", ".intercalate (before.map Parameter.text ++ text :: texts)).toList =
      (front before).toList ++ (", ".intercalate (text :: texts)).toList := by
  induction before with
  | nil => simp [front]
  | cons p before ih =>
    obtain ⟨next, rest, more⟩ : ∃ next rest, before.map Parameter.text ++ text :: texts = next :: rest := by
      cases before <;> exact ⟨_, _, rfl⟩
    rw [more] at ih
    rw [toList_front_cons, List.map_cons, List.cons_append, more]
    simp only [String.toList_intercalate, List.map_cons, List.intercalate_cons_cons] at ih ⊢
    rw [ih]
    simp

theorem toList_listed_ellipsis (params : List Parameter) :
    (listed params .ellipsis).toList = (front params).toList ++ "...".toList := by
  have texts := intercalate_front params "..." []
  simpa [listed, ParameterEnd.names, ParameterEnd.trail] using texts

theorem toList_listed_concat (before : List Parameter) (p : Parameter) {ending : ParameterEnd} (last : ending.names = []) :
    (listed (before ++ [p]) ending).toList = (front before).toList ++ (p.text.toList ++ ending.trail.toList) := by
  have texts := intercalate_front before p.text []
  simp only [listed, last, List.append_nil, List.map_append, List.map_singleton, String.toList_append, texts]
  simp

/-- Behind a parameter there is a comma or the parenthesis. -/
theorem listed_append (before : List Parameter) (p : Parameter) (after : List Parameter) (ending : ParameterEnd) (cs : List Char) :
    ∃ c rest, (listed (before ++ p :: after) ending).toList ++ ')' :: cs =
      (front before).toList ++ (p.text.toList ++ c :: rest) ∧ (c = ',' ∨ c = ')') := by
  have texts := intercalate_front before p.text (after.map text ++ ending.names)
  simp only [listed, List.map_append, List.map_cons, List.append_assoc, List.cons_append, String.toList_append, texts]
  cases more : after.map text ++ ending.names with
  | nil =>
    cases ending with
    | close | ellipsis => exact ⟨')', cs, by simp [ParameterEnd.trail], .inr rfl⟩
    | comma blanks =>
      exact ⟨',', List.replicate blanks ' ' ++ ')' :: cs, by simp [ParameterEnd.trail], .inl rfl⟩
  | cons text texts =>
    refine ⟨',', ' ' :: ((", ".intercalate (text :: texts)).toList ++ (ending.trail.toList ++ ')' :: cs)), ?_, .inl rfl⟩
    simp [String.toList_intercalate]

end Parameter

/-! ### One parameter -/

open Parameter

variable {s : Source} {found : Parameters} {before params : List Parameter} {p : Parameter} {c : Char} {cs rest : List Char}
  {i j k : Nat} {kind : TokenKind}

/-- What was found are the parameters that were written. -/
structure Parameters.Holds (found : Parameters) (params : List Parameter) : Prop where
  names : found.names.map Node.kind = params.map fun p => .leaf .identifier p.name
  defaults : found.defaults.map Node.kind = (params.filterMap Parameter.default?).map fun d => .leaf .number d

theorem Parameters.Holds.any_name (holds : found.Holds before) (v : String) :
    (found.names.any fun n => n.leafText? == some v) = decide (v ∈ before.map Parameter.name) := by
  have texts : found.names.map Node.leafText? = before.map fun p => some p.name := by
    have kinds := congrArg (List.map Kind.leafText?) holds.names
    rw [List.map_map, List.map_map] at kinds
    exact kinds
  have any : (found.names.any fun n => n.leafText? == some v) = (found.names.map Node.leafText?).any (· == some v) := by
    rw [List.any_map]
    rfl
  rw [any, texts, Bool.eq_iff_iff]
  simp

theorem Parameters.Holds.isEmpty_defaults (holds : found.Holds before) :
    found.defaults.isEmpty = true ↔ ∀ q ∈ before, q.default? = none := by
  have length := congrArg List.length holds.defaults
  rw [List.length_map, List.length_map] at length
  rw [List.isEmpty_iff_length_eq_zero, length, List.length_eq_zero_iff, List.filterMap_eq_nil_iff]

theorem illegal_eq (v : String) :
    (!isArgumentName v || v == "firstline" || v == "lastline") =
      decide (isArgumentName v = false ∨ v = "firstline" ∨ v = "lastline") := by
  rw [Bool.eq_iff_iff]
  simp [or_assoc]

/-- The defaults after a parameter. -/
def parameterDefault (found : Parameters) (token : Token) : Scan (List Node) := do
  if (← Token.peek).kind == .assign then
    let _ ← Token.next
    let value ← Expr.read
    return found.defaults ++ [value]
  else if !found.defaults.isEmpty then
    Scan.fail .defaultBeforePlain token.position
  else
    return found.defaults

theorem functionParameter_eq (found : Parameters) (token : Token) : functionParameter found token = (do
    if !isArgumentName token.value || token.value == "firstline" || token.value == "lastline" then
      Scan.fail (.illegalArgument token.value) token.position
    if found.names.any fun n => n.leafText? == some token.value then
      Scan.fail (.duplicateArgument token.value) token.position
    let defaults ← parameterDefault found token
    if CharClass.white.hasOpt (← Scan.peek) then
      if (← Token.peek).kind == .comma then
        Scan.failHere .blankBeforeComma
    let after ← Token.next
    return (⟨found.names ++ [Node.identifier token.value token.position], defaults⟩, after)) := rfl

/-- The marks behind a parameter. -/
def marks : List (Char × TokenKind) :=
  [(',', .comma), (')', .parenClose)]

theorem next_of_mark (mark : (c, kind) ∈ marks) (h : s.ahead i = c :: cs) :
    Token.next s i = .ok ⟨kind, String.singleton c, s.position i⟩ (i + 1) := by
  simp only [marks, List.mem_cons, Prod.mk.injEq, List.not_mem_nil, or_false] at mark
  rcases mark with ⟨rfl, rfl⟩ | ⟨rfl, rfl⟩
  · exact Token.next_of_symbol h rfl
  · exact Token.next_of_symbol h rfl

theorem other_of_mark (mark : (c, kind) ∈ marks) :
    (kind == .assign) = false ∧ CharClass.white.has c = false ∧ CharClass.name.has c = false ∧ (c = ',' ∨ c = ')') := by
  have table : ∀ mark ∈ marks, (mark.2 == .assign) = false ∧ CharClass.white.has mark.1 = false ∧
      CharClass.name.has mark.1 = false ∧ (mark.1 = ',' ∨ mark.1 = ')') := by decide
  exact table _ mark

theorem parameterDefault_of_mark (found : Parameters) (token : Token) (mark : (c, kind) ∈ marks) (h : s.ahead i = c :: cs) :
    parameterDefault found token s i =
      if found.defaults.isEmpty then .ok found.defaults i else .fail ⟨.defaultBeforePlain, token.position⟩ i := by
  have peeked := Token.peek_of_next (next_of_mark mark h)
  simp only [parameterDefault, Scan.bind_of_ok peeked, (other_of_mark mark).1, Bool.false_eq_true, if_false]
  cases found.defaults.isEmpty <;> rfl

theorem parameterDefault_of_number {d : String} (found : Parameters) (token : Token) (mark : (c, kind) ∈ marks) (number : IsLexeme .number d)
    (h : s.ahead i = " = ".toList ++ (d.toList ++ c :: cs)) :
    parameterDefault found token s i =
      .ok (found.defaults ++ [Node.leaf .number d (s.position (i + 3))]) (i + 3 + d.toList.length) := by
  have blank : s.ahead i = [' '] ++ '=' :: ' ' :: (d.toList ++ c :: cs) := h
  have sign : s.ahead (i + 1) = '=' :: ' ' :: (d.toList ++ c :: cs) := Source.ahead_of_append blank
  have assign : Token.next s i = .ok ⟨.assign, "=", s.position (i + 1)⟩ (i + 1 + 1) :=
    (Token.next_blanks [' '] blank (List.all_eq_true.mp rfl)).trans (Token.next_of_symbol sign rfl)
  obtain ⟨position, run⟩ := number
  have isNumber := Token.next_isNumber _ _ _ _ run rfl
  have value : Expr.read s (i + 1 + 1) = _ :=
    Expr.nested_of_number s.size isNumber (Source.ahead_of_cons sign) (other_of_mark mark).2.2.2
  have goes : (TokenKind.assign == .assign) = true := rfl
  simp only [parameterDefault, Scan.bind_of_ok (Token.peek_of_next assign), goes, if_true, Scan.bind_of_ok assign]
  rw [Scan.bind_of_ok value, String.ofList_toList]
  rfl

/-- Where the default of a parameter starts, if it has one, and what it is read as. -/
theorem parameterDefault_of_text (holds : found.Holds before) (written : p.IsWritten) (mark : (c, kind) ∈ marks)
    (plain : ∀ q ∈ before, q.default? ≠ none → p.default? ≠ none) (token : Token)
    (h : s.ahead k = p.text.toList ++ c :: cs) :
    ∃ defaults, parameterDefault found token s (k + p.name.toList.length) = .ok defaults (k + p.text.toList.length) ∧
      defaults.map Node.kind = ((before ++ [p]).filterMap Parameter.default?).map fun d => .leaf .number d := by
  cases default : p.default? with
  | none =>
    have text : p.text = p.name := by simp [text, default]
    rw [text] at h ⊢
    have empty : found.defaults.isEmpty = true := by
      rw [holds.isEmpty_defaults]
      intro q place
      by_contra some
      exact plain q place some default
    refine ⟨found.defaults, ?_, by simp [holds.defaults, default]⟩
    rw [parameterDefault_of_mark found token mark (Source.ahead_of_append h), if_pos empty]
  | some d =>
    have text : p.text.toList = p.name.toList ++ (" = ".toList ++ d.toList) := by simp [text, default]
    rw [text] at h ⊢
    have number := written.default d default
    have behind : s.ahead (k + p.name.toList.length) = " = ".toList ++ (d.toList ++ c :: cs) := by
      rw [List.append_assoc] at h
      rw [Source.ahead_of_append h, List.append_assoc]
    have read := parameterDefault_of_number found token mark number behind
    have size : k + (p.name.toList ++ (" = ".toList ++ d.toList)).length = k + p.name.toList.length + 3 + d.toList.length := by
      have three : " = ".toList.length = 3 := rfl
      simp only [List.length_append, three, Nat.add_assoc]
    rw [size]
    exact ⟨_, read, by simp [holds.defaults, default, Node.leaf]⟩

theorem functionParameter_takes (holds : found.Holds before) (written : p.IsWritten) (fits : offence? before p = none)
    (mark : (c, kind) ∈ marks) (h : s.ahead k = p.text.toList ++ c :: cs) (position : Position) :
    ∃ found' : Parameters, found'.Holds (before ++ [p]) ∧
      functionParameter found ⟨.identifier, p.name, position⟩ s (k + p.name.toList.length) =
        .ok (found', ⟨kind, String.singleton c, s.position (k + p.text.toList.length)⟩) (k + p.text.toList.length + 1) := by
  obtain ⟨⟨valid, notFirst, notLast⟩, fresh, plain⟩ := offence?_eq_none_iff.mp fits
  obtain ⟨defaults, read, kinds⟩ := parameterDefault_of_text holds written mark plain ⟨.identifier, p.name, position⟩ h
  have behind : s.ahead (k + p.text.toList.length) = c :: cs := Source.ahead_of_append h
  have allowed := illegal_eq p.name
  rw [decide_eq_false (by simp [valid, notFirst, notLast])] at allowed
  have unknown := holds.any_name p.name
  rw [decide_eq_false fresh] at unknown
  refine ⟨⟨found.names ++ [Node.identifier p.name position], defaults⟩, ⟨?_, kinds⟩, ?_⟩
  · simp [holds.names, Node.identifier, Node.leaf]
  · simp only [functionParameter_eq, allowed, Bool.false_eq_true, if_false, unknown]
    rw [Scan.bind_of_ok read, Scan.bind_of_ok (Scan.peek_of_ahead behind)]
    simp only [List.head?_cons, CharClass.hasOpt_some, (other_of_mark mark).2.1, Bool.false_eq_true, if_false]
    exact Scan.bind_of_ok (next_of_mark mark behind)

theorem functionParameter_refuses {message : String} (holds : found.Holds before)
    (offends : offence? before p = some message) (mark : (c, kind) ∈ marks) (h : s.ahead k = p.text.toList ++ c :: cs)
    (position : Position) :
    ∃ fault j, functionParameter found ⟨.identifier, p.name, position⟩ s (k + p.name.toList.length) = .fail fault j ∧
      fault.message = message ∧ fault.position = position := by
  have legal := illegal_eq p.name
  have unknown := holds.any_name p.name
  -- The checks are made in the order in which the offences are told.
  unfold offence? at offends
  split_ifs at offends with illegal known plain <;> obtain rfl := Option.some.inj offends
  · rw [decide_eq_true illegal] at legal
    simp only [functionParameter_eq, legal, if_true]
    exact ⟨⟨.illegalArgument p.name, position⟩, _, rfl, rfl, rfl⟩
  · rw [decide_eq_false illegal] at legal
    rw [decide_eq_true known] at unknown
    simp only [functionParameter_eq, legal, Bool.false_eq_true, if_false, unknown, if_true]
    exact ⟨⟨.duplicateArgument p.name, position⟩, _, rfl, rfl, rfl⟩
  · rw [decide_eq_false illegal] at legal
    rw [decide_eq_false known] at unknown
    obtain ⟨none, q, place, some⟩ := plain
    have text : p.text = p.name := by simp [text, none]
    rw [text] at h
    have more : ¬found.defaults.isEmpty = true := by
      rw [holds.isEmpty_defaults]
      exact fun all => some (all q place)
    have read := parameterDefault_of_mark found ⟨.identifier, p.name, position⟩ mark (Source.ahead_of_append h)
    rw [if_neg more] at read
    simp only [functionParameter_eq, legal, Bool.false_eq_true, if_false, unknown]
    exact ⟨⟨.defaultBeforePlain, position⟩, _, Scan.bind_fail.mpr (.inl read), rfl, rfl⟩

/-! ### Turns -/

/-- One turn of reading parameters. -/
def parameterTurn (found : Parameters) : Scan (Scan.Turn Parameters Parameters) := do
  let token ← Token.next
  match token.kind with
  | .identifier =>
    let (found, after) ← functionParameter found token
    match after.kind with
    | .comma =>
      if (← Token.peek).kind == .parenClose then
        let _ ← Token.next
        return .done found
      else
        return .again found
    | .parenClose => return .done found
    | _ => Expr.unexpected after
  | .ellipsis =>
    let names := found.names ++ [.identifier token.value token.position]
    let after ← Token.next
    if after.kind != .parenClose then Expr.unexpected after
    return .done { found with names }
  | _ => Expr.unexpected token

theorem functionParameters_eq : functionParameters = (do
    if (← Token.peek).kind == .parenClose then
      let _ ← Token.next
      return {}
    else
      Scan.loop ({} : Parameters) parameterTurn) := rfl

/-- A token that is not the parenthesis stands at the cursor. -/
def GoesOn (s : Source) (i : Nat) : Prop :=
  ∃ token j, Token.next s i = .ok token j ∧ token.kind ≠ .parenClose

theorem next_of_written (written : p.IsWritten) (mark : c = ',' ∨ c = ')') (h : s.ahead k = p.text.toList ++ c :: cs) :
    Token.next s k = .ok ⟨.identifier, p.name, s.position k⟩ (k + p.name.toList.length) := by
  cases default : p.default? with
  | none =>
    have text : p.text = p.name := by simp [text, default]
    rw [text] at h
    refine Token.next_of_identifier written.name h ?_
    rcases mark with rfl | rfl <;> rfl
  | some d =>
    have text : p.text.toList = p.name.toList ++ ' ' :: '=' :: ' ' :: d.toList := by simp [text, default]
    rw [text, List.append_assoc] at h
    exact Token.next_of_identifier written.name h rfl

variable {blanks : Nat}

theorem turn_again (holds : found.Holds before) (written : p.IsWritten) (fits : offence? before p = none)
    (same : Token.next s i = Token.next s k) (h : s.ahead k = p.text.toList ++ ',' :: cs)
    (goesOn : GoesOn s (k + p.text.toList.length + 1)) :
    ∃ found' : Parameters, found'.Holds (before ++ [p]) ∧
      parameterTurn found s i = .ok (.again found') (k + p.text.toList.length + 1) := by
  have first := same.trans (next_of_written written (.inl rfl) h)
  obtain ⟨found', holds', taken⟩ := functionParameter_takes holds written fits (.head _) h (s.position k)
  obtain ⟨token, j, next, other⟩ := goesOn
  have other : (token.kind == .parenClose) = false := by simpa using other
  refine ⟨found', holds', ?_⟩
  simp only [parameterTurn, Scan.bind_of_ok first]
  rw [Scan.bind_of_ok taken]
  simp only [Scan.bind_of_ok (Token.peek_of_next next), other]
  rfl

theorem turn_close (holds : found.Holds before) (written : p.IsWritten) (fits : offence? before p = none)
    (same : Token.next s i = Token.next s k) (h : s.ahead k = p.text.toList ++ ')' :: cs) :
    ∃ found' : Parameters, found'.Holds (before ++ [p]) ∧
      parameterTurn found s i = .ok (.done found') (k + p.text.toList.length + 1) := by
  have first := same.trans (next_of_written written (.inr rfl) h)
  obtain ⟨found', holds', taken⟩ := functionParameter_takes holds written fits (.tail _ (.head _)) h (s.position k)
  refine ⟨found', holds', ?_⟩
  simp only [parameterTurn, Scan.bind_of_ok first]
  rw [Scan.bind_of_ok taken]
  rfl

theorem turn_comma (holds : found.Holds before) (written : p.IsWritten) (fits : offence? before p = none)
    (same : Token.next s i = Token.next s k)
    (h : s.ahead k = p.text.toList ++ ',' :: (List.replicate blanks ' ' ++ ')' :: cs)) :
    ∃ found' : Parameters, found'.Holds (before ++ [p]) ∧
      parameterTurn found s i = .ok (.done found') (k + p.text.toList.length + 1 + blanks + 1) := by
  have first := same.trans (next_of_written written (.inl rfl) h)
  obtain ⟨found', holds', taken⟩ := functionParameter_takes holds written fits (.head _) h (s.position k)
  have behind : s.ahead (k + p.text.toList.length + 1) = List.replicate blanks ' ' ++ ')' :: cs :=
    Source.ahead_of_cons (Source.ahead_of_append h)
  -- Behind the comma the parenthesis is looked at first and then taken.
  have white : ∀ x ∈ List.replicate blanks ' ', CharClass.white.has x = true := by simp [CharClass.has]
  have close := (Token.next_blanks _ behind white).trans (Token.next_of_symbol (Source.ahead_of_append behind) rfl)
  rw [List.length_replicate] at close
  refine ⟨found', holds', ?_⟩
  simp only [parameterTurn, Scan.bind_of_ok first]
  rw [Scan.bind_of_ok taken]
  simp only [Scan.bind_of_ok (Token.peek_of_next close), Scan.bind_of_ok close, beq_self_eq_true, if_true]
  rfl

theorem turn_last {ending : ParameterEnd} (last : ending.names = []) (holds : found.Holds before) (written : p.IsWritten)
    (fits : offence? before p = none) (same : Token.next s i = Token.next s k)
    (h : s.ahead k = p.text.toList ++ (ending.trail.toList ++ ')' :: cs)) :
    ∃ found' : Parameters, found'.Holds (before ++ [p]) ∧
      parameterTurn found s i =
        .ok (.done found') (k + p.text.toList.length + ending.trail.toList.length + 1) := by
  cases ending with
  | close => exact turn_close holds written fits same h
  | ellipsis => cases last
  | comma blanks =>
    have text : (ParameterEnd.comma blanks).trail.toList = ',' :: List.replicate blanks ' ' := by
      simp [ParameterEnd.trail]
    rw [text] at h ⊢
    have size : k + p.text.toList.length + (',' :: List.replicate blanks ' ').length + 1 =
        k + p.text.toList.length + 1 + blanks + 1 := by
      rw [List.length_cons, List.length_replicate]
      omega
    rw [size]
    exact turn_comma holds written fits same h

theorem turn_ellipsis (same : Token.next s i = Token.next s k) (h : s.ahead k = "...".toList ++ ')' :: cs) :
    parameterTurn found s i =
      .ok (.done { found with names := found.names ++ [Node.identifier "..." (s.position k)] }) (k + 4) := by
  have first := same.trans (Token.next_of_symbol h rfl)
  have close : Token.next s (k + 3) = .ok ⟨.parenClose, ")", s.position (k + 3)⟩ (k + 4) :=
    Token.next_of_symbol (Source.ahead_of_append h) rfl
  simp only [parameterTurn, Scan.bind_of_ok first]
  exact Scan.bind_of_ok close

theorem turn_fail {message : String} (holds : found.Holds before) (written : p.IsWritten)
    (offends : offence? before p = some message) (same : Token.next s i = Token.next s k) (mark : c = ',' ∨ c = ')')
    (h : s.ahead k = p.text.toList ++ c :: cs) :
    ∃ fault j, parameterTurn found s i = .fail fault j ∧ fault.message = message ∧ fault.position = s.position k := by
  have first := same.trans (next_of_written written mark h)
  obtain ⟨kind, listed⟩ : ∃ kind, (c, kind) ∈ marks := by
    rcases mark with rfl | rfl
    · exact ⟨_, .head _⟩
    · exact ⟨_, .tail _ (.head _)⟩
  obtain ⟨fault, j, refused, message, position⟩ := functionParameter_refuses holds offends listed h (s.position k)
  refine ⟨fault, j, ?_, message, position⟩
  simp only [parameterTurn, Scan.bind_of_ok first]
  exact Scan.bind_fail.mpr (.inl refused)

/-! ### Lists -/

variable {done : List Parameter} {ending : ParameterEnd}

theorem goesOn_of_written (written : p.IsWritten) (mark : c = ',' ∨ c = ')') (h : s.ahead k = p.text.toList ++ c :: cs) :
    GoesOn s k :=
  ⟨_, _, next_of_written written mark h, by simp⟩

theorem goesOn_front (written : ∀ q ∈ done, q.IsWritten) (h : s.ahead k = (front done).toList ++ rest)
    (goesOn : GoesOn s (k + (front done).toList.length)) : GoesOn s k := by
  cases done with
  | nil => exact goesOn
  | cons q done =>
    rw [toList_front_cons, List.append_assoc] at h
    exact goesOn_of_written (written q (by simp)) (.inl rfl) h

/-- Parameters with something behind them are taken one after the other. -/
theorem turns_of_front (written : ∀ q ∈ done, q.IsWritten) (legal : Acceptable (before ++ done))
    (holds : found.Holds before) (same : Token.next s i = Token.next s k) (le : i ≤ k)
    (h : s.ahead k = (front done).toList ++ rest) (goesOn : GoesOn s (k + (front done).toList.length)) :
    ∃ (found' : Parameters) (j : Nat), found'.Holds (before ++ done) ∧ Scan.Turns parameterTurn s found i found' j ∧
      Token.next s j = Token.next s (k + (front done).toList.length) := by
  -- A turn ends behind the comma, at `i`, and the next parameter starts behind the blank, at `k`: the same token is next
  -- at both. So each step moves one parameter over to those before and both cursors on.
  induction done generalizing before found i k with
  | nil => exact ⟨found, i, by simpa using holds, .none found i, same⟩
  | cons q done ih =>
    have size : (front (q :: done)).toList.length = q.text.toList.length + 1 + 1 + (front done).toList.length := by
      rw [toList_front_cons, List.length_append, List.length_cons, List.length_cons]
      omega
    have here : s.ahead k = q.text.toList ++ ',' :: (' ' :: (front done).toList ++ rest) := by
      rw [h, toList_front_cons, List.append_assoc]
      rfl
    have atComma := Source.ahead_of_append here
    have atBlank : s.ahead (k + q.text.toList.length + 1) = [' '] ++ ((front done).toList ++ rest) :=
      Source.ahead_of_cons atComma
    have there : s.ahead (k + q.text.toList.length + 1 + 1) = (front done).toList ++ rest := Source.ahead_of_cons atBlank
    have last : k + (front (q :: done)).toList.length =
        k + q.text.toList.length + 1 + 1 + (front done).toList.length := by omega
    rw [last] at goesOn ⊢
    have skip := Token.next_blanks [' '] atBlank (List.all_eq_true.mp rfl)
    have other := goesOn_front (fun r place => written r (by simp [place])) there goesOn
    rw [List.append_cons] at legal ⊢
    have fits := (acceptable_concat.mp legal.front).2
    have next : GoesOn s (k + q.text.toList.length + 1) := by
      obtain ⟨token, j, run, kind⟩ := other
      exact ⟨token, j, skip.trans run, kind⟩
    obtain ⟨found₁, holds₁, goes⟩ := turn_again holds (written q (by simp)) fits same here next
    obtain ⟨found', j, holds', turns, end_⟩ :=
      ih (fun r place => written r (by simp [place])) legal holds₁ skip (Nat.le_succ _) there goesOn
    have within := Source.lt_size_of_cons atComma
    exact ⟨found', j, holds', .turn goes (by omega) within turns, end_⟩

theorem functionParameters_of_goesOn (goesOn : GoesOn s k) :
    functionParameters s k = Scan.loop ({} : Parameters) parameterTurn s k := by
  obtain ⟨token, j, next, other⟩ := goesOn
  have other : (token.kind == .parenClose) = false := by simpa using other
  rw [functionParameters_eq]
  simp only [Scan.bind_of_ok (Token.peek_of_next next), other, Bool.false_eq_true, if_false]

theorem holds_nil : Parameters.Holds {} [] :=
  ⟨rfl, rfl⟩

theorem turns_of_start (written : ∀ q ∈ done, q.IsWritten) (legal : Acceptable done)
    (h : s.ahead k = (front done).toList ++ rest) (goesOn : GoesOn s (k + (front done).toList.length)) :
    ∃ (found : Parameters) (j : Nat), found.Holds done ∧ Scan.Turns parameterTurn s {} k found j ∧
      Token.next s j = Token.next s (k + (front done).toList.length) := by
  have legal : Acceptable ([] ++ done) := legal
  exact turns_of_front written legal holds_nil rfl (Nat.le_refl k) h goesOn

/-- Parameters as they were written, with the ellipsis at the end. -/
structure Parameters.Shows (found : Parameters) (params : List Parameter) (ending : ParameterEnd) : Prop where
  names : found.names.map Node.kind = (params.map Parameter.name ++ ending.names).map (.leaf .identifier)
  defaults : found.defaults.map Node.kind = (params.filterMap Parameter.default?).map (.leaf .number)

theorem Parameters.Holds.shows (holds : found.Holds params) (last : ending.names = []) : found.Shows params ending where
  names := by
    rw [last, List.append_nil, List.map_map]
    exact holds.names
  defaults := holds.defaults

theorem functionParameters_of_last (last : ending.names = []) (written : ∀ q ∈ before ++ [p], q.IsWritten)
    (legal : Acceptable (before ++ [p])) (h : s.ahead k = (listed (before ++ [p]) ending).toList ++ ')' :: cs) :
    ∃ found : Parameters,
      functionParameters s k = .ok found (k + (listed (before ++ [p]) ending).toList.length + 1) ∧
        found.Holds (before ++ [p]) := by
  obtain ⟨c, rest, text, mark⟩ := listed_append before p [] ending cs
  have isWritten := written p (by simp)
  have inFront : ∀ q ∈ before, q.IsWritten := fun q place => written q (by simp [place])
  have goesOn := goesOn_of_written isWritten mark (Source.ahead_of_append (h.trans text))
  rw [toList_listed_concat before p last, List.append_assoc, List.append_assoc] at h
  obtain ⟨front, fits⟩ := acceptable_concat.mp legal
  obtain ⟨found, j, holds, turns, same⟩ := turns_of_start inFront front h goesOn
  obtain ⟨found', holds', stops⟩ := turn_last last holds isWritten fits same (Source.ahead_of_append h)
  refine ⟨found', ?_, holds'⟩
  rw [functionParameters_of_goesOn (goesOn_front inFront h goesOn), turns.loop_done stops,
    toList_listed_concat before p last]
  simp only [List.length_append, Nat.add_assoc]

theorem functionParameters_of_ellipsis (written : ∀ q ∈ params, q.IsWritten) (legal : Acceptable params)
    (h : s.ahead k = (listed params .ellipsis).toList ++ ')' :: cs) :
    ∃ found : Parameters, functionParameters s k = .ok found (k + (listed params .ellipsis).toList.length + 1) ∧
      found.Shows params .ellipsis := by
  rw [toList_listed_ellipsis, List.append_assoc] at h
  have here := Source.ahead_of_append h
  have goesOn : GoesOn s (k + (front params).toList.length) := ⟨_, _, Token.next_of_symbol here rfl, by simp⟩
  obtain ⟨found, j, holds, turns, same⟩ := turns_of_start written legal h goesOn
  have read := (functionParameters_of_goesOn (goesOn_front written h goesOn)).trans
    (turns.loop_done (turn_ellipsis same here))
  have size : k + (listed params .ellipsis).toList.length + 1 = k + (front params).toList.length + 4 := by
    rw [toList_listed_ellipsis, List.length_append]
    rfl
  rw [size]
  refine ⟨_, read, ?_, holds.defaults⟩
  rw [List.map_append, holds.names]
  simp [ParameterEnd.names, Node.identifier, Node.leaf]

theorem functionParameters_takes (written : ∀ p ∈ params, p.IsWritten) (legal : Acceptable params)
    (trailing : params = [] → ∀ blanks, ending ≠ .comma blanks)
    (h : s.ahead k = (listed params ending).toList ++ ')' :: cs) :
    ∃ found : Parameters, functionParameters s k = .ok found (k + (listed params ending).toList.length + 1) ∧
      found.Shows params ending := by
  by_cases variadic : ending = .ellipsis
  · subst variadic
    exact functionParameters_of_ellipsis written legal h
  have last : ending.names = [] := by cases ending <;> simp_all [ParameterEnd.names]
  rcases params.eq_nil_or_concat' with rfl | ⟨before, p, rfl⟩
  · cases ending with
    | ellipsis => exact absurd rfl variadic
    | comma blanks => exact absurd rfl (trailing rfl blanks)
    | close =>
      have empty : (listed [] .close).toList = [] := by simp [listed, ParameterEnd.names, ParameterEnd.trail]
      rw [empty] at h ⊢
      exact ⟨{}, functionParameters_of_close h, holds_nil.shows last⟩
  · obtain ⟨found, read, holds⟩ := functionParameters_of_last last written legal h
    exact ⟨found, read, holds.shows last⟩

theorem functionParameters_refuses {message : String} {after : List Parameter}
    (written : ∀ q ∈ before ++ p :: after, q.IsWritten) (legal : Acceptable before)
    (offends : offence? before p = some message) (h : s.ahead k = (listed (before ++ p :: after) ending).toList ++ ')' :: cs) :
    ∃ fault j, functionParameters s k = .fail fault j ∧ fault.message = message ∧
      fault.position = s.position (k + (front before).toList.length) := by
  obtain ⟨c, rest, text, mark⟩ := listed_append before p after ending cs
  rw [text] at h
  have isWritten := written p (by simp)
  have inFront : ∀ q ∈ before, q.IsWritten := fun q place => written q (by simp [place])
  have here := Source.ahead_of_append h
  have goesOn := goesOn_of_written isWritten mark here
  obtain ⟨found, j, holds, turns, same⟩ := turns_of_start inFront legal h goesOn
  obtain ⟨fault, j, fails, message, position⟩ := turn_fail holds isWritten offends same mark here
  refine ⟨fault, j, ?_, message, position⟩
  rw [functionParameters_of_goesOn (goesOn_front inFront h goesOn)]
  exact turns.loop_fail fails

end Statement

end VimScript
