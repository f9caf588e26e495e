import VimScript.Proofs.Script.Variables
import VimScript.Proofs.Statement.Parameters
import VimScript.Proofs.Tree.Fingerprint

/-!
Functions with parameters. A list of parameters is taken as a whole or refused for the first parameter that may not stand
where it does, and in the fingerprint every default stands with its own parameter.
-/

set_option autoImplicit false

namespace VimScript

open Statement (Parameter ParameterEnd)
open Statement.Parameter (Acceptable offence? listed front)
open Fingerprint (ofNode ofKind writeAll statement block functionHeader Page)

/-! ### The header -/

namespace Statement.Parameter

/-- A parameter in the header of a function, after a blank. -/
def shown (p : Parameter) : String :=
  match p.default? with
  | some d => " (" ++ p.name ++ " " ++ d ++ ")"
  | none => " " ++ p.name

end Statement.Parameter

namespace Fingerprint

variable {params : List Parameter} {ending : ParameterEnd}

theorem inline_of_kinds {sort : Leaf} {ns : List Node} {texts : List String}
    (kinds : ns.map Node.kind = texts.map (.leaf sort)) : (ns.map ofNode).map Written.inline = texts := by
  have inline (n : Node) : (ofNode n).inline = (ofKind (n.kind.map ofNode)).inline := by
    obtain ⟨position, kind⟩ := n
    rw [ofNode, Node.fold_mk]
    rfl
  have texts' := congrArg (List.map fun kind : Kind Node => (ofKind (kind.map ofNode)).inline) kinds
  rw [List.map_map, List.map_map] at texts'
  rw [List.map_map]
  simp only [Function.comp_def, inline] at texts' ⊢
  rw [texts']
  exact List.map_id _

/-- The parameters with defaults are the last ones. -/
theorem exists_plain (ordered : params.Pairwise fun p q => p.default? ≠ none → q.default? ≠ none) :
    ∃ plain rest, params = plain ++ rest ∧ (∀ p ∈ plain, p.default? = none) ∧ ∀ p ∈ rest, p.default? ≠ none := by
  induction params with
  | nil => exact ⟨[], [], rfl, by simp, by simp⟩
  | cons p params ih =>
    obtain ⟨behind, inner⟩ := List.pairwise_cons.mp ordered
    cases default : p.default? with
    | some d =>
      refine ⟨[], p :: params, rfl, by simp, List.forall_mem_cons.mpr ⟨by simp [default], ?_⟩⟩
      exact fun q place => behind q place (by simp [default])
    | none =>
      obtain ⟨plain, rest, rfl, none, some⟩ := ih inner
      exact ⟨p :: plain, rest, rfl, List.forall_mem_cons.mpr ⟨default, none⟩, some⟩

theorem shown_of_defaults (defaults : ∀ p ∈ params, p.default? ≠ none) :
    (params.map Parameter.name).zipWith (fun name d => " (" ++ name ++ " " ++ d ++ ")")
      (params.filterMap Parameter.default?) = params.map Parameter.shown := by
  induction params with
  | nil => rfl
  | cons p params ih =>
    obtain ⟨first, rest⟩ := List.forall_mem_cons.mp defaults
    obtain ⟨d, some⟩ := Option.ne_none_iff_exists'.mp first
    rw [List.filterMap_cons_some some, List.map_cons, List.map_cons, List.zipWith_cons_cons, ih rest, Parameter.shown, some]

/-- Only the ellipsis is taken for one. -/
theorem isVariadic_eq (legal : Acceptable params) (ending : ParameterEnd) :
    ((params.map Parameter.name ++ ending.names).getLast? == some "...") = decide (ending = .ellipsis) := by
  have other (p : Parameter) (last : params.getLast? = some p) : ¬p.name = "..." := by
    intro same
    have valid := (legal.legal p (List.mem_of_getLast? last)).1
    rw [same] at valid
    exact absurd valid (by decide)
  cases ending with
  | ellipsis => simp [ParameterEnd.names]
  | close | comma => simpa [ParameterEnd.names] using other

theorem functionHeader_of_shows {found : Statement.Parameters} (shows : found.Shows params ending)
    (legal : Acceptable params) (name : Written) :
    functionHeader name (found.names.map ofNode) (found.defaults.map ofNode) =
      name.inline ++ String.join (params.map Parameter.shown) ++ (if ending = .ellipsis then " . ..." else "") := by
  have names := inline_of_kinds shows.names
  have variadic := isVariadic_eq legal ending
  have texts : (if decide (ending = .ellipsis) then (params.map Parameter.name ++ ending.names).dropLast
      else params.map Parameter.name ++ ending.names) = params.map Parameter.name := by
    cases ending <;> simp [ParameterEnd.names]
  obtain ⟨plain, rest, rfl, none, some⟩ := exists_plain legal.defaults
  have defaults : (found.defaults.map ofNode).map Written.inline = rest.filterMap Parameter.default? := by
    rw [inline_of_kinds shows.defaults, List.filterMap_append, List.filterMap_eq_nil_iff.mpr none, List.nil_append]
  -- The names are counted from the end, and there are as many defaults as parameters that were written with one.
  have pairs := shown_of_defaults some
  have count : (found.defaults.map ofNode).length = rest.length := by
    have length := congrArg List.length pairs
    have most := List.length_filterMap_le Parameter.default? rest
    rw [← defaults, List.length_map] at length most
    rw [List.length_zipWith, List.length_map, List.length_map] at length
    omega
  have front : (plain.map Parameter.name).map (" " ++ ·) = plain.map Parameter.shown := by
    rw [List.map_map]
    refine List.map_congr_left fun p place => ?_
    simp [Parameter.shown, none p place]
  rw [← defaults, List.zipWith_map_right] at pairs
  have split : ((plain ++ rest).map Parameter.name).length - (found.defaults.map ofNode).length =
      (plain.map Parameter.name).length := by
    rw [count, List.length_map, List.length_append, List.length_map]
    omega
  simp only [functionHeader, names, variadic, texts, split]
  rw [List.map_append, List.drop_left, List.take_left, front, pairs, List.map_append, String.join_append]
  simp [String.append_assoc]

end Fingerprint

namespace Script

variable {neovim : Bool} {inner : String} {j : Nat}

theorem ofLines_function_fail {fault : Fault}
    (refused : Statement.functionParameters (Source.ofLines ["function F(" ++ inner ++ ")", "endfunction"]) 11 =
      .fail fault j) : ofLines neovim ["function F(" ++ inner ++ ")", "endfunction"] = .fail fault j := by
  let s := Source.ofLines ["function F(" ++ inner ++ ")", "endfunction"]
  have whole := ahead_function inner
  have atF := ahead_argument inner
  obtain ⟨found, lookup, plain, form⟩ := Line.exists_lookup neovim (.opener .function)
  have body : Statement.body (.start (s.position 0)) (Statement.plainInvocation s 0 9 found) found.form s 9 = .fail fault j := by
    rw [form]
    exact (Statement.functionCommand_of_open _ atF).trans (Scan.bind_fail.mpr (.inl refused))
  have read := Statement.read_of_name ⟨neovim, [], .start (s.position 0)⟩ (Line.opener .function).isCommandName plain
    lookup [' '] (List.all_eq_true.mp rfl) rfl rfl (by simp) whole
  have fails : Statement.read ⟨neovim, [], .start (s.position 0)⟩ s 0 = .fail fault j :=
    read.trans (Scan.bind_fail.mpr (.inl body))
  have more : ¬s.size ≤ 0 := by
    have inside : 9 < s.size := Source.lt_size_of_cons atF
    omega
  show Script.read neovim s = .fail fault j
  simp only [Script.read, readWith, statements, more, if_false, fails]

theorem fingerprint_function (inv : Invocation) (p q : Position) (found : Statement.Parameters) (close : Node) :
    (Node.mk .origin (.script
      [.mk p (.function inv (.identifier "F" q) found.names found.defaults {} [] (some close))])).fingerprint =
      ["(function (" ++ functionHeader (ofNode (.identifier "F" q)) (found.names.map ofNode) (found.defaults.map ofNode) ++
        "))"] := by
  have written : ofNode (.mk p (.function inv (.identifier "F" q) found.names found.defaults {} [] (some close))) =
      ofKind (.function inv (ofNode (.identifier "F" q)) (found.names.map ofNode) (found.defaults.map ofNode) {} []
        (some (ofNode close))) := by
    rw [ofNode, Node.fold_mk]
    rfl
  have closing : "))" = ")" ++ ")" := rfl
  rw [Node.fingerprint_script, List.map_singleton, written, closing, ← String.append_assoc]
  simp [writeAll, ofKind, statement, block, Page.line, Page.close, Page.lines, Page.deeper, Page.shallower, Page.indent]

/-- A list of parameters is taken exactly when it is acceptable, with every default beside the name it was written for, and
otherwise fails on the name of the first parameter that may not follow those before it. -/
theorem ofLines_parameters (neovim : Bool) (params : List Parameter) (ending : ParameterEnd)
    (written : ∀ p ∈ params, p.IsWritten) (trailing : params = [] → ∀ blanks, ending ≠ .comma blanks) :
    let lines := ["function F(" ++ listed params ending ++ ")", "endfunction"]
    ((∃ root j, ofLines neovim lines = .ok root j) ↔ Acceptable params) ∧
      (∀ root j, ofLines neovim lines = .ok root j → root.fingerprint =
        ["(function (F" ++ String.join (params.map Parameter.shown) ++
          (if ending = .ellipsis then " . ..." else "") ++ "))"]) ∧
      (¬Acceptable params → ∃ before p after fault j, params = before ++ p :: after ∧ Acceptable before ∧
        offence? before p = some fault.message ∧ ofLines neovim lines = .fail fault j ∧
        fault.position = (Source.ofLines lines).position ("function F(" ++ front before).length) := by
  intro lines
  have atParameters : (Source.ofLines lines).ahead 11 =
      (listed params ending).toList ++ ')' :: '\n' :: ("endfunction".toList ++ ['\n']) :=
    Source.ahead_of_cons (Source.ahead_of_cons (ahead_argument (listed params ending)))
  by_cases legal : Acceptable params
  · obtain ⟨found, reads, shows⟩ := Statement.functionParameters_takes written legal trailing atParameters
    obtain ⟨inv, p, q, close, j, ok⟩ := ofLines_function neovim reads
    refine ⟨iff_of_true ⟨_, _, ok⟩ legal, ?_, absurd legal⟩
    intro root j' ok'
    obtain ⟨rfl, -⟩ := Reply.ok.inj (ok'.symm.trans ok)
    have header := Fingerprint.functionHeader_of_shows shows legal (ofNode (.identifier "F" q))
    have name : (ofNode (.identifier "F" q)).inline = "F" := by
      rw [Node.identifier, Node.leaf, ofNode, Node.fold_mk]
      rfl
    have opening : "(function (F" = "(function (" ++ "F" := rfl
    rw [fingerprint_function, header, name, opening]
    simp only [String.append_assoc]
  · obtain ⟨before, p, after, message, rfl, front, offends⟩ := Statement.Parameter.exists_offence legal
    obtain ⟨fault, j, refused, rfl, position⟩ :=
      Statement.functionParameters_refuses written front offends atParameters
    have fails : ofLines neovim lines = .fail fault j := ofLines_function_fail refused
    refine ⟨iff_of_false ?_ legal, ?_, ?_⟩
    · rintro ⟨root, j', ok⟩
      cases ok.symm.trans fails
    · intro root j' ok
      cases ok.symm.trans fails
    · intro _
      have cursor : ("function F(" ++ Parameter.front before).length = 11 + (Parameter.front before).toList.length := by
        rw [← String.length_toList, String.toList_append, List.length_append]
        rfl
      refine ⟨before, p, after, fault, j, rfl, front, offends, fails, ?_⟩
      rw [cursor, position]

/-- `a, b = 1, ...` is taken, and `a = 1, b` is refused at its second parameter. -/
theorem ofLines_parameters_variadic :
    (∀ p ∈ [Parameter.mk "a" none, ⟨"b", some "1"⟩], p.IsWritten) ∧
      (∀ p ∈ [Parameter.mk "a" (some "1"), ⟨"b", none⟩], p.IsWritten) ∧
      (∃ root j, ofLines true ["function F(a, b = 1, ...)", "endfunction"] = .ok root j ∧
        root.fingerprint = ["(function (F a (b 1) . ...))"]) ∧
      ∃ fault j, ofLines true ["function F(a = 1, b)", "endfunction"] = .fail fault j ∧
        fault.message = "E989: Non-default argument follows default argument" ∧ fault.position.column = 19 := by
  have a : Token.IsLexeme .identifier "a" := ⟨_, rfl⟩
  have b : Token.IsLexeme .identifier "b" := ⟨_, rfl⟩
  have one : Token.IsLexeme .number "1" := ⟨_, rfl⟩
  have first : ∀ p ∈ [Parameter.mk "a" none, ⟨"b", some "1"⟩], p.IsWritten := by
    simp only [List.forall_mem_cons]
    exact ⟨⟨a, nofun⟩, ⟨b, by simpa using one⟩, by simp⟩
  have second : ∀ p ∈ [Parameter.mk "a" (some "1"), ⟨"b", none⟩], p.IsWritten := by
    simp only [List.forall_mem_cons]
    exact ⟨⟨a, by simpa using one⟩, ⟨b, nofun⟩, by simp⟩
  have legal : Acceptable [Parameter.mk "a" none, ⟨"b", some "1"⟩] := ⟨by decide, by decide, by simp⟩
  have illegal : ¬Acceptable [Parameter.mk "a" (some "1"), ⟨"b", none⟩] := fun all => by simpa using all.defaults
  obtain ⟨parses, shown, -⟩ := ofLines_parameters true _ .ellipsis first (by simp)
  obtain ⟨-, -, refused⟩ := ofLines_parameters true _ .close second (by simp)
  obtain ⟨root, j, ok⟩ := parses.mpr legal
  obtain ⟨before, p, after, fault, k, split, front, offends, fails, position⟩ := refused illegal
  have fine : offence? [] ⟨"a", some "1"⟩ = none := by decide
  have offence : offence? [⟨"a", some "1"⟩] ⟨"b", none⟩ =
      some "E989: Non-default argument follows default argument" := by decide
  obtain ⟨rfl, rfl⟩ : before = [⟨"a", some "1"⟩] ∧ p = ⟨"b", none⟩ := by
    match before with
    | [] =>
      obtain ⟨rfl, -⟩ := List.cons.inj split
      cases fine.symm.trans offends
    | [_] => simp_all
    | _ :: _ :: _ => simp at split
  refine ⟨first, second, ⟨root, j, ok, shown root j ok⟩, fault, k, fails, ?_, ?_⟩
  · exact Option.some.inj (offends.symm.trans offence)
  · rw [position]
    rfl

end Script

end VimScript
