import VimScript.Fingerprint
import VimScript.Proofs.Tree.Readable

/-!
The text of an expression on one line is its form as it is written. The forms of the expressions that are read are
proper, so the text tells the form.
-/

set_option autoImplicit false

namespace VimScript

variable {ended : Prop} {sort : Leaf} {cs : List Char} {c : Char} {n : Node} {parts : List Node} {position : Position}

theorem Form.spaced_eq_intercalate (items : List Form) : spaced items = [' '].intercalate (items.map written) := by
  induction items with
  | nil => rfl
  | cons item items ih =>
    cases items with
    | nil => simp [spaced]
    | cons next items =>
      rw [spaced_cons item (by simp), ih, List.map_cons, List.map_cons, List.map_cons, List.intercalate_cons_cons]
      simp

theorem Form.glued_flatMap {α : Type} (f : α → List (Char ⊕ Form)) (xs : List α) :
    glued (xs.flatMap f) = xs.flatMap fun x => glued (f x) := by
  induction xs with
  | nil => simp [glued]
  | cons x xs ih => simp [ih]

namespace Form

theorem isWordChar_of {p : Char → Bool} (apart : (" ()\x7b\x7d'\"@".toList.all fun c => !p c) = true) (h : p c = true) :
    isWordChar c = true := by
  by_contra special
  have place : c ∈ " ()\x7b\x7d'\"@".toList := by
    rwa [isWordChar, Bool.not_eq_true', Bool.not_eq_false, List.contains_iff_mem] at special
  have other := List.all_eq_true.mp apart c place
  simp [h] at other

theorem proper_spelled {text : String} (some : text.toList ≠ []) (chars : text.toList.all isWordChar = true) :
    (spelled text).Proper ended :=
  .word (by simpa using some) (by simpa using chars) (by simp)

theorem chars_of_name {ws : List Char} (chars : ∀ x ∈ ws, CharClass.name.has x = true) : ws.all isWordChar = true :=
  List.all_eq_true.mpr fun x place => isWordChar_of (p := CharClass.name.has) (by decide) (chars x place)

end Form

theorem IsScope.chars (scope : IsScope cs) : cs ≠ [] ∧ cs.all Form.isWordChar = true := by
  refine ⟨?_, List.all_eq_true.mpr fun x place => ?_⟩
  · rintro rfl
    exact absurd (congrArg List.length scope) (by decide)
  · have lower : x.toLower ∈ "<sid>".toList := scope ▸ List.mem_map_of_mem place
    exact Form.isWordChar_of (p := fun x => "<sid>".toList.contains x.toLower) (by decide)
      (List.contains_iff_mem.mpr lower)

/-- Outside of strings and registers a text is a word. -/
theorem Leaf.Spelled.chars (h : sort.Spelled ended cs) (string : sort ≠ .string) (register : sort ≠ .register) :
    cs ≠ [] ∧ cs.all Form.isWordChar = true := by
  cases h with
  | number digit chars =>
    have first := Form.isWordChar_of (p := CharClass.digit.has) (by decide) digit
    have rest := List.all_eq_true.mpr fun x place =>
      Form.isWordChar_of (p := Token.isNumberChar) (by decide) (chars x place)
    simp [List.all_cons, first, rest]
  | @blob mark ds isMark chars =>
    have isWord : Form.isWordChar mark = true := by rcases isMark with rfl | rfl <;> decide
    have rest : ds.all Form.isWordChar = true := List.all_eq_true.mpr fun x place =>
      Form.isWordChar_of (p := fun x => CharClass.hex.has x || x == '.') (by decide) (by simpa using chars x place)
    exact ⟨by simp, by rw [List.all_cons, List.all_cons, isWord, rest]; rfl⟩
  | option chars => exact ⟨by simp, by rw [List.all_cons, Form.chars_of_name chars]; rfl⟩
  | env word =>
    have chars := Form.chars_of_name fun x place => Token.name_of_word (word x place)
    exact ⟨by simp, by rw [List.all_cons, chars]; rfl⟩
  | register | unnamedRegister => exact absurd rfl register
  | singleQuoted | doubleQuoted => exact absurd rfl string
  | name _ front chars => exact ⟨by simp, Form.chars_of_name (List.forall_mem_cons.mpr ⟨front, chars⟩)⟩
  | scope scope => exact scope.chars

/-- A part of a name is a text or an expression in braces. -/
theorem NameParts.part {run : Bool} (known : NameParts parts run) (place : n ∈ parts) :
    (∃ text position, n = .leaf .curlyPart text position ∧
      text.toList ≠ [] ∧ text.toList.all Form.isWordChar = true) ∨
    ∃ position value, n = .mk position (.curlyExpr value) := by
  induction known with
  | nil => simp at place
  | scope scope => exact .inl ⟨_, _, List.mem_singleton.mp place, scope.chars⟩
  | run _ _ front chars ih =>
    rcases List.mem_append.mp place with old | new
    · exact ih old
    · refine .inl ⟨_, _, List.mem_singleton.mp new, by simp, ?_⟩
      rw [String.toList_ofList]
      exact Form.chars_of_name (List.forall_mem_cons.mpr ⟨front, chars⟩)
  | braced _ ih =>
    rcases List.mem_append.mp place with old | new
    · exact ih old
    · exact .inr ⟨_, _, List.mem_singleton.mp new⟩

namespace Fingerprint

theorem toList_inline_mk {kind : Kind Node} {text : String} (h : expressionText (kind.map ofNode) = some text)
    (same : text.toList = (kind.map Node.form).form.written) :
    (ofNode (.mk position kind)).inline.toList = (Node.mk position kind).form.written := by
  have inline : (ofNode (.mk position kind)).inline = text := by
    rw [ofNode, Node.fold_mk, ← ofNode]
    generalize kind.map ofNode = kind at h
    cases kind <;> simp_all [ofKind, expressionText]
  rw [inline, same, Node.form_mk]

theorem toList_join {ns : List Node} (texts : ∀ n ∈ ns, (ofNode n).inline.toList = n.form.written) :
    (join (ns.map ofNode)).toList = Form.spaced (ns.map Node.form) := by
  rw [join, String.toList_intercalate, Form.spaced_eq_intercalate, List.map_map, List.map_map, List.map_map]
  exact congrArg _ (List.map_congr_left texts)

theorem toList_inline_leaf (sort : Leaf) (text : String) (position : Position) :
    (ofNode (.leaf sort text position)).inline.toList = (Node.leaf sort text position).form.written :=
  toList_inline_mk rfl (by cases sort <;> simp [Kind.map, Kind.form, Form.written])

/-- The text of an expression that is read is its form, written. -/
theorem toList_inline_of_shaped (h : n.Shaped ended) : (ofNode n).inline.toList = n.form.written := by
  induction h with
  | leaf => exact toList_inline_leaf _ _ _
  | unary _ ih => exact toList_inline_mk rfl (by simp [Kind.map, Kind.form, Form.written, Form.spaced, ih])
  | binary _ _ ih₁ ih₂ =>
    exact toList_inline_mk rfl (by simp [Kind.map, Kind.form, Form.written, Form.spaced, ih₁, ih₂])
  | ternary _ _ _ ih₁ ih₂ ih₃ =>
    exact toList_inline_mk rfl (by simp [Kind.map, Kind.form, Form.written, Form.spaced, ih₁, ih₂, ih₃])
  | subscript _ _ ih₁ ih₂ =>
    exact toList_inline_mk rfl (by simp [Kind.map, Kind.form, Form.written, Form.spaced, ih₁, ih₂])
  | slice _ _ _ ih₁ ih₂ ih₃ =>
    have bound {b : Option Node} (texts : ∀ n ∈ b, (ofNode n).inline.toList = n.form.written) :
        (((b.map ofNode).map Written.inline).getD "nil").toList =
          ((b.map Node.form).getD (.spelled "nil")).written := by
      cases b with
      | none => simp
      | some n => exact texts n rfl
    exact toList_inline_mk rfl (by simp [Kind.map, Kind.form, Form.written, Form.spaced, ih₁, ← bound ih₂, ← bound ih₃])
  | @dot _ _ text _ position _ _ _ ih =>
    have name := toList_inline_leaf .identifier text position
    exact toList_inline_mk rfl (by simp [Kind.map, Kind.form, Form.written, Form.spaced, Node.identifier, ih, name])
  | method _ _ ih₁ ih₂ =>
    exact toList_inline_mk rfl (by simp [Kind.map, Kind.form, Form.written, Form.spaced, ih₁, ih₂])
  | @call _ callee args _ _ _ ih₁ ih₂ =>
    cases args with
    | nil => exact toList_inline_mk rfl (by simp [Kind.map, Kind.form, Form.written, Form.spaced, ih₁])
    | cons arg args =>
      have inner := toList_join ih₂
      refine toList_inline_mk rfl ?_
      rw [Kind.map, Kind.form, Form.written, Form.spaced_cons _ (by simp), ← inner]
      simp [ih₁]
  | @list _ items _ _ ih =>
    cases items with
    | nil => exact toList_inline_mk rfl (by simp [Kind.map, Kind.form, Form.written, Form.spaced])
    | cons item items =>
      have inner := toList_join ih
      refine toList_inline_mk rfl ?_
      rw [Kind.map, Kind.form, Form.written, Form.spaced_cons _ (by simp), ← inner]
      simp
  | @dict _ entries _ _ _ ih₁ ih₂ =>
    cases entries with
    | nil => exact toList_inline_mk rfl (by simp [Kind.map, Kind.form, Form.written, Form.spaced])
    | cons entry entries =>
      refine toList_inline_mk rfl ?_
      rw [Kind.map, Kind.form, Form.written, Form.spaced_cons _ (by simp), Form.spaced_eq_intercalate]
      simp only [String.toList_append, String.toList_intercalate, List.map_map]
      have inner : ∀ e ∈ entry :: entries, ("(" ++ (ofNode e.1).inline ++ " " ++ (ofNode e.2).inline ++ ")").toList =
          (Form.group [e.1.form, e.2.form]).written := by
        intro e place
        simp [Form.written, Form.spaced, ih₁ e place, ih₂ e place]
      have texts := congrArg (fun texts => "(dict ".toList ++ [' '].intercalate texts ++ [')'])
        (List.map_congr_left inner)
      refine Eq.trans texts ?_
      simp [Function.comp_def]
  | curlyName known _ _ _ ih =>
    refine toList_inline_mk rfl ?_
    rw [String.toList_join, Kind.map, Kind.form, Form.written, Form.glued_flatMap]
    simp only [List.map_map, List.flatMap_def]
    refine congrArg List.flatten (List.map_congr_left fun n place => ?_)
    obtain ⟨text, position, rfl, -⟩ | ⟨position, value, rfl⟩ := known.part place
    · refine (toList_inline_leaf .curlyPart text position).trans ?_
      rw [Function.comp_apply, Node.leaf, Node.form_mk]
      rfl
    · refine (toList_inline_mk rfl ?_).trans ?_
      · simp [Kind.map, Kind.form, Form.written, Form.glued, Form.pieceText, ih position value place]
      · rw [Function.comp_apply, Node.form_mk]
        rfl
  | @lambda _ params _ _ known _ ih =>
    have inner : (join (params.map ofNode)).toList = Form.spaced (params.map Node.form) := by
      refine toList_join fun n place => ?_
      obtain ⟨text, position, rfl, -⟩ := known n place
      exact toList_inline_leaf _ _ _
    exact toList_inline_mk rfl (by simp [Kind.map, Kind.form, Form.written, Form.spaced, ih, inner])

end Fingerprint

theorem BinaryOp.proper_symbol (op : BinaryOp) : (Form.spelled op.symbol).Proper ended := by
  have table : ∀ op ∈ all, op.symbol.toList ≠ [] ∧ op.symbol.toList.all Form.isWordChar = true := by decide +kernel
  have word := table op op.mem_all
  exact Form.proper_spelled word.1 word.2

theorem UnaryOp.proper_symbol (op : UnaryOp) : (Form.spelled op.symbol).Proper ended := by
  cases op <;> exact Form.proper_spelled (by decide) (by decide)

theorem Leaf.Spelled.proper {text : String} (h : sort.Spelled ended text.toList) :
    (Kind.form (.leaf sort text)).Proper ended := by
  have word (string : sort ≠ .string) (register : sort ≠ .register) : (Form.spelled text).Proper ended :=
    Form.proper_spelled (h.chars string register).1 (h.chars string register).2
  cases sort with
  | string => exact .verbatim h (.inl rfl)
  | register => exact .verbatim h (.inr rfl)
  | _ => exact word (by simp) (by simp)

theorem Node.IsParameter.proper (h : n.IsParameter) : n.form.Proper ended := by
  obtain ⟨text, position, rfl, rfl | ⟨some, chars⟩⟩ := h
  · exact Form.proper_spelled (by decide) (by decide)
  · exact Form.proper_spelled some (Form.chars_of_name chars)

/-- The words that forms are headed by, operators apart, and the word for a bound that is left out. -/
def Form.keywords : List String :=
  ["?:", "subscript", "slice", "nil", "dot", "method", "list", "dict", "lambda"]

theorem Form.proper_keyword {text : String} (word : text ∈ keywords) : (spelled text).Proper ended := by
  have table : ∀ text ∈ keywords, text.toList ≠ [] ∧ text.toList.all isWordChar = true := by decide
  exact proper_spelled (table text word).1 (table text word).2

theorem Node.Shaped.proper (h : n.Shaped ended) : n.form.Proper ended := by
  induction h with
  | leaf spelled =>
    rw [form_mk]
    exact spelled.proper
  | @unary _ op _ _ _ ih =>
    rw [form_mk]
    exact .group (by simp [op.proper_symbol]) (by simp [ih])
  | @binary _ op _ _ _ _ _ ih₁ ih₂ =>
    rw [form_mk]
    exact .group (by simp [op.proper_symbol, ih₁]) (by simp [ih₂])
  | ternary _ _ _ ih₁ ih₂ ih₃ =>
    have head : (Form.spelled "?:").Proper False := Form.proper_keyword (by decide)
    rw [form_mk]
    exact .group (by simp [head, ih₁, ih₂]) (by simp [ih₃])
  | subscript _ _ ih₁ ih₂ =>
    have head : (Form.spelled "subscript").Proper False := Form.proper_keyword (by decide)
    rw [form_mk]
    exact .group_of_all (by simp [head, ih₁, ih₂])
  | slice _ _ _ ih₁ ih₂ ih₃ =>
    have head : (Form.spelled "slice").Proper False := Form.proper_keyword (by decide)
    have bound {b : Option Node} (known : ∀ n ∈ b, n.form.Proper False) :
        ((b.map Node.form).getD (.spelled "nil")).Proper False := by
      cases b with
      | none => exact Form.proper_keyword (by decide)
      | some n => exact known n rfl
    rw [form_mk]
    exact .group_of_all (by simp [head, ih₁, bound ih₂, bound ih₃])
  | @dot _ _ text _ _ _ some word ih =>
    have head : (Form.spelled "dot").Proper False := Form.proper_keyword (by decide)
    have name : (Form.spelled text).Proper False :=
      Form.proper_spelled some (Form.chars_of_name fun x place => Token.name_of_word (word x place))
    rw [form_mk]
    refine .group_of_all ?_
    simp only [Node.identifier, Node.leaf, form_mk, List.forall_mem_cons]
    exact ⟨head, ih, name, by simp⟩
  | call _ _ ih₁ ih₂ =>
    rw [form_mk]
    exact .group_of_all (by simpa using ⟨ih₁, ih₂⟩)
  | method _ _ ih₁ ih₂ =>
    have head : (Form.spelled "method").Proper False := Form.proper_keyword (by decide)
    rw [form_mk]
    exact .group_of_all (by simp [head, ih₁, ih₂])
  | list _ ih =>
    have head : (Form.spelled "list").Proper False := Form.proper_keyword (by decide)
    rw [form_mk]
    exact .group_of_all (by simpa [head] using ih)
  | dict _ _ ih₁ ih₂ =>
    rw [form_mk]
    refine .group_of_all (List.forall_mem_cons.mpr ⟨Form.proper_keyword (by decide), fun f place => ?_⟩)
    simp only [List.map_map, List.mem_map] at place
    obtain ⟨e, inside, rfl⟩ := place
    exact .group_of_all (by simpa using ⟨ih₁ e inside, ih₂ e inside⟩)
  | curlyName known some _ _ ih =>
    rw [form_curlyName]
    refine .word ?_ ?_ ?_
    · obtain ⟨n, parts, rfl⟩ := List.exists_cons_of_ne_nil some
      rw [← List.singleton_append, namePieces_append]
      obtain ⟨text, position, rfl, some, -⟩ | ⟨position, value, rfl⟩ := known.part List.mem_cons_self
      · simp [some]
      · simp
    · intro c place
      obtain ⟨n, inside, place⟩ := mem_namePieces.mp place
      obtain ⟨text, position, rfl, -, chars⟩ | ⟨position, value, rfl⟩ := known.part inside
      · exact List.all_eq_true.mp chars c (by simpa using place)
      · simp at place
    · intro f place
      obtain ⟨n, inside, place⟩ := mem_namePieces.mp place
      obtain ⟨text, position, rfl, -⟩ | ⟨position, value, rfl⟩ := known.part inside
      · simp at place
      · obtain rfl : f = value.form := by simpa using place
        exact ih position value inside
  | @lambda _ params _ _ known _ ih =>
    have head : (Form.spelled "lambda").Proper False := Form.proper_keyword (by decide)
    have inner : (Form.group (params.map Node.form)).Proper False :=
      .group_of_all (List.forall_mem_map.mpr fun n place => (known n place).proper)
    rw [form_mk]
    exact .group_of_all (by simp [head, inner, ih])

end VimScript
