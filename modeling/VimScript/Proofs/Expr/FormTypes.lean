import VimScript.Proofs.Expr.Forms

/-!
What a form is taken for by its head, and by the number of parts after the head. Expressions are taken for what they are
but for the calls of what is named like a head.
-/

set_option autoImplicit false

namespace VimScript

variable {ended : Prop} {sort : Leaf} {cs : List Char} {c d : Char} {n : Node} {parts : List Node}

/-! ### Words -/

theorem CharClass.eq_of_toLower (h : c.toLower = d) (symbol : alpha.has d = false) : c = d := by
  by_cases letter : alpha.has c = true
  · have lower := forall_of_table (p := fun c => alpha.has c.toLower = true) (by decide) letter
    rw [h, symbol] at lower
    cases lower
  · have letters : (c.isUpper || c.isLower) = alpha.has c := rfl
    have notUpper : c.isUpper = false := by simp_all
    have kept : c.toLower = c := dif_neg (of_decide_eq_false notUpper)
    rw [← h, kept]

/-- The mark of a script-local name is in angle brackets. -/
theorem IsScope.brackets (scope : IsScope cs) : ∃ ds, cs = '<' :: (ds ++ ['>']) ∧ ds.length = 3 := by
  have folded : cs.map Char.toLower = '<' :: ("sid".toList ++ ['>']) := Eq.trans scope (by decide)
  obtain ⟨c, rest, rfl, first, rest'⟩ := List.map_eq_cons_iff.mp folded
  obtain ⟨ds, last, rfl, middle, last'⟩ := List.map_eq_append_iff.mp rest'
  obtain ⟨d, rfl, closing⟩ := List.map_eq_singleton_iff.mp last'
  obtain rfl := CharClass.eq_of_toLower first (by decide)
  obtain rfl := CharClass.eq_of_toLower closing (by decide)
  exact ⟨ds, rfl, by simpa using congrArg List.length middle⟩

/-- The sort of a leaf by its text. -/
def Leaf.ofText : List Char → Leaf
  | [] => .identifier
  | c :: cs =>
    if c = '&' then .option
    else if c = '$' then .env
    else if c = '@' then .register
    else if c = '\'' ∨ c = '"' then .string
    else if CharClass.digit.has c then if cs.head? = some 'z' ∨ cs.head? = some 'Z' then .blob else .number
    else .identifier

theorem Leaf.Spelled.sort_eq (h : sort.Spelled ended cs) : Leaf.ofText cs = sort := by
  have noSigil {k : CharClass} {c : Char}
      (table : ∀ n < 128, k.has (Char.ofNat n) = true → "&$@'\"".toList.contains (Char.ofNat n) = false)
      (h : k.has c = true) : c ≠ '&' ∧ c ≠ '$' ∧ c ≠ '@' ∧ c ≠ '\'' ∧ c ≠ '"' := by
    simpa using CharClass.forall_of_table (p := fun c => "&$@'\"".toList.contains c = false) table h
  cases h with
  | @number d ds digit chars =>
    have front := noSigil (by decide) digit
    have second : ¬(ds.head? = some 'z' ∨ ds.head? = some 'Z') := by
      rintro (mark | mark) <;> exact absurd (chars _ (List.mem_of_mem_head? mark)) (by decide)
    simp [Leaf.ofText, front, digit, second]
  | blob isMark =>
    have digit : CharClass.digit.has '0' = true := by decide
    simp [Leaf.ofText, isMark, digit]
  | name start front =>
    have front := noSigil (by decide) front
    simp [Leaf.ofText, front, start]
  | scope scope =>
    obtain ⟨ds, rfl, -⟩ := scope.brackets
    rfl
  | _ => simp [Leaf.ofText]

/-- A script-local name goes on after the mark of the script. -/
def startsScope (text : List Char) : Bool :=
  text.head? == some '<' && 5 < text.length

theorem Leaf.Spelled.not_startsScope (h : sort.Spelled ended cs) : startsScope cs = false := by
  cases h with
  | number digit =>
    have front := CharClass.forall_of_table (p := fun c => c ≠ '<') (by decide) digit
    simp [startsScope, front]
  | name _ front =>
    have front := CharClass.forall_of_table (p := fun c => c ≠ '<') (by decide) front
    simp [startsScope, front]
  | scope scope =>
    obtain ⟨ds, rfl, length⟩ := scope.brackets
    simp [startsScope, length]
  | _ => simp [startsScope]

namespace Form

/-- The text of a word without braces. -/
def text? : List (Char ⊕ Form) → Option (List Char)
  | [] => some []
  | .inl c :: pieces => (text? pieces).map (c :: ·)
  | .inr _ :: _ => none

@[simp] theorem text?_chars (text : List Char) : text? (text.map .inl) = some text := by
  induction text with
  | nil => rfl
  | cons c text ih => simp [text?, ih]

theorem text?_of_braces {value : Form} {pieces : List (Char ⊕ Form)} (place : .inr value ∈ pieces) :
    text? pieces = none := by
  induction pieces with
  | nil => simp at place
  | cons piece pieces ih =>
    cases piece with
    | inl c => simp [text?, ih (by simpa using place)]
    | inr f => rfl

/-! ### Heads -/

/-- The heads of forms with a given number of parts after the head, and the types of the nodes with such forms. -/
def heads : List ((String × Nat) × NodeType) :=
  [(("?:", 3), NodeType.ternary), (("slice", 3), NodeType.slice), (("subscript", 2), NodeType.subscript),
    (("dot", 2), NodeType.dot), (("method", 2), NodeType.method), (("lambda", 2), NodeType.lambda)] ++
  UnaryOp.all.map (fun op => ((op.symbol, 1), NodeType.unary op)) ++
  BinaryOp.all.map (fun op => ((op.symbol, 2), NodeType.binary op))

/-- The type of the nodes, calls apart, with a form of a given head and so many parts after it. -/
def headed (head : String) (parts : Nat) : Option NodeType :=
  if head = "list" then some .list else if head = "dict" then some .dict else heads.lookup (head, parts)

/-- What a form is taken for. -/
def type : Form → NodeType
  | .verbatim text => .leaf (Leaf.ofText text)
  | .word pieces =>
    match text? pieces with
    | some text => if startsScope text then .curlyName else .leaf (Leaf.ofText text)
    | none => .curlyName
  | .group (.word head :: items) =>
    ((text? head).bind fun text => headed (String.ofList text) items.length).getD .call
  | .group _ => .call

theorem type_spelled (text : String) (items : List Form) :
    (group (spelled text :: items)).type = (headed text items.length).getD .call := by
  simp [type, spelled]

theorem headed_of_startsScope {parts : Nat} (scope : startsScope cs = true) :
    headed (String.ofList cs) parts = none := by
  have differs {text : String} (other : startsScope text.toList = false) : String.ofList cs ≠ text := by
    rintro rfl
    rw [String.toList_ofList, scope] at other
    cases other
  have table : ∀ entry ∈ heads, startsScope entry.1.1.toList = false := by decide
  rw [headed, if_neg (differs (by decide)), if_neg (differs (by decide))]
  rw [List.lookup_eq_none_iff]
  intro entry place
  rw [bne_iff_ne]
  intro same
  exact differs (table entry place) (congrArg Prod.fst same)

end Form

theorem BinaryOp.headed (op : BinaryOp) : Form.headed op.symbol 2 = some (.binary op) := by
  have table : ∀ op ∈ all, Form.headed op.symbol 2 = some (.binary op) := by decide +kernel
  exact table op op.mem_all

theorem UnaryOp.headed (op : UnaryOp) : Form.headed op.symbol 1 = some (.unary op) := by
  cases op <;> decide

theorem NameParts.type_form {run : Bool} (known : NameParts parts run) (some : parts ≠ [])
    (several : ∀ text position, parts ≠ [.leaf .curlyPart text position]) :
    (Form.word (Node.namePieces parts)).type = .curlyName := by
  cases known with
  | nil => exact absurd rfl some
  | scope => exact absurd rfl (several _ _)
  | @braced parts position value =>
    have braces : .inr value.form ∈ Node.namePieces (parts ++ [Node.mk position (.curlyExpr value)]) := by simp
    rw [Form.type, Form.text?_of_braces braces]
  | @run parts position c cs before =>
    cases before with
    | nil => exact absurd rfl (several _ _)
    | @scope text position' scope =>
      obtain ⟨ds, brackets, length⟩ := scope.brackets
      rw [Node.namePieces_append, Node.namePieces_text, Node.namePieces_text, ← List.map_append, Form.type,
        Form.text?_chars]
      simp [startsScope, brackets, length]
      omega
    | @braced parts position' value =>
      have braces : .inr value.form ∈ Node.namePieces (parts ++ [Node.mk position' (.curlyExpr value)] ++
          [.leaf .curlyPart (String.ofList (c :: cs)) position]) := by
        rw [Node.namePieces_append, Node.namePieces_append, Node.namePieces_braced]
        simp
      rw [Form.type, Form.text?_of_braces braces]

namespace Node

variable {pieces : List (Char ⊕ Form)}

theorem form_leaf (sort : Leaf) (text : String) (position : Position) :
    (leaf sort text position).form =
      if sort = .string ∨ sort = .register then .verbatim text.toList else .spelled text := by
  rw [leaf, form_mk]
  cases sort <;> rfl

/-- A leaf, or a script-local name that is no leaf. -/
theorem Shaped.word (h : n.Shaped ended) (word : n.form = .word pieces) (text : Form.text? pieces = some cs) :
    n.leafText? = some (String.ofList cs) ∨ startsScope cs = true := by
  cases h with
  | @leaf sort text' position spelled =>
    rw [← Node.leaf, form_leaf] at word
    split at word
    · cases word
    · rw [← Form.word.inj word, Form.text?_chars] at text
      obtain rfl := Option.some.inj text
      exact .inl (by rw [String.ofList_toList]; rfl)
  | curlyName known some several =>
    have type := known.type_form some several
    rw [form_curlyName, Form.word.injEq] at word
    rw [word, Form.type, text] at type
    by_contra other
    simp_all
  | _ => simp [form_mk, Kind.map, Kind.form] at word

/-- Taken by its form for something else: a call of what is named like a head, with as many parts after it, or a slice
with a bound that is named like one left out. -/
def isMistakable (n : Node) : Bool :=
  match n.kind with
  | .call callee args => callee.leafText?.any fun name => (Form.headed name args.length).isSome
  | .slice _ lower upper => lower.bind leafText? == some "nil" || upper.bind leafText? == some "nil"
  | _ => false

theorem Shaped.type_form (h : n.Shaped ended) (plain : n.isMistakable = false) : n.form.type = n.type := by
  induction h with
  | @leaf _ sort text position spelled =>
    rw [← Node.leaf, form_leaf]
    split
    · rw [Form.type, spelled.sort_eq]
      rfl
    · rw [Form.spelled, Form.type, Form.text?_chars]
      simp only [spelled.not_startsScope, spelled.sort_eq]
      rfl
  | curlyName known some several =>
    rw [form_curlyName]
    exact known.type_form some several
  | @unary _ op => rw [form_mk, Kind.map, Kind.form, Form.type_spelled]; simp [op.headed, type, Kind.nodeType]
  | @binary _ op => rw [form_mk, Kind.map, Kind.form, Form.type_spelled]; simp [op.headed, type, Kind.nodeType]
  | @call _ callee args position first =>
    rw [form_mk, Kind.map, Kind.form]
    cases shown : callee.form with
    | verbatim | group => rfl
    | word pieces =>
      rw [Form.type]
      cases text : Form.text? pieces with
      | none => rfl
      | some cs =>
        have free : Form.headed (String.ofList cs) args.length = none := by
          rcases first.word shown text with name | scope
          · simpa [isMistakable, name] using plain
          · exact Form.headed_of_startsScope scope
        simp [free, type, Kind.nodeType]
  | _ => rw [form_mk, Kind.map, Kind.form, Form.type_spelled]; rfl

end Node

end VimScript
