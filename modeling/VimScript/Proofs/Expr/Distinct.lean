import VimScript.Proofs.Expr.FormTypes
import VimScript.Proofs.Expr.Printer
import VimScript.Proofs.Expr.Shaped
import VimScript.Proofs.Tree.Fold

/-!
Trees that are told apart by their texts on one line. Two expressions have one text where they have one form, and one
form where they are alike but for positions, unless a call or a bound of a slice is taken for what it is not.
-/

set_option autoImplicit false

namespace VimScript

variable {ended ended' : Prop} {n m : Node} {parts parts' : List Node} {run run' : Bool} {xs ys : List (Char ⊕ Form)}
  {cs ds : List Char}

/-! ### Names -/

/-- A word that does not end in a name character. -/
def Stops (xs : List (Char ⊕ Form)) : Prop :=
  ∀ c, xs.getLast? = some (.inl c) → CharClass.name.has c = false

/-- The run of name characters that ends a word. -/
theorem run_unique (stop : Stops xs) (stop' : Stops ys) (chars : ∀ c ∈ cs, CharClass.name.has c = true)
    (chars' : ∀ c ∈ ds, CharClass.name.has c = true) (same : xs ++ cs.map .inl = ys ++ ds.map .inl) :
    xs = ys ∧ cs = ds := by
  have none {xs ys zs : List (Char ⊕ Form)} {cs ds : List Char} (stop : Stops ys) (longer : ys = xs ++ zs)
      (chars : ∀ c ∈ cs, CharClass.name.has c = true) (run : cs.map .inl = zs ++ ds.map .inl) : zs = [] := by
    rcases List.eq_nil_or_concat zs with rfl | ⟨zs, z, rfl⟩
    · rfl
    · have place : z ∈ cs.map .inl := by simp [run]
      obtain ⟨c, inside, rfl⟩ := List.mem_map.mp place
      have other := stop c (by simp [longer])
      rw [chars c inside] at other
      cases other
  rcases List.append_eq_append_iff.mp same with ⟨zs, longer, run⟩ | ⟨zs, longer, run⟩
  · obtain rfl := none stop' longer chars run
    exact ⟨by simpa using longer.symm, Form.map_inl_injective (by simpa using run)⟩
  · obtain rfl := none stop longer chars' run
    exact ⟨by simpa using longer, Form.map_inl_injective (by simpa using run.symm)⟩

theorem not_stops (chars : ∀ c ∈ cs, CharClass.name.has c = true) (some : cs ≠ []) : ¬Stops (xs ++ cs.map .inl) := by
  intro stops
  have inside := chars _ (List.getLast_mem some)
  rw [stops (cs.getLast some) (by simp [List.getLast?_append, List.getLast?_eq_some_getLast some])] at inside
  cases inside

theorem NameParts.stops (known : NameParts parts false) : Stops (Node.namePieces parts) := by
  intro c last
  cases known with
  | nil => simp at last
  | scope scope =>
    obtain ⟨ds, brackets, -⟩ := scope.brackets
    rw [Node.namePieces_text, brackets, List.getLast?_map, ← List.cons_append, List.getLast?_concat] at last
    obtain rfl := Sum.inl.inj (Option.some.inj last)
    decide
  | braced => simp at last

/-- The parts of a name by their pieces, if the expressions in braces are told apart. -/
theorem NameParts.bare_eq (known : NameParts parts run) (known' : NameParts parts' run')
    (inner : ∀ position value, Node.mk position (.curlyExpr value) ∈ parts → ∀ position' value',
      Node.mk position' (.curlyExpr value') ∈ parts' → value.form = value'.form → value.bare = value'.bare)
    (same : Node.namePieces parts = Node.namePieces parts') : parts.map Node.bare = parts'.map Node.bare := by
  have ends {parts : List Node} {position : Position} {c : Char} {cs : List Char} (front : CharClass.name.has c = true)
      (chars : ∀ x ∈ cs, CharClass.name.has x = true) :
      ¬Stops (Node.namePieces (parts ++ [Node.leaf .curlyPart (String.ofList (c :: cs)) position])) := by
    rw [Node.namePieces_append, Node.namePieces_text, String.toList_ofList]
    exact not_stops (List.forall_mem_cons.mpr ⟨front, chars⟩) (by simp)
  have old {before before' : List Node} {last last' : Node}
      (inner : ∀ position value, Node.mk position (.curlyExpr value) ∈ before ++ [last] → ∀ position' value',
        Node.mk position' (.curlyExpr value') ∈ before' ++ [last'] → value.form = value'.form → value.bare = value'.bare) :
      ∀ position value, Node.mk position (.curlyExpr value) ∈ before → ∀ position' value',
        Node.mk position' (.curlyExpr value') ∈ before' → value.form = value'.form → value.bare = value'.bare :=
    fun p v place p' v' place' => inner p v (List.mem_append_left _ place) p' v' (List.mem_append_left _ place')
  induction known generalizing parts' run' with
  | nil =>
    cases known' with
    | nil => rfl
    | scope scope => simp [scope.chars.1] at same
    | run | braced => simp at same
  | scope scope =>
    cases known' with
    | nil => simp [scope.chars.1] at same
    | scope scope' =>
      rw [Node.namePieces_text, Node.namePieces_text] at same
      simp [String.toList_inj.mp (Form.map_inl_injective same)]
    | run _ _ front chars => exact absurd (same ▸ (NameParts.scope scope).stops) (ends front chars)
    | @braced parts position value =>
      have place : .inr value.form ∈ Node.namePieces (parts ++ [Node.mk position (.curlyExpr value)]) := by simp
      rw [← same, Node.namePieces_text] at place
      simp at place
  | run before start front chars ih =>
    cases known' with
    | nil => simp at same
    | scope scope => exact absurd (same ▸ (NameParts.scope scope).stops) (ends front chars)
    | run before' start' front' chars' =>
      rw [Node.namePieces_append, Node.namePieces_append, Node.namePieces_text, Node.namePieces_text,
        String.toList_ofList, String.toList_ofList] at same
      obtain ⟨first, last⟩ := run_unique before.stops before'.stops (List.forall_mem_cons.mpr ⟨front, chars⟩)
        (List.forall_mem_cons.mpr ⟨front', chars'⟩) same
      rw [List.map_append, List.map_append, ih before' (old inner) first, last]
      simp
    | braced before' => exact absurd (same ▸ before'.braced.stops) (ends front chars)
  | @braced parts position value run before ih =>
    cases known' with
    | nil => simp at same
    | scope scope =>
      have place : .inr value.form ∈ Node.namePieces (parts ++ [Node.mk position (.curlyExpr value)]) := by simp
      rw [same, Node.namePieces_text] at place
      simp at place
    | run _ _ front chars => exact absurd (same ▸ before.braced.stops) (ends front chars)
    | @braced parts' position' value' _ before' =>
      rw [Node.namePieces_append, Node.namePieces_append, Node.namePieces_braced, Node.namePieces_braced] at same
      obtain ⟨first, last⟩ := List.append_inj' same rfl
      have new : value.bare = value'.bare :=
        inner position value (by simp) position' value' (by simp) (by simpa using last)
      rw [List.map_append, List.map_append, ih before' (old inner) first]
      simp [new, Kind.map]

/-! ### Trees -/

namespace Node

/-- No node of the tree is taken by its form for something else. -/
inductive Unmistakable : Node → Prop where
  | intro {n : Node} (plain : n.isMistakable = false) (children : ∀ c ∈ n.children, Unmistakable c) : Unmistakable n

theorem Unmistakable.plain (h : n.Unmistakable) : n.isMistakable = false := by
  cases h
  assumption

theorem Unmistakable.children (h : n.Unmistakable) : ∀ c ∈ n.children, c.Unmistakable := by
  cases h
  assumption

theorem map_eq_map {α β γ : Type} {f : α → β} {g : α → γ} {xs ys : List α}
    (each : ∀ x ∈ xs, ∀ y ∈ ys, f x = f y → g x = g y) (same : xs.map f = ys.map f) : xs.map g = ys.map g := by
  induction xs generalizing ys with
  | nil => rw [List.map_eq_nil_iff.mp same.symm]
  | cons x xs ih =>
    obtain ⟨y, ys, rfl, first, rest⟩ := List.map_eq_cons_iff.mp same.symm
    rw [List.map_cons, List.map_cons, each x (by simp) y (by simp) first.symm,
      ih (fun x place y place' => each x (by simp [place]) y (by simp [place'])) rest.symm]

theorem bare_identifier {text text' : String} {position position' : Position}
    (same : (identifier text position).form = (identifier text' position').form) :
    (identifier text position).bare = (identifier text' position').bare := by
  rw [identifier, identifier, form_leaf, form_leaf] at same
  rw [identifier, identifier, bare_leaf, bare_leaf, Form.spelled_injective same]

/-- A bound of a slice, if it is not named like one left out. -/
theorem map_bare_bound {a b : Option Node} (first : ∀ n ∈ a, n.Shaped ended) (second : ∀ n ∈ b, n.Shaped ended')
    (named : a.bind leafText? ≠ some "nil") (named' : b.bind leafText? ≠ some "nil")
    (each : ∀ n ∈ a, ∀ m ∈ b, n.form = m.form → n.bare = m.bare)
    (same : (a.map form).getD (.spelled "nil") = (b.map form).getD (.spelled "nil")) : a.map bare = b.map bare := by
  have given {ended : Prop} {n : Node} (h : n.Shaped ended) (named : n.leafText? ≠ some "nil") :
      n.form ≠ .spelled "nil" := by
    intro word
    rcases h.word word (Form.text?_chars _) with name | scope
    · exact named name
    · exact absurd scope (by decide)
  cases a with
  | none =>
    cases b with
    | none => rfl
    | some m => exact absurd same.symm (given (second m rfl) named')
  | some n =>
    cases b with
    | none => exact absurd same (given (first n rfl) named)
    | some m => exact congrArg some (each n rfl m rfl same)

theorem Shaped.type_eq (h : n.Shaped ended) (h' : m.Shaped ended') (plain : n.Unmistakable) (plain' : m.Unmistakable)
    (same : n.form = m.form) : n.type = m.type := by
  rw [← h.type_form plain.plain, ← h'.type_form plain'.plain, same]

/-- Trees of one form are alike but for positions. -/
theorem Shaped.bare_eq (h : n.Shaped ended) (h' : m.Shaped ended') (plain : n.Unmistakable) (plain' : m.Unmistakable)
    (same : n.form = m.form) : n.bare = m.bare := by
  -- Trees of one form have one type, so that the other tree is built by the same rule.
  induction h generalizing m ended' with
  | @leaf _ sort text position spelled =>
    have type := (Shaped.leaf spelled).type_eq h' plain plain' same
    cases h' with
    | @leaf _ sort' text' position' spelled' =>
      obtain rfl : sort = sort' := NodeType.leaf.inj type
      rw [← Node.leaf, ← Node.leaf, form_leaf, form_leaf] at same
      obtain rfl : text = text' := by
        split at same
        · exact String.toList_inj.mp (Form.verbatim.inj same)
        · exact Form.spelled_injective same
      rw [← Node.leaf, ← Node.leaf, bare_leaf, bare_leaf]
    | _ => cases type
  | unary inner ih =>
    have type := (Shaped.unary inner).type_eq h' plain plain' same
    cases h' with
    | unary inner' =>
      obtain rfl := NodeType.unary.inj type
      simp only [form_mk, Kind.map, Kind.form, Form.group.injEq, List.cons.injEq, and_true, true_and] at same
      have below := plain.children
      have below' := plain'.children
      simp only [Node.children, kind_mk, Kind.children, List.forall_mem_cons] at below below'
      simp [Kind.map, ih inner' below.1 below'.1 same]
    | _ => cases type
  | binary first last ih₁ ih₂ =>
    have type := (Shaped.binary first last).type_eq h' plain plain' same
    cases h' with
    | binary first' last' =>
      obtain rfl := NodeType.binary.inj type
      simp only [form_mk, Kind.map, Kind.form, Form.group.injEq, List.cons.injEq, and_true, true_and] at same
      have below := plain.children
      have below' := plain'.children
      simp only [Node.children, kind_mk, Kind.children, List.forall_mem_cons] at below below'
      simp [Kind.map, ih₁ first' below.1 below'.1 same.1, ih₂ last' below.2.1 below'.2.1 same.2]
    | _ => cases type
  | ternary first second last ih₁ ih₂ ih₃ =>
    have type := (Shaped.ternary first second last).type_eq h' plain plain' same
    cases h' with
    | ternary first' second' last' =>
      simp only [form_mk, Kind.map, Kind.form, Form.group.injEq, List.cons.injEq, and_true, true_and] at same
      have below := plain.children
      have below' := plain'.children
      simp only [Node.children, kind_mk, Kind.children, List.forall_mem_cons] at below below'
      simp [Kind.map, ih₁ first' below.1 below'.1 same.1, ih₂ second' below.2.1 below'.2.1 same.2.1,
        ih₃ last' below.2.2.1 below'.2.2.1 same.2.2]
    | _ => cases type
  | subscript first inner ih₁ ih₂ =>
    have type := (Shaped.subscript first inner : Shaped False _).type_eq h' plain plain' same
    cases h' with
    | subscript first' inner' =>
      simp only [form_mk, Kind.map, Kind.form, Form.group.injEq, List.cons.injEq, and_true, true_and] at same
      have below := plain.children
      have below' := plain'.children
      simp only [Node.children, kind_mk, Kind.children, List.forall_mem_cons] at below below'
      simp [Kind.map, ih₁ first' below.1 below'.1 same.1, ih₂ inner' below.2.1 below'.2.1 same.2]
    | _ => cases type
  | method first last ih₁ ih₂ =>
    have type := (Shaped.method first last : Shaped False _).type_eq h' plain plain' same
    cases h' with
    | method first' last' =>
      simp only [form_mk, Kind.map, Kind.form, Form.group.injEq, List.cons.injEq, and_true, true_and] at same
      have below := plain.children
      have below' := plain'.children
      simp only [Node.children, kind_mk, Kind.children, List.forall_mem_cons] at below below'
      simp [Kind.map, ih₁ first' below.1 below'.1 same.1, ih₂ last' below.2.1 below'.2.1 same.2]
    | _ => cases type
  | dot first some word ih =>
    have type := (Shaped.dot first some word : Shaped False _).type_eq h' plain plain' same
    cases h' with
    | dot first' some' word' =>
      simp only [form_mk, Kind.map, Kind.form, Form.group.injEq, List.cons.injEq, and_true, true_and] at same
      have below := plain.children
      have below' := plain'.children
      simp only [Node.children, kind_mk, Kind.children, List.forall_mem_cons] at below below'
      have name := bare_identifier same.2
      simp [Kind.map, ih first' below.1 below'.1 same.1, name]
    | _ => cases type
  | call first inner ih₁ ih₂ =>
    have type := (Shaped.call first inner : Shaped False _).type_eq h' plain plain' same
    cases h' with
    | call first' inner' =>
      simp only [form_mk, Kind.map, Kind.form, Form.group.injEq, List.cons.injEq] at same
      have below := plain.children
      have below' := plain'.children
      simp only [Node.children, kind_mk, Kind.children, List.forall_mem_cons] at below below'
      have args := map_eq_map (fun x place y place' =>
        ih₂ x place (inner' y place') (below.2 x place) (below'.2 y place')) same.2
      simp [Kind.map, ih₁ first' below.1 below'.1 same.1, args]
    | _ => cases type
  | list inner ih =>
    have type := (Shaped.list inner : Shaped False _).type_eq h' plain plain' same
    cases h' with
    | list inner' =>
      simp only [form_mk, Kind.map, Kind.form, Form.group.injEq, List.cons.injEq, true_and] at same
      have below := plain.children
      have below' := plain'.children
      have items := map_eq_map (fun x place y place' =>
        ih x place (inner' y place') (below x place) (below' y place')) same
      simp [Kind.map, items]
    | _ => cases type
  | slice first lower upper ih₁ ih₂ ih₃ =>
    have type := (Shaped.slice first lower upper : Shaped False _).type_eq h' plain plain' same
    cases h' with
    | slice first' lower' upper' =>
      simp only [form_mk, Kind.map, Kind.form, Form.group.injEq, List.cons.injEq, and_true, true_and] at same
      have below := plain.children
      have below' := plain'.children
      simp [Node.children, Kind.children, or_imp, forall_and] at below below'
      have named := plain.plain
      have named' := plain'.plain
      simp [isMistakable] at named named'
      have low := map_bare_bound lower lower' named.1 named'.1
        (fun x place y place' => ih₂ x place (lower' y place') (below.2.1 x place) (below'.2.1 y place')) same.2.1
      have high := map_bare_bound upper upper' named.2 named'.2
        (fun x place y place' => ih₃ x place (upper' y place') (below.2.2 x place) (below'.2.2 y place')) same.2.2
      simp [Kind.map, ih₁ first' below.1 below'.1 same.1, low, high]
    | _ => cases type
  | dict keys values ih₁ ih₂ =>
    have type := (Shaped.dict keys values : Shaped False _).type_eq h' plain plain' same
    cases h' with
    | dict keys' values' =>
      simp only [form_mk, Kind.map, Kind.form, Form.group.injEq, List.cons.injEq, true_and, List.map_map] at same
      have parts {entries : List (Node × Node)} {position : Position}
          (below : (mk position (.dict entries)).Unmistakable) {e : Node × Node} (place : e ∈ entries) :
          e.1.Unmistakable ∧ e.2.Unmistakable :=
        ⟨below.children _ (List.mem_flatMap.mpr ⟨e, place, by simp⟩),
          below.children _ (List.mem_flatMap.mpr ⟨e, place, by simp⟩)⟩
      have pairs := map_eq_map (g := fun e => (e.1.bare, e.2.bare)) (fun x place y place' same => by
        simp only [Function.comp_apply, Form.group.injEq, List.cons.injEq, and_true] at same
        have key := ih₁ x place (keys' y place') (parts plain place).1 (parts plain' place').1 same.1
        have value := ih₂ x place (values' y place') (parts plain place).2 (parts plain' place').2 same.2
        rw [key, value]) same
      simp [Kind.map, pairs]
    | _ => cases type
  | curlyName known some several inner ih =>
    have type := (Shaped.curlyName known some several inner : Shaped False _).type_eq h' plain plain' same
    cases h' with
    | curlyName known' some' several' inner' =>
      rw [form_curlyName, form_curlyName, Form.word.injEq] at same
      have values {parts : List Node} {position position' : Position} {value : Node}
          (below : (mk position (.curlyName parts)).Unmistakable) (place : mk position' (.curlyExpr value) ∈ parts) :
          value.Unmistakable :=
        (below.children _ place).children _ (by simp [Node.children, Kind.children])
      have parts := known.bare_eq known' (fun p v place p' v' place' =>
        ih p v place (inner' p' v' place') (values plain place) (values plain' place')) same
      simp [Kind.map, parts]
    | _ => cases type
  | lambda known inner ih =>
    have type := (Shaped.lambda known inner : Shaped False _).type_eq h' plain plain' same
    cases h' with
    | lambda known' inner' =>
      simp only [form_mk, Kind.map, Kind.form, Form.group.injEq, List.cons.injEq, and_true, true_and] at same
      have below := plain.children
      have below' := plain'.children
      simp [Node.children, Kind.children, or_imp, forall_and] at below below'
      have params := map_eq_map (g := bare) (fun x place y place' same => by
        obtain ⟨text, position, rfl, -⟩ := known x place
        obtain ⟨text', position', rfl, -⟩ := known' y place'
        exact bare_identifier same) same.1
      simp [Kind.map, params, ih inner' below.2 below'.2 same.2]
    | _ => cases type

theorem form_bare (n : Node) : n.bare.form = n.form := by
  obtain ⟨position, kind⟩ := n
  rw [bare_mk, form_mk, form_mk, Kind.map_map]
  refine congrArg Kind.form (Kind.map_congr fun c below => ?_)
  exact form_bare c
termination_by sizeOf n
decreasing_by exact sizeOf_lt_of_mem_children below

theorem Shaped.inlineText_iff_form (h : n.Shaped ended) (h' : m.Shaped ended') :
    n.inlineText = m.inlineText ↔ n.form = m.form := by
  rw [← String.toList_inj, inlineText, inlineText, Fingerprint.toList_inline_of_shaped h,
    Fingerprint.toList_inline_of_shaped h']
  refine ⟨fun same => ?_, congrArg Form.written⟩
  have closes : Form.Closes [] := by simp [Form.Closes]
  exact (h.proper.isRead h'.proper closes closes (fun _ => Nat.le_refl 0) (fun _ => Nat.le_refl 0) (by rw [same])).1

end Node

namespace Expr

/-- Two expressions that are read have one text exactly where they have one form. Trees in which nothing is taken for
what it is not have one text exactly where they are alike but for positions. -/
theorem inlineText_eq_iff {a b : String} {i j : Nat} (first : ofLine a = .ok n i) (second : ofLine b = .ok m j) :
    (n.inlineText = m.inlineText ↔ n.form = m.form) ∧
      (n.Unmistakable → m.Unmistakable → (n.inlineText = m.inlineText ↔ n.bare = m.bare)) := by
  have shaped := shaped_of_ofLine first
  have shaped' := shaped_of_ofLine second
  have forms := shaped.inlineText_iff_form shaped'
  refine ⟨forms, fun plain plain' => forms.trans ⟨shaped.bare_eq shaped' plain plain', fun same => ?_⟩⟩
  rw [← Node.form_bare n, same, Node.form_bare]

theorem inlineText_list_ne_call : ∃ n m i j, ofLine "[1]" = .ok n i ∧ ofLine "f(1)" = .ok m j ∧ n.Unmistakable ∧
    m.Unmistakable ∧ n.inlineText ≠ m.inlineText := by
  have leaf (sort : Leaf) (text : String) (position : Position) : (Node.leaf sort text position).Unmistakable :=
    .intro rfl (by simp [Node.leaf, Node.children, Kind.children])
  have list : ofLine "[1]" = .ok (.mk ⟨0, 1, 1, 0⟩ (.list [.leaf .number "1" ⟨1, 1, 2, 1⟩])) 3 := rfl
  have call : ofLine "f(1)" =
      .ok (.mk ⟨1, 1, 2, 1⟩ (.call (.identifier "f" ⟨0, 1, 1, 0⟩) [.leaf .number "1" ⟨2, 1, 3, 2⟩])) 4 := rfl
  have plain : (Node.mk ⟨0, 1, 1, 0⟩ (.list [.leaf .number "1" ⟨1, 1, 2, 1⟩])).Unmistakable :=
    .intro rfl (by simp [Node.children, Kind.children, leaf])
  have plain' : (Node.mk ⟨1, 1, 2, 1⟩ (.call (.identifier "f" ⟨0, 1, 1, 0⟩)
      [.leaf .number "1" ⟨2, 1, 3, 2⟩])).Unmistakable :=
    .intro (by decide) (by simp [Node.children, Kind.children, Node.identifier, leaf])
  refine ⟨_, _, _, _, list, call, plain, plain', fun same => ?_⟩
  cases Node.type_of_bare (((inlineText_eq_iff list call).2 plain plain').mp same)

/-- The text of a list is also that of a call of what is named like the head of a list. -/
theorem inlineText_list_eq_call : ∃ n m i j, ofLine "[1]" = .ok n i ∧ ofLine "list(1)" = .ok m j ∧ n.bare ≠ m.bare ∧
    n.inlineText = m.inlineText := by
  refine ⟨.mk ⟨0, 1, 1, 0⟩ (.list [.leaf .number "1" ⟨1, 1, 2, 1⟩]),
    .mk ⟨4, 1, 5, 4⟩ (.call (.identifier "list" ⟨0, 1, 1, 0⟩) [.leaf .number "1" ⟨5, 1, 6, 5⟩]), 3, 7, rfl, rfl,
    fun same => ?_, rfl⟩
  cases Node.type_of_bare same

end Expr

end VimScript
