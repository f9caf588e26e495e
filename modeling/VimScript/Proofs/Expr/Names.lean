import VimScript.Proofs.Expr.Enclosed

/-!
Reading names, with and without expressions in braces.
-/

set_option autoImplicit false

namespace VimScript.Expr

open Node

variable {s : Source} {i : Nat} {ws cs rest : List Char} {c : Char} {dots : Dots} {depth : Nat}
  {expr : Scan Node} {t : Node}

/-! ### One part -/

def nameTurn (expr : Scan Node) (parts : List Node) : Scan (Scan.Turn (List Node) (List Node)) := do
  match ← Scan.peek with
  | some '\x7b' =>
    Scan.skip 1
    let position ← Scan.here
    let inner ← expr
    Scan.skipWhite
    let c ← Scan.peek
    if c != some '\x7d' then
      Scan.failHere (.unexpectedToken (describeChar c))
    Scan.skip 1
    return .again (parts ++ [.mk position (.curlyExpr inner)])
  | c =>
    if CharClass.name.hasOpt c then
      let position ← Scan.here
      let text ← Scan.takeClass .name
      return .again (parts ++ [.leaf .curlyPart text position])
    else
      return .done parts

theorem nameParts_eq (expr : Scan Node) :
    nameParts expr = (do
      let position ← Scan.here
      let isScriptLocal := sameIgnoringCase (← Scan.peekRun 5) "<SID>"
      let scope ← (do
        if isScriptLocal then
          let text ← Scan.take 5
          return [Node.leaf .curlyPart text position]
        else
          return [])
      Scan.loop scope (nameTurn expr)) := rfl

/-- A name does not open with a script mark unless a `<` is its first character. -/
theorem nameParts_of_front (h : s.ahead i = c :: cs) (front : c.toLower ≠ '<') (line : c ≠ '\n') :
    nameParts expr s i = Scan.loop [] (nameTurn expr) s i := by
  have local' : sameIgnoringCase (String.ofList (((c :: cs).take 5).takeWhile (· != '\n'))) "<SID>" = false := by
    simp [sameIgnoringCase, line, front]
  simp only [nameParts_eq, Scan.bind_of_ok (Scan.here_apply s i), Scan.bind_of_ok (Scan.peekRun_of_ahead 5 h), local']
  rfl

theorem nameTurn_text (expr : Scan Node) (parts : List Node) (more : ws ≠ []) (inside : ∀ x ∈ ws, CharClass.name.has x = true)
    (stop : CharClass.name.hasOpt cs.head? = false) (h : s.ahead i = ws ++ cs) :
    nameTurn expr parts s i =
      .ok (.again (parts ++ [Node.leaf .curlyPart (String.ofList ws) (s.position i)])) (i + ws.length) := by
  have taken := Scan.takeClass_of_ahead .name h inside stop
  cases ws with
  | nil => exact absurd rfl more
  | cons w ws =>
    have letter : CharClass.name.has w = true := inside w (by simp)
    have noBrace : w ≠ '\x7b' := by
      rintro rfl
      exact absurd letter (by decide)
    simp only [nameTurn, Scan.bind_of_ok (Scan.peek_of_ahead h), List.cons_append, List.head?_cons,
      Option.some.injEq, noBrace, imp_self, CharClass.hasOpt_some, letter, if_true, Scan.bind_of_ok (Scan.here_apply s i), Scan.bind_of_ok taken]
    rfl

theorem nameTurn_brace (parts : List Node) (back : ReadsBack dots t) (deep : (t.render dots).length + 1 < depth)
    (h : s.ahead i = '\x7b' :: (enclosed (t.render dots) ++ '\x7d' :: rest)) :
    ∃ (position : Position) (n : Node) (j : Nat), nameTurn (nested depth) parts s i = .ok (.again (parts ++ [Node.mk position (.curlyExpr n)])) j ∧
      n.bare = t.bare ∧ s.ahead j = rest := by
  obtain ⟨n, j, read, same, after⟩ :=
    nested_of_opens back (opens_of_enclosed (Source.ahead_of_cons h)) (by decide) deep
  refine ⟨s.position (i + 1), n, j + 1, ?_, same, Source.ahead_of_cons after⟩
  simp only [nameTurn, Scan.bind_of_ok (Scan.peek_of_ahead h), List.head?_cons, Scan.bind_of_ok (Scan.skip_apply 1 s i),
    Scan.bind_of_ok (Scan.here_apply s (i + 1)), Scan.bind_of_ok read,
    Scan.bind_of_ok (Scan.skipWhite_of_solid after rfl), Scan.bind_of_ok (Scan.peek_of_ahead after)]
  rfl

theorem nameTurn_end (parts : List Node) (h : s.ahead i = cs) (stop : CharClass.name.hasOpt cs.head? = false)
    (brace : cs.head? ≠ some '\x7b') : nameTurn expr parts s i = .ok (.done parts) i := by
  simp only [nameTurn, Scan.bind_of_ok (Scan.peek_of_ahead h)]
  simp [stop, Scan.pure_apply]

/-! ### Names without braces -/

theorem name_of_text (expr : Scan Node) (more : ws ≠ []) (head : CharClass.nameStart.hasOpt ws.head? = true)
    (inside : ∀ x ∈ ws, CharClass.name.has x = true) (stop : CharClass.name.hasOpt cs.head? = false)
    (brace : cs.head? ≠ some '\x7b') (h : s.ahead i = ws ++ cs) :
    name expr s i = .ok (.identifier (String.ofList ws) (s.position i)) (i + ws.length) := by
  have after : s.ahead (i + ws.length) = cs := Source.ahead_of_append h
  have turn : nameTurn expr [] s i = _ := nameTurn_text expr [] more inside stop h
  have last : nameTurn expr [.leaf .curlyPart (String.ofList ws) (s.position i)] s _ = _ :=
    nameTurn_end _ after stop brace
  cases ws with
  | nil => exact absurd rfl more
  | cons w ws =>
    have letter : CharClass.nameStart.has w = true := head
    have front : w.toLower ≠ '<' :=
      CharClass.forall_of_table (p := fun c => c.toLower ≠ '<') (by decide) letter
    have whole : s.ahead i = w :: (ws ++ cs) := h
    have solid := Scan.skipWhite_of_solid whole (CharClass.not_white_of_nameStart letter)
    have read : nameParts expr s i =
        .ok [.leaf .curlyPart (String.ofList (w :: ws)) (s.position i)] (i + (w :: ws).length) := by
      rw [nameParts_of_front whole front (Scan.ne_newline_of_has letter)]
      exact Scan.loop_of_again _ turn last
    simp only [name, Scan.bind_of_ok solid, Scan.bind_of_ok (Scan.here_apply s i), Scan.bind_of_ok read]
    rfl

/-! ### Names with braces -/

theorem nameOfParts_of_notLone {parts : List Node} (position : Position)
    (notLone : ∀ part, parts = [part] → part.isCurlyPart = false) :
    nameOfParts position parts = .mk position (.curlyName parts) := by
  unfold nameOfParts
  split
  · rename_i text
    exact absurd (notLone _ rfl) (by simp [isCurlyPart, Node.type, Kind.nodeType])
  · rfl

theorem isCurlyPart_of_bare {a b : Node} (same : a.bare = b.bare) : a.isCurlyPart = b.isCurlyPart := by
  simp [isCurlyPart, type_of_bare same]

/-- No written part follows another, so each ends where its text does. -/
theorem curly_rounds (parts : List Node)
    (each : ∀ part ∈ parts,
      (∃ text position, part = .leaf .curlyPart text position ∧ text.toList ≠ [] ∧
        ∀ c ∈ text.toList, CharClass.name.has c = true) ∨
      ∃ position value, part = .mk position (.curlyExpr value))
    (apart : parts.IsChain fun a b => a.isCurlyPart = false ∨ b.isCurlyPart = false)
    (back : ∀ position value, .mk position (.curlyExpr value) ∈ parts →
      ReadsBack dots value ∧ (value.render dots).length + 1 < depth)
    (stop : CharClass.name.has c = false) (brace : c ≠ '\x7b') (acc : List Node)
    (h : s.ahead i = (parts.map (render dots)).flatten ++ c :: cs) :
    ∃ found j, Scan.Rounds (nameTurn (nested depth)) s acc i (acc ++ found) j ∧
      found.map bare = parts.map bare ∧ s.ahead j = c :: cs := by
  induction parts generalizing i acc with
  | nil =>
    refine ⟨[], i, .last ?_, rfl, h⟩
    rw [List.append_nil]
    exact nameTurn_end acc h stop (by simpa using brace)
  | cons part parts ih =>
    have others (k : Nat) := ih (i := k) (fun other place => each other (by simp [place])) apart.of_cons
      fun position value place => back position value (by simp [place])
    have whole : s.ahead i = part.render dots ++ ((parts.map (render dots)).flatten ++ c :: cs) := by simpa using h
    rcases each part (by simp) with ⟨text, position, rfl, more, inside⟩ | ⟨position, value, rfl⟩
    · have next : CharClass.name.hasOpt ((parts.map (render dots)).flatten ++ c :: cs).head? = false := by
        cases parts with
        | nil => exact stop
        | cons following parts =>
          have noPart : following.isCurlyPart = false := by
            rcases apart.rel with lone | noPart
            · exact absurd lone (by simp [isCurlyPart, Node.leaf, Node.type, Kind.nodeType])
            · exact noPart
          rcases each following (by simp) with ⟨text', position', rfl, -, -⟩ | ⟨position', value', rfl⟩
          · exact absurd noPart (by simp [isCurlyPart, Node.leaf, Node.type, Kind.nodeType])
          · rw [List.map_cons, render_mk]
            rfl
      have turn := nameTurn_text (nested depth) acc more inside next (by simpa using whole)
      have after : s.ahead (i + text.toList.length) = (parts.map (render dots)).flatten ++ c :: cs :=
        Source.ahead_of_append (by simpa using whole)
      obtain ⟨found, j, rounds, same, last⟩ := others _ (acc ++ [Node.leaf .curlyPart text (s.position i)]) after
      have on := Source.lt_of_ahead text.toList (by simpa using whole) after more (by simp)
      refine ⟨.leaf .curlyPart text (s.position i) :: found, j, ?_, by simp [same], last⟩
      rw [String.ofList_toList] at turn
      exact .turn turn on.1 on.2 (by simpa using rounds)
    · obtain ⟨known, deep⟩ := back position value (by simp)
      have text : s.ahead i = '\x7b' :: (enclosed (value.render dots) ++
          '\x7d' :: ((parts.map (render dots)).flatten ++ c :: cs)) := by
        simpa [render_mk, Kind.map, renderKind] using whole
      obtain ⟨position', n, k, turn, same, after⟩ := nameTurn_brace acc known deep text
      obtain ⟨found, j, rounds, same', last⟩ := others _ (acc ++ [Node.mk position' (.curlyExpr n)]) after
      have on : i < k ∧ k ≤ s.size :=
        Source.lt_of_ahead _ whole after (by simp [render_mk, Kind.map, renderKind]) (by simp)
      refine ⟨.mk position' (.curlyExpr n) :: found, j, ?_, by simp [same, same', Kind.map], last⟩
      exact .turn turn on.1 on.2 (by simpa using rounds)

/-- The first character of a name with braces. -/
theorem front_of_curly (dots : Dots) {parts : List Node} (shape : CurlyParts parts) (tail : List Char) :
    ∃ w ws, (parts.map (render dots)).flatten ++ tail = w :: ws ∧
      (CharClass.nameStart.has w = true ∨ w = '\x7b') := by
  obtain ⟨part, parts, rfl⟩ := List.exists_cons_of_ne_nil shape.some
  rcases shape.each part (by simp) with ⟨text, position, rfl, more, -⟩ | ⟨position, value, rfl⟩
  · obtain ⟨text', found, letter⟩ :=
      shape.start _ rfl (by simp [isCurlyPart, Node.leaf, Node.type, Kind.nodeType])
    obtain rfl : text = text' := by simpa [Node.leaf, leafText?, Kind.leafText?] using found
    obtain ⟨w, ws, front⟩ := List.exists_cons_of_ne_nil more
    refine ⟨w, ws ++ ((parts.map (render dots)).flatten ++ tail), by simp [front], .inl ?_⟩
    simpa [front] using letter
  · exact ⟨'\x7b', _, by rw [List.map_cons, render_mk]; rfl, .inr rfl⟩

theorem name_of_curly {parts : List Node} (shape : CurlyParts parts)
    (back : ∀ position value, .mk position (.curlyExpr value) ∈ parts →
      ReadsBack dots value ∧ (value.render dots).length + 1 < depth)
    (stop : CharClass.name.has c = false) (brace : c ≠ '\x7b')
    (h : s.ahead i = (parts.map (render dots)).flatten ++ c :: cs) :
    (Node.mk .unset (.curlyName parts)).ReadBy (name (nested depth)) s i (c :: cs) := by
  obtain ⟨w, ws, front, letter⟩ := front_of_curly dots shape (c :: cs)
  have whole : s.ahead i = w :: ws := h.trans front
  obtain ⟨solid, lower, line⟩ : CharClass.white.has w = false ∧ w.toLower ≠ '<' ∧ w ≠ '\n' := by
    rcases letter with letter | rfl
    · refine ⟨CharClass.not_white_of_nameStart letter, ?_, Scan.ne_newline_of_has letter⟩
      exact CharClass.forall_of_table (p := fun c => c.toLower ≠ '<') (by decide) letter
    · decide
  obtain ⟨found, j, rounds, same, after⟩ := curly_rounds parts shape.each shape.apart back stop brace [] h
  have read : nameParts (nested depth) s i = .ok found j := by
    rw [nameParts_of_front whole lower line]
    exact rounds.loop
  have notLone : ∀ part, found = [part] → part.isCurlyPart = false := by
    rintro part rfl
    obtain ⟨first, single⟩ : ∃ first, parts = [first] := List.length_eq_one_iff.mp (by
      simpa using (congrArg List.length same).symm)
    subst single
    have bares : part.bare = first.bare := by simpa using same
    rw [isCurlyPart_of_bare bares]
    exact shape.notLone first rfl
  refine ⟨.mk (s.position i) (.curlyName found), j, ?_, by simp [Kind.map, same], after⟩
  simp only [name, Scan.bind_of_ok (Scan.skipWhite_of_solid whole solid), Scan.bind_of_ok (Scan.here_apply s i),
    Scan.bind_of_ok read, ← nameOfParts_of_notLone (s.position i) notLone]
  rfl

end VimScript.Expr
