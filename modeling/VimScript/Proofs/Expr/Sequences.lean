import VimScript.Proofs.Expr.Enclosed

/-!
Reading sequences with commas between their items: arguments, list items and entries of dictionaries.
-/

set_option autoImplicit false

namespace VimScript

namespace Expr

open Node

variable {s : Source} {i : Nat} {rest : List Char}

/-- A blank or nothing, which is what may stand before an item. -/
def IsGap (pad : List Char) : Prop :=
  pad = [] ∨ pad = [' ']

section Rounds

variable {β γ δ ι : Type} (turn : List β → Scan (Scan.Turn (List β) γ)) (text : ι → List Char) (close : Char)
  (f : β → δ) (g : ι → δ) (Result : List β → γ → Prop)

/-- A loop goes through all items if it goes on after each comma and stops at the closing character. -/
theorem rounds_of_listed (items : List ι) (some : items ≠ [])
    (again : ∀ item ∈ items, ∀ {acc : List β} {i : Nat} {pad more : List Char}, IsGap pad →
      s.ahead i = pad ++ (text item ++ ',' :: ' ' :: '(' :: more) →
        ∃ b k, turn acc s i = .ok (.again (acc ++ [b])) k ∧ f b = g item ∧ s.ahead k = ' ' :: '(' :: more)
    (last : ∀ item ∈ items, ∀ {acc : List β} {i : Nat} {pad : List Char}, IsGap pad →
      s.ahead i = pad ++ (text item ++ close :: rest) →
        ∃ b result k, turn acc s i = .ok (.done result) k ∧ f b = g item ∧ Result (acc ++ [b]) result ∧
          s.ahead k = rest)
    (opens : ∀ item ∈ items, ∃ cs, text item = '(' :: cs) (acc : List β) {i : Nat} {pad : List Char}
    (gap : IsGap pad) (h : s.ahead i = pad ++ (listed (items.map text) ++ close :: rest)) :
    ∃ found result k, Scan.Rounds turn s acc i result k ∧ found.map f = items.map g ∧ Result (acc ++ found) result ∧
      s.ahead k = rest := by
  induction items generalizing acc i pad with
  | nil => exact absurd rfl some
  | cons item items ih =>
    cases items with
    | nil =>
      obtain ⟨b, result, k, read, same, built, after⟩ := last item (by simp) gap (by simpa [listed] using h)
      exact ⟨[b], result, k, .last read, by simp [same], built, after⟩
    | cons next items =>
      obtain ⟨cs, front⟩ := opens next (by simp)
      obtain ⟨more, tail⟩ : ∃ more, listed ((next :: items).map text) ++ close :: rest = '(' :: more := by
        cases items <;> simp [listed, front]
      have whole : s.ahead i = pad ++ (text item ++ ',' :: ' ' :: '(' :: more) := by
        rw [h, ← tail]
        simp [listed]
      obtain ⟨b, k, read, same, after⟩ := again item (by simp) gap whole
      obtain ⟨found, result, j, rounds, others, built, after'⟩ :=
        ih (by simp) (fun other place => again other (by simp [place])) (fun other place => last other (by simp [place]))
          (fun other place => opens other (by simp [place])) _ (.inr rfl) (after.trans (by rw [tail]; rfl))
      have on : i < k ∧ k ≤ s.size := by
        have split : s.ahead i = (pad ++ text item ++ [',']) ++ ' ' :: '(' :: more := by simp [whole]
        exact Source.lt_of_ahead (pad ++ text item ++ [',']) split after (by simp) (by simp)
      exact ⟨b :: found, result, j, .turn read on.1 on.2 rounds, by simp [same, others], by simpa using built, after'⟩

end Rounds

variable {dots : Dots} {depth : Nat} {args items : List Node} {cs : List Char}

theorem opens_of_gap {a : Node} {pad : List Char} (gap : IsGap pad)
    (h : s.ahead i = pad ++ (enclosed (a.render dots) ++ rest)) : Opens dots a s i rest := by
  rcases gap with rfl | rfl
  · exact opens_of_enclosed h
  · exact opens_of_blank h

theorem peek_of_stands {kind : TokenKind} (h : Token.Stands s i kind rest) :
    ∃ token, Token.peek s i = .ok token i ∧ token.kind = kind := by
  obtain ⟨token, j, read, same, -⟩ := h
  exact ⟨token, Token.peek_of_next read, same⟩

theorem peek_of_blank_paren (h : s.ahead i = ' ' :: '(' :: cs) :
    ∃ token, Token.peek s i = .ok token i ∧ token.kind = .parenOpen :=
  peek_of_stands (.blank h (.symbol "(" (Source.ahead_of_cons h) rfl rfl))

/-- What is known of the trees in a sequence: each is read back at the depth at hand. -/
def AllReadBack (dots : Dots) (depth : Nat) (ts : List Node) : Prop :=
  ∀ t ∈ ts, ReadsBack dots t ∧ (t.render dots).length + 1 < depth

/-! ### Arguments -/

def argumentTurn (expr : Scan Node) (args : List Node) : Scan (Scan.Turn (List Node) (List Node × Token)) := do
  let arg ← expr
  let args := args ++ [arg]
  let token ← Token.next
  match token.kind with
  | .comma =>
    if (← Token.peek).kind == .parenClose then
      let _ ← Token.next
      return .done (args, token)
    else
      return .again args
  | .parenClose => return .done (args, token)
  | _ => unexpected token

theorem argumentList_eq (expr : Scan Node) :
    argumentList expr = (do
      let first ← Token.peek
      if first.kind == .parenClose then
        let _ ← Token.next
        return ([], first)
      else
        Scan.loop [] (argumentTurn expr)) := rfl

theorem argumentTurn_again {a : Node} (acc : List Node) {more : List Char} (back : ReadsBack dots a)
    (deep : (a.render dots).length + 1 < depth) (opens : Opens dots a s i (',' :: ' ' :: '(' :: more)) :
    ∃ (n : Node) (k : Nat), argumentTurn (nested depth) acc s i = .ok (.again (acc ++ [n])) k ∧ n.bare = a.bare ∧
      s.ahead k = ' ' :: '(' :: more := by
  obtain ⟨n, k, read, same, after⟩ := nested_of_opens back opens (by decide) deep
  have comma : Token.next s k = .ok ⟨.comma, ",", s.position k⟩ (k + 1) := Token.next_of_symbol after rfl
  have after' : s.ahead (k + 1) = ' ' :: '(' :: more := Source.ahead_of_cons after
  obtain ⟨token, peek, kind⟩ := peek_of_blank_paren after'
  refine ⟨n, k + 1, ?_, same, after'⟩
  simp only [argumentTurn, Scan.bind_of_ok read, Scan.bind_of_ok comma, Scan.bind_of_ok peek, kind]
  rfl

theorem argumentTurn_last {a : Node} (acc : List Node) (back : ReadsBack dots a)
    (deep : (a.render dots).length + 1 < depth) (opens : Opens dots a s i (')' :: rest)) :
    ∃ (n : Node) (token : Token) (k : Nat), argumentTurn (nested depth) acc s i = .ok (.done (acc ++ [n], token)) k ∧ n.bare = a.bare ∧
      s.ahead k = rest := by
  obtain ⟨n, k, read, same, after⟩ := nested_of_opens back opens (by decide) deep
  have close : Token.next s k = .ok ⟨.parenClose, ")", s.position k⟩ (k + 1) := Token.next_of_symbol after rfl
  refine ⟨n, ⟨.parenClose, ")", s.position k⟩, k + 1, ?_, same, Source.ahead_of_cons after⟩
  simp only [argumentTurn, Scan.bind_of_ok read, Scan.bind_of_ok close]
  rfl

theorem argumentList_of_listed (back : AllReadBack dots depth args)
    (h : s.ahead i = listed (args.map fun a => enclosed (a.render dots)) ++ ')' :: rest) :
    ∃ found token j, argumentList (nested depth) s i = .ok (found, token) j ∧
      found.map bare = args.map bare ∧ s.ahead j = rest := by
  by_cases none : args = []
  · subst none
    have close : Token.next s i = .ok ⟨.parenClose, ")", s.position i⟩ (i + 1) := Token.next_of_symbol h rfl
    refine ⟨[], ⟨.parenClose, ")", s.position i⟩, i + 1, ?_, rfl, Source.ahead_of_cons h⟩
    simp only [argumentList_eq, Scan.bind_of_ok (Token.peek_of_next close), beq_self_eq_true, if_true,
      Scan.bind_of_ok close]
    rfl
  · obtain ⟨found, ⟨all, token⟩, j, rounds, same, whole, after⟩ :=
      rounds_of_listed (argumentTurn (nested depth)) (fun a : Node => enclosed (a.render dots)) ')' bare bare
        (fun acc result => result.1 = acc) args none
        (fun a place acc _ _ _ gap ahead =>
          argumentTurn_again acc (back a place).1 (back a place).2 (opens_of_gap gap ahead))
        (fun a place acc _ _ gap ahead => by
          obtain ⟨n, token, k, read, same, after⟩ :=
            argumentTurn_last acc (back a place).1 (back a place).2 (opens_of_gap gap ahead)
          exact ⟨n, (acc ++ [n], token), k, read, same, rfl, after⟩)
        (fun a place => ⟨_, rfl⟩) [] (.inl rfl) h
    obtain ⟨a, args, rfl⟩ := List.exists_cons_of_ne_nil none
    have front : ∃ cs, s.ahead i = '(' :: cs := by
      cases args <;> exact ⟨_, h⟩
    obtain ⟨cs, front⟩ := front
    obtain ⟨first, peek, kind⟩ := peek_of_stands (.symbol "(" front rfl rfl)
    obtain rfl : all = found := whole
    refine ⟨all, token, j, ?_, same, after⟩
    simp only [argumentList_eq, Scan.bind_of_ok peek, kind]
    exact rounds.loop

theorem arguments_of_listed (all : AllReadBack dots depth args) (few : args.length ≤ maxArguments)
    (h : s.ahead i = listed (args.map fun a => enclosed (a.render dots)) ++ ')' :: rest) :
    ∃ found j, arguments (nested depth) s i = .ok found j ∧ found.map bare = args.map bare ∧ s.ahead j = rest := by
  obtain ⟨found, token, j, read, same, after⟩ := argumentList_of_listed all h
  have length : found.length = args.length := by simpa using congrArg List.length same
  have within : ¬ found.length > maxArguments := by omega
  refine ⟨found, j, ?_, same, after⟩
  simp only [arguments, Scan.bind_of_ok read, within]
  rfl

/-! ### Lists -/

def listTurn (expr : Scan Node) (position : Position) (items : List Node) :
    Scan (Scan.Turn (List Node) Node) := do
  let item ← expr
  let items := items ++ [item]
  let token ← Token.peek
  match token.kind with
  | .comma =>
    let _ ← Token.next
    if (← Token.peek).kind == .bracketClose then
      let _ ← Token.next
      return .done (.mk position (.list items))
    else
      return .again items
  | .bracketClose =>
    let _ ← Token.next
    return .done (.mk position (.list items))
  | _ => unexpected token

theorem list_eq (expr : Scan Node) (position : Position) :
    list expr position = (do
      if (← Token.peek).kind == .bracketClose then
        let _ ← Token.next
        return .mk position (.list [])
      else
        Scan.loop [] (listTurn expr position)) := rfl

theorem listTurn_again {a : Node} (position : Position) (acc : List Node) {more : List Char}
    (back : ReadsBack dots a) (deep : (a.render dots).length + 1 < depth)
    (opens : Opens dots a s i (',' :: ' ' :: '(' :: more)) :
    ∃ (n : Node) (k : Nat), listTurn (nested depth) position acc s i = .ok (.again (acc ++ [n])) k ∧ n.bare = a.bare ∧
      s.ahead k = ' ' :: '(' :: more := by
  obtain ⟨n, k, read, same, after⟩ := nested_of_opens back opens (by decide) deep
  have comma : Token.next s k = .ok ⟨.comma, ",", s.position k⟩ (k + 1) := Token.next_of_symbol after rfl
  have after' : s.ahead (k + 1) = ' ' :: '(' :: more := Source.ahead_of_cons after
  obtain ⟨token, peek, kind⟩ := peek_of_blank_paren after'
  refine ⟨n, k + 1, ?_, same, after'⟩
  simp only [listTurn, Scan.bind_of_ok read, Scan.bind_of_ok (Token.peek_of_next comma), Scan.bind_of_ok comma,
    Scan.bind_of_ok peek, kind]
  rfl

theorem listTurn_last {a : Node} (position : Position) (acc : List Node) (back : ReadsBack dots a)
    (deep : (a.render dots).length + 1 < depth) (opens : Opens dots a s i (']' :: rest)) :
    ∃ (n : Node) (k : Nat), listTurn (nested depth) position acc s i = .ok (.done (.mk position (.list (acc ++ [n])))) k ∧
      n.bare = a.bare ∧ s.ahead k = rest := by
  obtain ⟨n, k, read, same, after⟩ := nested_of_opens back opens (by decide) deep
  have close : Token.next s k = .ok ⟨.bracketClose, "]", s.position k⟩ (k + 1) := Token.next_of_symbol after rfl
  refine ⟨n, k + 1, ?_, same, Source.ahead_of_cons after⟩
  simp only [listTurn, Scan.bind_of_ok read, Scan.bind_of_ok (Token.peek_of_next close), Scan.bind_of_ok close]
  rfl

theorem list_of_listed (position : Position) (back : AllReadBack dots depth items)
    (h : s.ahead i = listed (items.map fun a => enclosed (a.render dots)) ++ ']' :: rest) :
    ∃ found j, list (nested depth) position s i = .ok (.mk position (.list found)) j ∧
      found.map bare = items.map bare ∧ s.ahead j = rest := by
  by_cases none : items = []
  · subst none
    have close : Token.next s i = .ok ⟨.bracketClose, "]", s.position i⟩ (i + 1) := Token.next_of_symbol h rfl
    refine ⟨[], i + 1, ?_, rfl, Source.ahead_of_cons h⟩
    simp only [list_eq, Scan.bind_of_ok (Token.peek_of_next close), beq_self_eq_true, if_true, Scan.bind_of_ok close]
    rfl
  · obtain ⟨found, result, j, rounds, same, whole, after⟩ :=
      rounds_of_listed (listTurn (nested depth) position) (fun a : Node => enclosed (a.render dots)) ']' bare bare
        (fun acc result => result = .mk position (.list acc)) items none
        (fun a place acc _ _ _ gap ahead =>
          listTurn_again position acc (back a place).1 (back a place).2 (opens_of_gap gap ahead))
        (fun a place acc _ _ gap ahead => by
          obtain ⟨n, k, read, same, after⟩ :=
            listTurn_last position acc (back a place).1 (back a place).2 (opens_of_gap gap ahead)
          exact ⟨n, _, k, read, same, rfl, after⟩)
        (fun a place => ⟨_, rfl⟩) [] (.inl rfl) h
    obtain ⟨a, items, rfl⟩ := List.exists_cons_of_ne_nil none
    have front : ∃ cs, s.ahead i = '(' :: cs := by
      cases items <;> exact ⟨_, h⟩
    obtain ⟨cs, front⟩ := front
    obtain ⟨first, peek, kind⟩ := peek_of_stands (.symbol "(" front rfl rfl)
    subst whole
    refine ⟨found, j, ?_, same, after⟩
    simp only [list_eq, Scan.bind_of_ok peek, kind]
    exact rounds.loop

/-! ### Dictionaries -/

def dictTurn (expr key : Scan Node) (start : Nat) (position : Position) (entries : List (Node × Node)) :
    Scan (Scan.Turn (List (Node × Node)) Node) := do
  let key ← key
  let colon ← Token.next
  match colon.kind with
  | .braceClose =>
    if entries.isEmpty then
      Scan.seek start
      return .done (← name expr)
    else
      unexpected colon
  | .colon =>
    let value ← expr
    let entries := entries ++ [(key, value)]
    let token ← Token.next
    match token.kind with
    | .comma =>
      if (← Token.peek).kind == .braceClose then
        let _ ← Token.next
        return .done (.mk position (.dict entries))
      else
        return .again entries
    | .braceClose => return .done (.mk position (.dict entries))
    | _ => unexpected token
  | _ => unexpected colon

theorem dict_eq (expr key : Scan Node) (start : Nat) (position : Position) :
    dict expr key start position = (do
      if (← Token.peek).kind == .braceClose then
        let _ ← Token.next
        return .mk position (.dict [])
      else
        Scan.loop [] (dictTurn expr key start position)) := rfl

def entryText (dots : Dots) (entry : Node × Node) : List Char :=
  enclosed (entry.1.render dots) ++ ':' :: ' ' :: enclosed (entry.2.render dots)

def bareEntry (entry : Node × Node) : Node × Node :=
  (entry.1.bare, entry.2.bare)

/-- A key and its value up to what follows the value. -/
theorem entry_of_gap {a b : Node} {pad : List Char} {c : Char} {cs : List Char} (gap : IsGap pad)
    (keyBack : ReadsBack dots a) (keyDeep : (a.render dots).length + 1 < depth) (back : ReadsBack dots b)
    (deep : (b.render dots).length + 1 < depth) (mark : c ∈ endMarks)
    (h : s.ahead i = pad ++ (entryText dots (a, b) ++ c :: cs)) :
    ∃ key j value k, nested depth s i = .ok key j ∧ key.bare = a.bare ∧
      Token.next s j = .ok ⟨.colon, ":", s.position j⟩ (j + 1) ∧ nested depth s (j + 1) = .ok value k ∧
      value.bare = b.bare ∧ s.ahead k = c :: cs := by
  have whole : s.ahead i = pad ++ (enclosed (a.render dots) ++ ':' :: ' ' :: (enclosed (b.render dots) ++ c :: cs)) := by
    simpa [entryText] using h
  obtain ⟨key, j, read, same, after⟩ := nested_of_opens keyBack (opens_of_gap gap whole) (by decide) keyDeep
  have colon : Token.next s j = .ok ⟨.colon, ":", s.position j⟩ (j + 1) := Token.next_of_symbol after rfl
  obtain ⟨value, k, read', same', after'⟩ :=
    nested_of_opens back (opens_of_blank (Source.ahead_of_cons after)) mark deep
  exact ⟨key, j, value, k, read, same, colon, read', same', after'⟩

theorem dict_of_listed (start : Nat) (position : Position) {entries : List (Node × Node)}
    (keys : AllReadBack dots depth (entries.map Prod.fst)) (values : AllReadBack dots depth (entries.map Prod.snd))
    (h : s.ahead i = listed (entries.map (entryText dots)) ++ '\x7d' :: rest) :
    ∃ found j, dict (nested depth) (nested depth) start position s i = .ok (.mk position (.dict found)) j ∧
      found.map bareEntry = entries.map bareEntry ∧ s.ahead j = rest := by
  by_cases none : entries = []
  · subst none
    have close : Token.next s i = .ok ⟨.braceClose, "\x7d", s.position i⟩ (i + 1) := Token.next_of_symbol h rfl
    refine ⟨[], i + 1, ?_, rfl, Source.ahead_of_cons h⟩
    simp only [dict_eq, Scan.bind_of_ok (Token.peek_of_next close), beq_self_eq_true, if_true, Scan.bind_of_ok close]
    rfl
  · have known (entry : Node × Node) (place : entry ∈ entries) :
        (ReadsBack dots entry.1 ∧ (entry.1.render dots).length + 1 < depth) ∧
          ReadsBack dots entry.2 ∧ (entry.2.render dots).length + 1 < depth :=
      ⟨keys _ (List.mem_map_of_mem place), values _ (List.mem_map_of_mem place)⟩
    obtain ⟨found, result, j, rounds, same, whole, after⟩ :=
      rounds_of_listed (dictTurn (nested depth) (nested depth) start position) (entryText dots) '\x7d' bareEntry
        bareEntry (fun acc result => result = .mk position (.dict acc)) entries none
        (fun entry place acc i pad more gap ahead => by
          obtain ⟨⟨keyBack, keyDeep⟩, back, deep⟩ := known entry place
          obtain ⟨key, j, value, k, read, same, colon, read', same', after⟩ :=
            entry_of_gap gap keyBack keyDeep back deep (by decide) ahead
          have comma : Token.next s k = .ok ⟨.comma, ",", s.position k⟩ (k + 1) := Token.next_of_symbol after rfl
          have after' : s.ahead (k + 1) = ' ' :: '(' :: more := Source.ahead_of_cons after
          obtain ⟨token, peek, kind⟩ := peek_of_blank_paren after'
          refine ⟨(key, value), k + 1, ?_, by simp [bareEntry, same, same'], after'⟩
          simp only [dictTurn, Scan.bind_of_ok read, Scan.bind_of_ok colon, Scan.bind_of_ok read',
            Scan.bind_of_ok comma, Scan.bind_of_ok peek, kind]
          rfl)
        (fun entry place acc i pad gap ahead => by
          obtain ⟨⟨keyBack, keyDeep⟩, back, deep⟩ := known entry place
          obtain ⟨key, j, value, k, read, same, colon, read', same', after⟩ :=
            entry_of_gap gap keyBack keyDeep back deep (by decide) ahead
          have close : Token.next s k = .ok ⟨.braceClose, "\x7d", s.position k⟩ (k + 1) :=
            Token.next_of_symbol after rfl
          refine ⟨(key, value), _, k + 1, ?_, by simp [bareEntry, same, same'], rfl, Source.ahead_of_cons after⟩
          simp only [dictTurn, Scan.bind_of_ok read, Scan.bind_of_ok colon, Scan.bind_of_ok read',
            Scan.bind_of_ok close]
          rfl)
        (fun entry place => ⟨_, rfl⟩) [] (.inl rfl) h
    obtain ⟨entry, entries, rfl⟩ := List.exists_cons_of_ne_nil none
    have front : ∃ cs, s.ahead i = '(' :: cs := by
      cases entries <;> exact ⟨_, h⟩
    obtain ⟨cs, front⟩ := front
    obtain ⟨first, peek, kind⟩ := peek_of_stands (.symbol "(" front rfl rfl)
    subst whole
    refine ⟨found, j, ?_, same, after⟩
    simp only [dict_eq, Scan.bind_of_ok peek, kind]
    exact rounds.loop

end Expr

end VimScript
