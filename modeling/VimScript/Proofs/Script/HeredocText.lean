import Mathlib.Data.List.Chain
import VimScript.Proofs.Script.Heredoc
import VimScript.Proofs.Script.Initials
import VimScript.Proofs.Script.WellFormed

/-!
The texts of heredocs on one line. The options and the marker are words, so they can be told from the text. A line may
hold the quote that ends it, a blank and a quote, and is then written like two lines; and a tab like a backslash with a
letter. Lines without these are told from the text as well.
-/

set_option autoImplicit false

namespace VimScript

namespace Fingerprint

/-- A character of a heredoc as it is written between quotes. -/
def spelled : Char → List Char
  | '\n' => ['\\', 'n']
  | '\t' => ['\\', 't']
  | '\r' => ['\\', 'r']
  | c => [c]

/-- The texts of a list after its first word, with the parenthesis that closes it. -/
def entriesText : List String → List Char
  | [] => [')']
  | item :: items => ' ' :: '"' :: item.toList.flatMap spelled ++ '"' :: entriesText items

theorem toList_quoteString (item : String) :
    (quoteString item).toList = '"' :: item.toList.flatMap spelled ++ ['"'] := by
  rw [quoteString, String.toList_ofList]
  rfl

theorem entriesText_cons (item : String) (items : List String) :
    entriesText (item :: items) =
      ' ' :: [' '].intercalate ((item :: items).map fun item => (quoteString item).toList) ++ [')'] := by
  induction items generalizing item with
  | nil => simp [entriesText, toList_quoteString]
  | cons next items ih =>
    rw [entriesText, ih next]
    simp only [List.map_cons, List.intercalate_cons_cons, toList_quoteString]
    simp

theorem toList_stringList (items : List String) :
    (stringList items).toList = "(list".toList ++ entriesText items := by
  cases items with
  | nil => rfl
  | cons item items =>
    rw [entriesText_cons]
    simp [stringList, String.toList_intercalate, Function.comp_def]

/-! ### Words -/

theorem spelled_eq_singleton {c : Char} (other : c ≠ '\n' ∧ c ≠ '\t' ∧ c ≠ '\r') : spelled c = [c] := by
  unfold spelled
  split <;> simp_all

theorem flatMap_spelled {cs : List Char} (other : ∀ c ∈ cs, c ≠ '\n' ∧ c ≠ '\t' ∧ c ≠ '\r') :
    cs.flatMap spelled = cs := by
  induction cs with
  | nil => rfl
  | cons c cs ih =>
    obtain ⟨first, rest⟩ := List.forall_mem_cons.mp other
    rw [List.flatMap_cons, spelled_eq_singleton first, ih rest, List.singleton_append]

/-- A word holds nothing that is written otherwise, and no quote. -/
theorem plain_of_isHeredocWord {word : String} (h : IsHeredocWord word) :
    ∀ c ∈ word.toList, (c ≠ '\n' ∧ c ≠ '\t' ∧ c ≠ '\r') ∧ c ≠ '"' := by
  intro c place
  have table : ∀ n < 128, CharClass.word.has (Char.ofNat n) = true →
      (Char.ofNat n ≠ '\n' ∧ Char.ofNat n ≠ '\t' ∧ Char.ofNat n ≠ '\r') ∧ Char.ofNat n ≠ '"' := by decide
  exact CharClass.forall_of_table (p := fun c => (c ≠ '\n' ∧ c ≠ '\t' ∧ c ≠ '\r') ∧ c ≠ '"') table (h.chars c place)

/-- What stands before the first quote is told from the text, and so is what stands after it. -/
theorem quoted_unique {xs ys cs ds : List Char} (free : '"' ∉ xs) (free' : '"' ∉ ys)
    (same : xs ++ '"' :: cs = ys ++ '"' :: ds) : xs = ys ∧ cs = ds := by
  induction xs generalizing ys with
  | nil =>
    cases ys with
    | nil => exact ⟨rfl, by simpa using same⟩
    | cons y ys => exact absurd (List.cons.inj same).1 (List.ne_of_not_mem_cons free')
  | cons x xs ih =>
    cases ys with
    | nil => exact absurd (List.cons.inj same).1 (List.ne_of_not_mem_cons free).symm
    | cons y ys =>
      obtain ⟨rfl, behind⟩ := List.cons.inj same
      obtain ⟨rfl, tails⟩ := ih (List.not_mem_of_not_mem_cons free) (List.not_mem_of_not_mem_cons free') behind
      exact ⟨rfl, tails⟩

theorem word_unique {word word' : String} {cs ds : List Char} (h : IsHeredocWord word) (h' : IsHeredocWord word')
    (same : word.toList.flatMap spelled ++ '"' :: cs = word'.toList.flatMap spelled ++ '"' :: ds) :
    word = word' ∧ cs = ds := by
  have plain := plain_of_isHeredocWord h
  have plain' := plain_of_isHeredocWord h'
  rw [flatMap_spelled fun c place => (plain c place).1, flatMap_spelled fun c place => (plain' c place).1] at same
  obtain ⟨words, rest⟩ := quoted_unique (fun place => (plain _ place).2 rfl) (fun place => (plain' _ place).2 rfl) same
  exact ⟨String.toList_inj.mp words, rest⟩

/-- A list of words is told from the text, whatever comes after it. -/
theorem words_unique {words words' : List String} {cs ds : List Char} (all : ∀ w ∈ words, IsHeredocWord w)
    (all' : ∀ w ∈ words', IsHeredocWord w) (same : entriesText words ++ cs = entriesText words' ++ ds) :
    words = words' ∧ cs = ds := by
  induction words generalizing words' with
  | nil =>
    cases words' with
    | nil => exact ⟨rfl, by simpa [entriesText] using same⟩
    | cons word' words' => simp [entriesText] at same
  | cons word words ih =>
    cases words' with
    | nil => simp [entriesText] at same
    | cons word' words' =>
      obtain ⟨first, rest⟩ := List.forall_mem_cons.mp all
      obtain ⟨first', rest'⟩ := List.forall_mem_cons.mp all'
      simp only [entriesText, List.cons_append, List.append_assoc, List.cons.injEq, true_and] at same
      obtain ⟨rfl, behind⟩ := word_unique first first' same
      obtain ⟨rfl, tails⟩ := ih rest rest' behind
      exact ⟨rfl, tails⟩

/-! ### Lines -/

/-- Two characters that are not taken for the end of a line or for one character. -/
def Apart (a b : Char) : Prop :=
  ¬(a = '"' ∧ b = ' ') ∧ ¬(a = '\\' ∧ (b = 't' ∨ b = 'r'))

/-- A line in which no quote comes before a blank, and no backslash before the letter of an escape. -/
structure IsClearLine (line : List Char) : Prop where
  whole : '\n' ∉ line
  apart : line.IsChain Apart

theorem IsClearLine.tail {c : Char} {cs : List Char} (h : IsClearLine (c :: cs)) : IsClearLine cs where
  whole := List.not_mem_of_not_mem_cons h.whole
  apart := h.apart.tail

/-- What comes after the quote that ends a line. -/
def Follows (cs : List Char) : Prop :=
  cs = [')'] ∨ ∃ rest, cs = ' ' :: '"' :: rest

theorem follows_entriesText (items : List String) : Follows (entriesText items) := by
  cases items with
  | nil => exact .inl rfl
  | cons item items => exact .inr ⟨_, rfl⟩

/-- A character is written as it is, or as a backslash and a letter. -/
theorem spelled_cases {c : Char} (whole : c ≠ '\n') :
    (c = '\t' ∧ spelled c = ['\\', 't']) ∨ (c = '\r' ∧ spelled c = ['\\', 'r']) ∨ spelled c = [c] := by
  by_cases tab : c = '\t'
  · exact .inl ⟨tab, by rw [tab]; rfl⟩
  by_cases back : c = '\r'
  · exact .inr (.inl ⟨back, by rw [back]; rfl⟩)
  · exact .inr (.inr (spelled_eq_singleton ⟨whole, tab, back⟩))

/-- Any other character than a backslash and a quote is that of the line. -/
theorem front_of_spelled {x : Char} {xs cs es : List Char} (whole : '\n' ∉ cs) (other : x ≠ '"' ∧ x ≠ '\\')
    (same : x :: xs = cs.flatMap spelled ++ '"' :: es) : ∃ ds, cs = x :: ds ∧ xs = ds.flatMap spelled ++ '"' :: es := by
  cases cs with
  | nil => exact absurd (List.cons.inj same).1 other.1
  | cons c cs =>
    rw [List.flatMap_cons] at same
    rcases spelled_cases (List.ne_of_not_mem_cons whole).symm with ⟨-, spelled⟩ | ⟨-, spelled⟩ | spelled
    · rw [spelled] at same
      exact absurd (List.cons.inj same).1 other.2
    · rw [spelled] at same
      exact absurd (List.cons.inj same).1 other.2
    · rw [spelled] at same
      obtain ⟨rfl, rest⟩ := List.cons.inj same
      exact ⟨cs, rfl, rest⟩

/-- Where a clear line goes on with a quote, another one cannot have ended. -/
theorem not_ended {c : Char} {cs es fs : List Char} (clear : IsClearLine (c :: cs)) (after : Follows es) :
    '"' :: es ≠ (c :: cs).flatMap spelled ++ '"' :: fs := by
  intro same
  have behind : c = '"' ∧ es = cs.flatMap spelled ++ '"' :: fs := by
    rw [List.flatMap_cons] at same
    rcases spelled_cases (List.ne_of_not_mem_cons clear.whole).symm with ⟨-, spelled⟩ | ⟨-, spelled⟩ | spelled
    · simp [spelled] at same
    · simp [spelled] at same
    · rw [spelled] at same
      obtain ⟨rfl, rest⟩ := List.cons.inj same
      exact ⟨rfl, rest⟩
  obtain ⟨rfl, rest⟩ := behind
  rcases after with rfl | ⟨tail, rfl⟩
  · obtain ⟨ds, -, short⟩ := front_of_spelled clear.tail.whole (by decide) rest
    simp at short
  · obtain ⟨ds, rfl, -⟩ := front_of_spelled clear.tail.whole (by decide) rest
    exact clear.apart.rel.1 ⟨rfl, rfl⟩

/-- A backslash of a clear line is not taken for the start of an escape. -/
theorem not_escaped {x : Char} {cs ds es fs : List Char} (letter : x = 't' ∨ x = 'r') (clear : IsClearLine ('\\' :: ds)) :
    x :: (cs.flatMap spelled ++ '"' :: es) ≠ ds.flatMap spelled ++ '"' :: fs := by
  intro same
  obtain ⟨ds, rfl, -⟩ := front_of_spelled clear.tail.whole (by rcases letter with rfl | rfl <;> decide) same
  exact clear.apart.rel.2 ⟨rfl, letter⟩

theorem line_unique {cs ds es fs : List Char} (clear : IsClearLine cs) (clear' : IsClearLine ds) (after : Follows es)
    (after' : Follows fs) (same : cs.flatMap spelled ++ '"' :: es = ds.flatMap spelled ++ '"' :: fs) :
    cs = ds ∧ es = fs := by
  induction cs generalizing ds with
  | nil =>
    cases ds with
    | nil => exact ⟨rfl, by simpa using same⟩
    | cons d ds => exact absurd same (not_ended clear' after)
  | cons c cs ih =>
    cases ds with
    | nil => exact absurd same.symm (not_ended clear after')
    | cons d ds =>
      have step (one : c = d) (rest : cs.flatMap spelled ++ '"' :: es = ds.flatMap spelled ++ '"' :: fs) :
          c :: cs = d :: ds ∧ es = fs := by
        obtain ⟨rfl, tails⟩ := ih clear.tail clear'.tail rest
        exact ⟨by rw [one], tails⟩
      simp only [List.flatMap_cons, List.append_assoc] at same
      rcases spelled_cases (List.ne_of_not_mem_cons clear.whole).symm with ⟨rfl, left⟩ | ⟨rfl, left⟩ | left <;>
        rcases spelled_cases (List.ne_of_not_mem_cons clear'.whole).symm with ⟨rfl, right⟩ | ⟨rfl, right⟩ | right <;>
        simp only [left, right, List.cons_append, List.nil_append, List.cons.injEq] at same
      · exact step rfl same.2.2
      · exact absurd same.2.1 (by decide)
      · obtain ⟨rfl, rest⟩ := same
        exact absurd rest (not_escaped (.inl rfl) clear')
      · exact absurd same.2.1 (by decide)
      · exact step rfl same.2.2
      · obtain ⟨rfl, rest⟩ := same
        exact absurd rest (not_escaped (.inr rfl) clear')
      · obtain ⟨rfl, rest⟩ := same
        exact absurd rest.symm (not_escaped (.inl rfl) clear)
      · obtain ⟨rfl, rest⟩ := same
        exact absurd rest.symm (not_escaped (.inr rfl) clear)
      · exact step same.1 same.2

/-- Clear lines are told from the text of their list. -/
theorem lines_unique {lines lines' : List String} (clear : ∀ l ∈ lines, IsClearLine l.toList)
    (clear' : ∀ l ∈ lines', IsClearLine l.toList) (same : entriesText lines = entriesText lines') : lines = lines' := by
  induction lines generalizing lines' with
  | nil =>
    cases lines' with
    | nil => rfl
    | cons line' lines' => simp [entriesText] at same
  | cons line lines ih =>
    cases lines' with
    | nil => simp [entriesText] at same
    | cons line' lines' =>
      obtain ⟨first, rest⟩ := List.forall_mem_cons.mp clear
      obtain ⟨first', rest'⟩ := List.forall_mem_cons.mp clear'
      simp only [entriesText, List.cons_append, List.cons.injEq, true_and] at same
      obtain ⟨chars, tails⟩ :=
        line_unique first first' (follows_entriesText lines) (follows_entriesText lines') same
      rw [String.toList_inj.mp chars, ih rest rest' tails]

/-! ### Heredocs -/

theorem inlineText_heredoc (position : Position) (options : List String) (marker : String) (lines : List String) :
    (Node.mk position (.heredoc options marker lines)).inlineText =
      "(heredoc " ++ stringList options ++ " " ++ quoteString marker ++ " " ++ stringList lines ++ ")" := by
  rw [Node.inlineText, ofNode, Node.fold_mk]
  rfl

variable {options options' lines lines' : List String} {marker marker' : String}

/-- The words of the head are told from the text, and the text of the lines. -/
theorem heredoc_unique (words : ∀ o ∈ options, IsHeredocWord o) (word : IsHeredocWord marker)
    (words' : ∀ o ∈ options', IsHeredocWord o) (word' : IsHeredocWord marker')
    (same : "(heredoc " ++ stringList options ++ " " ++ quoteString marker ++ " " ++ stringList lines ++ ")" =
      "(heredoc " ++ stringList options' ++ " " ++ quoteString marker' ++ " " ++ stringList lines' ++ ")") :
    options = options' ∧ marker = marker' ∧ stringList lines = stringList lines' := by
  have chars := congrArg String.toList same
  simp only [String.toList_append, toList_stringList options, toList_stringList options', toList_quoteString,
    List.append_assoc, List.append_cancel_left_eq] at chars
  obtain ⟨rfl, behind⟩ := words_unique words words' chars
  simp only [List.append_cancel_left_eq, List.cons_append, List.cons.injEq, true_and, List.nil_append] at behind
  obtain ⟨rfl, rest⟩ := word_unique word word' behind
  simp only [List.append_cancel_left_eq, List.append_cancel_right_eq, String.toList_inj] at rest
  exact ⟨rfl, rfl, rest⟩

end Fingerprint

namespace Parsed

open Fingerprint

variable {s s' : Source} {root root' n n' : Node} {above above' : List Node} {options options' lines lines' : List String}
  {marker marker' : String}

theorem isHeredoc (parsed : Parsed s root) (place : root.Occurs above n) (type : n.type = .heredoc) : n.IsHeredoc := by
  cases place.stands parsed.stands with
  | statement built outer => exact absurd built.type (by simp [type, NodeType.isExpression])
  | heredoc heredoc outer => exact heredoc
  | expression formed => exact absurd type formed.type.2.2
  | namePart part => exact absurd type (NodeType.isExpression_of_isNamePart part.type).2

/-- Two heredocs that are read have one text where their options, their markers and the texts of their lines are the
same; and if their lines are clear, where the lines are the same. -/
theorem inlineText_heredoc_eq_iff (parsed : Parsed s root) (parsed' : Parsed s' root') (place : root.Occurs above n)
    (place' : root'.Occurs above' n') (heredoc : n.kind = .heredoc options marker lines)
    (heredoc' : n'.kind = .heredoc options' marker' lines') :
    (n.inlineText = n'.inlineText ↔
      options = options' ∧ marker = marker' ∧ stringList lines = stringList lines') ∧
    ((∀ l ∈ lines ++ lines', l.toList.IsChain Apart) →
      (n.inlineText = n'.inlineText ↔ options = options' ∧ marker = marker' ∧ lines = lines')) := by
  obtain ⟨position, _, _, _, rfl, words, word, whole⟩ := parsed.isHeredoc place (congrArg Kind.nodeType heredoc)
  obtain ⟨position', _, _, _, rfl, words', word', whole'⟩ := parsed'.isHeredoc place' (congrArg Kind.nodeType heredoc')
  cases heredoc
  cases heredoc'
  rw [inlineText_heredoc, inlineText_heredoc]
  refine ⟨⟨heredoc_unique words word words' word', ?_⟩, fun clear => ⟨fun same => ?_, ?_⟩⟩
  · rintro ⟨rfl, rfl, same⟩
    rw [same]
  · obtain ⟨rfl, rfl, same⟩ := heredoc_unique words word words' word' same
    obtain ⟨clear, clear'⟩ := List.forall_mem_append.mp clear
    have entries : entriesText lines = entriesText lines' := by
      simpa [toList_stringList] using congrArg String.toList same
    exact ⟨rfl, rfl, lines_unique (fun l place => ⟨whole l place, clear l place⟩)
      (fun l place => ⟨whole' l place, clear' l place⟩) entries⟩
  · rintro ⟨rfl, rfl, rfl⟩
    rfl

/-- A heredoc of a script that has the given words and lines. -/
theorem exists_heredoc (script options : List String) (marker : String) (lines : List String)
    (assigned : (Script.ofLinesByInitial false script).passes (fun root => root.children.any fun n =>
      n.children.any fun c => c.heredoc? == some (options, marker, lines)) = true) :
    ∃ root n above, Parsed (.ofLines script) root ∧ root.Occurs above n ∧ n.kind = .heredoc options marker lines := by
  rw [← Script.ofLines_eq_byInitial] at assigned
  obtain ⟨root, j, ok, found⟩ := Reply.exists_of_passes _ assigned
  simp only [List.any_eq_true, beq_iff_eq] at found
  obtain ⟨n, below, c, inside, heredoc⟩ := found
  exact ⟨root, c, _, ofLines ok, (Node.Occurs.root.child below).child inside, Node.kind_of_heredoc? heredoc⟩

theorem exists_heredoc_of_two : ∃ root n above, Parsed (.ofLines ["let x =<< END", "a", "b", "END"]) root ∧
    root.Occurs above n ∧ n.kind = .heredoc [] "END" ["a", "b"] :=
  exists_heredoc _ [] "END" ["a", "b"] (by decide +kernel)

theorem inlineText_heredoc_ne : ∃ root root' n n' above above',
    Parsed (.ofLines ["let x =<< END", "a", "END"]) root ∧ Parsed (.ofLines ["let x =<< END", "a", "b", "END"]) root' ∧
      root.Occurs above n ∧ root'.Occurs above' n' ∧ n.kind = .heredoc [] "END" ["a"] ∧
        n'.kind = .heredoc [] "END" ["a", "b"] ∧ n.inlineText ≠ n'.inlineText := by
  obtain ⟨root, n, above, parsed, place, heredoc⟩ :=
    exists_heredoc ["let x =<< END", "a", "END"] [] "END" ["a"] (by decide +kernel)
  obtain ⟨root', n', above', parsed', place', heredoc'⟩ := exists_heredoc_of_two
  refine ⟨root, root', n, n', above, above', parsed, parsed', place, place', heredoc, heredoc', fun same => ?_⟩
  have clear : ∀ l ∈ ["a"] ++ ["a", "b"], l.toList.IsChain Apart := by simp
  have lines := ((inlineText_heredoc_eq_iff parsed parsed' place place' heredoc heredoc').2 clear).mp same
  simp at lines

/-- A line with a quote before a blank is written like two lines. -/
theorem not_forall_inlineText_heredoc :
    (¬∀ (s s' : Source) (root root' n n' : Node) (above above' : List Node) (options options' lines lines' : List String)
        (marker marker' : String), Parsed s root → Parsed s' root' → root.Occurs above n → root'.Occurs above' n' →
      n.kind = .heredoc options marker lines → n'.kind = .heredoc options' marker' lines' →
        n.inlineText = n'.inlineText → options = options' ∧ marker = marker' ∧ lines = lines') ∧
      ¬Function.Injective stringList := by
  have same : stringList ["a\" \"b"] = stringList ["a", "b"] := by decide
  constructor
  · intro all
    obtain ⟨root, n, above, parsed, place, heredoc⟩ :=
      exists_heredoc ["let x =<< END", "a\" \"b", "END"] [] "END" ["a\" \"b"] (by decide +kernel)
    obtain ⟨root', n', above', parsed', place', heredoc'⟩ := exists_heredoc_of_two
    have texts : n.inlineText = n'.inlineText := by
      obtain ⟨position, kind⟩ := n
      obtain ⟨position', kind'⟩ := n'
      obtain rfl := heredoc
      obtain rfl := heredoc'
      rw [inlineText_heredoc, inlineText_heredoc, same]
    obtain ⟨-, -, lines⟩ := all _ _ _ _ _ _ _ _ _ _ _ _ _ _ parsed parsed' place place' heredoc heredoc' texts
    simp at lines
  · intro injective
    have lines := injective same
    simp at lines

end Parsed

end VimScript
