import Mathlib.Data.List.Chain
import VimScript.Script

/-!
Line breaks. The lines of a text may end with a newline, a carriage return or both, every line in its own way, and a byte
order mark may stand before them: the buffer is that of the lines. Only an empty line between a carriage return and a
newline is lost, because the two are one break.
-/

set_option autoImplicit false

namespace VimScript

inductive LineBreak where
  | newline
  | carriageReturn
  | both
deriving DecidableEq, Repr

def LineBreak.chars : LineBreak → List Char
  | .newline => ['\n']
  | .carriageReturn => ['\r']
  | .both => ['\r', '\n']

/-- Lines, with a break before each of them but the first. -/
structure BrokenText where
  first : String
  rest : List (LineBreak × String)

namespace BrokenText

def lines (t : BrokenText) : List String :=
  t.first :: t.rest.map Prod.snd

def chars (t : BrokenText) : List Char :=
  t.first.toList ++ t.rest.flatMap fun line => line.1.chars ++ line.2.toList

def text (mark : Bool) (t : BrokenText) : String :=
  .ofList (if mark then '\ufeff' :: t.chars else t.chars)

/-- No two breaks can be taken for one, and nothing of a line for a break or a byte order mark. -/
structure Clear (t : BrokenText) : Prop where
  plain : ∀ l ∈ t.lines, '\r' ∉ l.toList ∧ '\n' ∉ l.toList
  unmarked : t.first.toList.head? ≠ some '\ufeff'
  apart : t.rest.IsChain fun line next => ¬(line = (.carriageReturn, "") ∧ next.1 = .newline)

end BrokenText

namespace Source

variable {xs cs : List Char} {rest : List (LineBreak × String)}

/-! ### Breaks as newlines -/

theorem unifyBreaks_append (plain : '\r' ∉ xs) (cs : List Char) : unifyBreaks (xs ++ cs) = xs ++ unifyBreaks cs := by
  induction xs with
  | nil => rfl
  | cons x xs ih =>
    rw [List.mem_cons, not_or] at plain
    have other : x ≠ '\r' := Ne.symm plain.1
    rw [List.cons_append, unifyBreaks.eq_4 _ _ (fun _ same => absurd same other) other, ih plain.2, List.cons_append]

/-- A carriage return is a break of its own unless a newline follows it. -/
theorem unifyBreaks_carriageReturn (alone : cs.head? ≠ some '\n') : unifyBreaks ('\r' :: cs) = '\n' :: unifyBreaks cs :=
  unifyBreaks.eq_3 _ fun _ same => alone (by rw [same, List.head?_cons])

/-- A line and the breaks behind it do not start with a newline, unless it is empty and the next break is one. -/
theorem head?_ne_newline {l : String} (plain : '\n' ∉ l.toList)
    (apart : l = "" → ∀ next ∈ rest.head?, next.1 ≠ .newline) :
    (l.toList ++ rest.flatMap fun line => line.1.chars ++ line.2.toList).head? ≠ some '\n' := by
  cases front : l.toList with
  | cons c cs =>
    have other : '\n' ≠ c := fun same => plain (by rw [front, ← same]; exact List.mem_cons_self)
    simpa using Ne.symm other
  | nil =>
    have next := apart (String.toList_eq_nil_iff.mp front)
    cases rest with
    | nil => simp
    | cons line rest =>
      obtain ⟨b, text⟩ := line
      have other := next (b, text) rfl
      cases b <;> simp_all [LineBreak.chars]

theorem unifyBreaks_rest (plain : ∀ line ∈ rest, '\r' ∉ line.2.toList ∧ '\n' ∉ line.2.toList)
    (apart : rest.IsChain fun line next => ¬(line = (.carriageReturn, "") ∧ next.1 = .newline)) :
    unifyBreaks (rest.flatMap fun line => line.1.chars ++ line.2.toList) =
      rest.flatMap fun line => '\n' :: line.2.toList := by
  induction rest with
  | nil => rfl
  | cons line rest ih =>
    obtain ⟨b, l⟩ := line
    obtain ⟨noReturn, noNewline⟩ := plain (b, l) (by simp)
    obtain ⟨next, later⟩ := List.isChain_cons.mp apart
    have others := ih (fun line place => plain line (List.mem_cons_of_mem _ place)) later
    rw [List.flatMap_cons, List.flatMap_cons, List.append_assoc]
    -- Only behind a carriage return it matters what the line starts with.
    have behind := unifyBreaks_append noReturn (rest.flatMap fun line => line.1.chars ++ line.2.toList)
    rw [others] at behind
    cases b with
    | newline =>
      have start : '\r' ∉ ['\n'] := by decide
      exact (unifyBreaks_append start _).trans (congrArg ('\n' :: ·) behind)
    | both => exact congrArg ('\n' :: ·) behind
    | carriageReturn =>
      have alone : (l.toList ++ rest.flatMap fun line => line.1.chars ++ line.2.toList).head? ≠ some '\n' :=
        head?_ne_newline noNewline fun empty line first same => next line first ⟨congrArg (Prod.mk _) empty, same⟩
      exact (unifyBreaks_carriageReturn alone).trans (congrArg ('\n' :: ·) behind)

/-! ### Lines -/

theorem splitOn_lines (plain : '\n' ∉ xs) (others : ∀ line ∈ rest, '\n' ∉ line.2.toList) :
    (xs ++ rest.flatMap fun line => '\n' :: line.2.toList).splitOn '\n' = xs :: rest.map fun line => line.2.toList := by
  have alone {ys : List Char} (plain : '\n' ∉ ys) : ys.splitOn '\n' = [ys] := by
    rw [List.splitOn_eq_splitOnP]
    refine List.splitOnP_eq_singleton fun c place => ?_
    simpa using ne_of_mem_of_not_mem place plain
  induction rest generalizing xs with
  | nil => simpa using alone plain
  | cons line rest ih =>
    have first := others line (by simp)
    have later := ih first fun line place => others line (List.mem_cons_of_mem _ place)
    rw [List.flatMap_cons, List.cons_append, List.splitOn_append_cons_self, alone plain, later]
    rfl

theorem dropByteOrderMark_of_head (unmarked : xs.head? ≠ some '\ufeff') : dropByteOrderMark xs = xs := by
  cases xs with
  | nil => rfl
  | cons c cs =>
    unfold dropByteOrderMark
    split
    · simp_all
    · rfl

end Source

namespace BrokenText

open Source

variable {t : BrokenText}

theorem Clear.splitOn (clear : t.Clear) : (unifyBreaks t.chars).splitOn '\n' = t.lines.map String.toList := by
  have first := clear.plain t.first (by simp [lines])
  have others : ∀ line ∈ t.rest, '\r' ∉ line.2.toList ∧ '\n' ∉ line.2.toList := fun line place =>
    clear.plain line.2 (List.mem_cons_of_mem _ (List.mem_map_of_mem place))
  rw [chars, unifyBreaks_append first.1, unifyBreaks_rest others clear.apart,
    splitOn_lines first.2 fun line place => (others line place).2]
  simp [lines]

theorem Clear.dropByteOrderMark (clear : t.Clear) : Source.dropByteOrderMark t.chars = t.chars := by
  refine dropByteOrderMark_of_head fun marked => ?_
  have unmarked := clear.unmarked
  cases front : t.first.toList with
  | cons c cs =>
    rw [front] at unmarked
    rw [chars, front] at marked
    exact unmarked marked
  | nil =>
    -- A text that starts with an empty line starts with a break.
    rw [chars, front] at marked
    cases rest : t.rest with
    | nil => simp [rest] at marked
    | cons line rest =>
      obtain ⟨b, l⟩ := line
      cases b <;> simp_all [LineBreak.chars]

/-- A text is read as its lines are, whatever breaks are between them and whether a byte order mark is before them. -/
theorem ofText_eq_ofLines (clear : t.Clear) (mark : Bool) :
    Source.ofText (t.text mark) = Source.ofLines t.lines ∧
      ∀ neovim, Script.ofText neovim (t.text mark) = Script.ofLines neovim t.lines := by
  have unmarked : Source.dropByteOrderMark (t.text mark).toList = t.chars := by
    rw [text, String.toList_ofList]
    cases mark with
    | true => rfl
    | false => exact clear.dropByteOrderMark
  have buffer : Source.ofText (t.text mark) = Source.ofLines t.lines := by
    rw [Source.ofText, unmarked, clear.splitOn, Source.ofLines]
  exact ⟨buffer, fun neovim => congrArg (Script.read neovim) buffer⟩

/-- Empty lines between a carriage return and both, and between both and a newline, and a line that continues another. -/
theorem ofText_eq_ofLines_mixed :
    let t : BrokenText := ⟨"let é = [", [(.carriageReturn, "\\ 1]"), (.carriageReturn, ""), (.both, ""), (.newline, "")]⟩
    t.Clear ∧ t.text true = "\ufefflet é = [\r\\ 1]\r\r\n\n" ∧
      Source.ofText (t.text true) = Source.ofLines ["let é = [", "\\ 1]", "", "", ""] ∧
      ∀ neovim, Script.ofText neovim (t.text true) = Script.ofLines neovim ["let é = [", "\\ 1]", "", "", ""] := by
  intro t
  have clear : t.Clear := ⟨by decide, by decide, by decide⟩
  exact ⟨clear, by decide, ofText_eq_ofLines clear true⟩

end BrokenText

end VimScript
