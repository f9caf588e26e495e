import VimScript.Proofs.Scan.Gives

/-!
Texts that stand in a buffer at a cursor. Whatever a scan takes from one place stands there, and lines read one after
another stand there with their line ends.
-/

set_option autoImplicit false

namespace VimScript

variable {s : Source} {i j k : Nat} {text line : String} {xs cs : List Char} {lines : List String}

namespace Source

/-- A text is what stands from a cursor on. -/
def Shows (s : Source) (i : Nat) (text : String) : Prop :=
  s.text i (i + text.length) = text

/-- A text is all that is left of the line from a cursor on. -/
structure ShowsLine (s : Source) (i : Nat) (text : String) : Prop where
  shows : s.Shows i text
  line : '\n' ∉ text.toList
  stop : ∀ c ∈ s.char? (i + text.length), c = '\n'

theorem shows_iff : s.Shows i text ↔ text.toList <+: s.ahead i := by
  rw [Shows, Source.text, between_add, ← String.toList_inj, String.toList_ofList, List.prefix_iff_eq_take,
    String.length_toList, eq_comm]

theorem Spans.shows (h : s.Spans i text.toList j) : s.Shows i text := by
  rw [shows_iff, h.ahead]
  exact List.prefix_append ..

theorem Spans.concat {c : Char} (h : s.Spans i xs j) (ahead : s.ahead j = c :: cs) : s.Spans i (xs ++ [c]) (j + 1) :=
  h.append (.of_append ahead)

theorem shows_text (s : Source) (i j : Nat) : s.Shows i (s.text i j) := by
  have inside : s.between i j = (s.ahead i).take (j - i) := by
    simp [between, ahead, List.extract_eq_take_drop]
  rw [shows_iff, Source.text, String.toList_ofList, inside]
  exact List.take_prefix _ _

end Source

namespace Scan

open Source (Spans)

theorem shows_of_takeWhile {p : Char → Bool} (run : takeWhile p s i = .ok text j) : s.Shows i text := by
  obtain ⟨rfl, -⟩ := Reply.ok.inj run
  exact s.shows_text i _

theorem shows_of_takeClass {k : CharClass} (run : takeClass k s i = .ok text j) : s.Shows i text :=
  shows_of_takeWhile run

theorem shows_of_take {n : Nat} (run : take n s i = .ok text j) : s.Shows i text := by
  obtain ⟨rfl, -⟩ := Reply.ok.inj run
  exact s.shows_text i _

/-! ### Lines -/

theorem gives_takeLine (s : Source) (i : Nat) :
    takeLine.Gives s i fun line j => s.Spans i line.toList j ∧ s.ShowsLine i line := by
  refine Gives.mono (x := takeWhile fun _ => true) (gives_takeWhile _ s i) ?_
  rintro _ j ⟨xs, rfl, spans, inside, stop⟩
  have spans' : s.Spans i (String.ofList xs).toList j := by rwa [String.toList_ofList]
  refine ⟨spans', spans'.shows, ?_, ?_⟩
  · rw [String.toList_ofList]
    exact fun place => (inside _ place).1 rfl
  · rw [← String.length_toList, String.toList_ofList, ← spans.cursor, Source.char?_eq]
    exact fun c place => (stop c place).resolve_right (by simp)

/-- The lines read since a cursor, together with the line end before the cursor that was reached; at the end of the
buffer that one may be missing. -/
structure LinesRead (s : Source) (start : Nat) (lines : List String) (i : Nat) : Prop where
  some : lines ≠ []
  shows : s.Shows start ("\n".intercalate lines)
  broken : s.ahead i = [] ∨ s.Spans start (("\n".intercalate lines).toList ++ ['\n']) i

theorem gives_next_of_line (spans : s.Spans i xs j) (stop : ∀ c ∈ s.char? j, c = '\n') :
    next.Gives s j fun _ k => s.ahead k = [] ∨ s.Spans i (xs ++ ['\n']) k := by
  intro c k run
  cases front : s.ahead j with
  | nil =>
    rw [next, Source.char?_eq, front] at run
    obtain ⟨-, rfl⟩ := Reply.ok.inj run
    exact .inl front
  | cons d ds =>
    rw [next_of_cons front] at run
    obtain ⟨-, rfl⟩ := Reply.ok.inj run
    obtain rfl := stop d (Source.char?_of_cons front)
    exact .inr (spans.concat front)

theorem gives_readLine (s : Source) (i : Nat) : readLine.Gives s i fun line j => LinesRead s i [line] j := by
  refine (gives_takeLine s i).bind fun line j taken => ?_
  obtain ⟨spans, whole⟩ := taken
  have stop : ∀ c ∈ s.char? j, c = '\n' := by
    rw [spans.cursor, String.length_toList]
    exact whole.stop
  refine (gives_next_of_line spans stop).bind fun _ k broken => .pure ⟨by simp, ?_, ?_⟩
  · simpa using whole.shows
  · simpa using broken

theorem intercalate_concat (some : lines ≠ []) :
    ("\n".intercalate (lines ++ [line])).toList = ("\n".intercalate lines).toList ++ ['\n'] ++ line.toList := by
  simp only [String.toList_intercalate]
  induction lines with
  | nil => contradiction
  | cons first rest ih =>
    cases rest with
    | nil => simp [List.intercalate_cons_cons]
    | cons second rest =>
      simp only [List.cons_append, List.map_cons, List.intercalate_cons_cons] at ih ⊢
      rw [ih (by simp)]
      simp

/-- One more line, where the buffer goes on. -/
theorem LinesRead.spans_concat {start : Nat} (read : LinesRead s start lines i) (more : s.ahead i ≠ [])
    (spans : s.Spans i line.toList j) : s.Spans start ("\n".intercalate (lines ++ [line])).toList j := by
  rw [intercalate_concat read.some]
  exact (read.broken.resolve_left more).append spans

/-- One more line with its end. -/
theorem LinesRead.gives_next {start : Nat} (read : LinesRead s start lines i) (more : s.ahead i ≠ [])
    (spans : s.Spans i line.toList j) (whole : s.ShowsLine i line) :
    next.Gives s j fun _ k => LinesRead s start (lines ++ [line]) k := by
  have all := read.spans_concat more spans
  have stop : ∀ c ∈ s.char? j, c = '\n' := by
    rw [spans.cursor, String.length_toList]
    exact whole.stop
  exact (gives_next_of_line all stop).mono fun _ k broken => ⟨by simp, all.shows, broken⟩

/-- One more line, read with its end. -/
theorem LinesRead.gives_readLine {start : Nat} (read : LinesRead s start lines i) (more : s.ahead i ≠ []) :
    readLine.Gives s i fun line j => LinesRead s start (lines ++ [line]) j :=
  (gives_takeLine s i).bind fun _ _ taken => (read.gives_next more taken.1 taken.2).bind fun _ _ next => .pure next

theorem ahead_ne_nil_of_peek {c : Option Char} (run : peek s i = .ok c j) (some : ¬c.isNone = true) :
    j = i ∧ s.ahead i ≠ [] := by
  obtain ⟨rfl, rfl⟩ := Reply.ok.inj run
  refine ⟨rfl, fun empty => some ?_⟩
  simp [Source.char?_eq, empty]

end Scan

end VimScript
