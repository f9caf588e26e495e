import Mathlib.Data.List.Induction
import VimScript.Proofs.Token.Literals

/-!
Where a string ends. Its text is followed by the grammar of its quotes: a single quote stands for itself where it is
written twice, and a backslash takes any character with it. The first quote that is left closes the string, and if
there is none on the line, the string is refused where the line ends.
-/

set_option autoImplicit false

namespace VimScript.Token

open Scan

/-- What reading a string comes to from the start of its text on: the text up to a quote that closes it, or a fault at
the end of the line if none does. -/
inductive ReadsQuoted (quote : Char) (Closed : List Char → List Char → Prop) (s : Source) (start : Nat) :
    Reply String → Prop where
  | closed {body after : List Char} (ahead : s.ahead start = body ++ quote :: after) (closes : Closed body after) :
      ReadsQuoted quote Closed s start (.ok (String.ofList body) (start + body.length + 1))
  | unclosed {xs rest : List Char} {cause : Cause}
      (none : ∀ body after, s.ahead start = body ++ quote :: after → ¬Closed body after)
      (ahead : s.ahead start = xs ++ rest) (line : '\n' ∉ xs) (ends : ∀ c ∈ rest.head?, c = '\n')
      (lexical : cause.kind = .lexical) :
      ReadsQuoted quote Closed s start (.fail ⟨cause, s.position (start + xs.length)⟩ (start + xs.length))

/-- A quote closes a single-quoted string where it is not the first of two. -/
def SingleClosed (body after : List Char) : Prop :=
  SingleQuoted body ∧ after.head? ≠ some '\''

/-- A quote closes a double-quoted string wherever it is not escaped. -/
def DoubleClosed (body _after : List Char) : Prop :=
  DoubleQuoted body

variable {s : Source} {i : Nat} {body blanks cs : List Char}

/-! ### Every text -/

theorem SingleQuoted.newline_notMem (quoted : SingleQuoted body) : '\n' ∉ body := by
  induction quoted with
  | nil => simp
  | quote _ ih => simpa using ih
  | char _ line _ ih => simpa [line.symm] using ih

theorem DoubleQuoted.newline_notMem (quoted : DoubleQuoted body) : '\n' ∉ body := by
  induction quoted with
  | nil => simp
  | escape line _ ih => simpa [line.symm] using ih
  | char _ _ line _ ih => simpa [line.symm] using ih

/-- Every text belongs to a single-quoted string up to a quote that is not doubled or to the end of its line. -/
theorem exists_singleQuoted (cs : List Char) : ∃ body rest, cs = body ++ rest ∧ SingleQuoted body ∧
    ((∃ after, rest = '\'' :: after ∧ after.head? ≠ some '\'') ∨ ∀ c ∈ rest.head?, c = '\n') := by
  -- Two quotes in a row are taken together, so the induction goes on behind both.
  induction cs using List.twoStepInduction with
  | nil => exact ⟨[], [], rfl, .nil, .inr (by simp)⟩
  | singleton c =>
    by_cases line : c = '\n'
    · exact ⟨[], [c], rfl, .nil, .inr (by simpa using line)⟩
    by_cases quote : c = '\''
    · exact ⟨[], [c], rfl, .nil, .inl ⟨[], by rw [quote], by simp⟩⟩
    · exact ⟨[c], [], rfl, .char quote line .nil, .inr (by simp)⟩
  | cons_cons c d cs two one =>
    by_cases line : c = '\n'
    · exact ⟨[], c :: d :: cs, rfl, .nil, .inr (by simpa using line)⟩
    by_cases quote : c = '\''
    · subst quote
      by_cases doubled : d = '\''
      · obtain ⟨body, rest, rfl, quoted, stop⟩ := two
        exact ⟨'\'' :: d :: body, rest, rfl, doubled ▸ .quote quoted, stop⟩
      · exact ⟨[], '\'' :: d :: cs, rfl, .nil, .inl ⟨d :: cs, rfl, by simpa using doubled⟩⟩
    · obtain ⟨body, rest, same, quoted, stop⟩ := one d
      exact ⟨c :: body, rest, by rw [same]; rfl, .char quote line quoted, stop⟩

/-- Every text belongs to a double-quoted string up to a quote that is not escaped, to the end of its line, or to a
backslash at the end of its line. -/
theorem exists_doubleQuoted (cs : List Char) : ∃ body rest, cs = body ++ rest ∧ DoubleQuoted body ∧
    ((∃ after, rest = '"' :: after) ∨ (∀ c ∈ rest.head?, c = '\n') ∨
      ∃ after, rest = '\\' :: after ∧ ∀ c ∈ after.head?, c = '\n') := by
  induction cs using List.twoStepInduction with
  | nil => exact ⟨[], [], rfl, .nil, .inr (.inl (by simp))⟩
  | singleton c =>
    by_cases line : c = '\n'
    · exact ⟨[], [c], rfl, .nil, .inr (.inl (by simpa using line))⟩
    by_cases quote : c = '"'
    · exact ⟨[], [c], rfl, .nil, .inl ⟨[], by rw [quote]⟩⟩
    by_cases escape : c = '\\'
    · exact ⟨[], [c], rfl, .nil, .inr (.inr ⟨[], by rw [escape], by simp⟩)⟩
    · exact ⟨[c], [], rfl, .char quote escape line .nil, .inr (.inl (by simp))⟩
  | cons_cons c d cs two one =>
    by_cases line : c = '\n'
    · exact ⟨[], c :: d :: cs, rfl, .nil, .inr (.inl (by simpa using line))⟩
    by_cases quote : c = '"'
    · exact ⟨[], c :: d :: cs, rfl, .nil, .inl ⟨d :: cs, by rw [quote]⟩⟩
    by_cases escape : c = '\\'
    · subst escape
      by_cases last : d = '\n'
      · exact ⟨[], '\\' :: d :: cs, rfl, .nil, .inr (.inr ⟨d :: cs, rfl, by simpa using last⟩)⟩
      · obtain ⟨body, rest, rfl, quoted, stop⟩ := two
        exact ⟨'\\' :: d :: body, rest, rfl, .escape last quoted, stop⟩
    · obtain ⟨body, rest, same, quoted, stop⟩ := one d
      exact ⟨c :: body, rest, by rw [same]; rfl, .char quote escape line quoted, stop⟩

/-! ### The end of a line -/

theorem peekInLine_of_lineEnd (h : s.ahead i = cs) (ends : ∀ c ∈ cs.head?, c = '\n') :
    Scan.peekInLine s i = .ok none i := by
  rw [peekInLine_of_ahead h, Option.filter_eq_none_iff.mpr]
  intro c first
  simp [ends c first]

theorem singleTurn_lineEnd (start : Nat) (h : s.ahead i = cs) (ends : ∀ c ∈ cs.head?, c = '\n') :
    singleTurn start s i = .fail ⟨.openSingleQuoted, s.position i⟩ i := by
  rw [singleTurn, bind_of_ok (peekInLine_of_lineEnd h ends)]
  rfl

theorem doubleTurn_lineEnd (start : Nat) (h : s.ahead i = cs) (ends : ∀ c ∈ cs.head?, c = '\n') :
    doubleTurn start s i = .fail ⟨.openDoubleQuoted, s.position i⟩ i := by
  rw [doubleTurn, bind_of_ok (peekInLine_of_lineEnd h ends)]
  rfl

theorem doubleTurn_openEscape (start : Nat) (h : s.ahead i = '\\' :: cs) (ends : ∀ c ∈ cs.head?, c = '\n') :
    doubleTurn start s i = .fail ⟨.openEscape, s.position (i + 1)⟩ (i + 1) := by
  simp only [doubleTurn, bind_of_ok (peekInLine_of_cons h (by decide)), bind_of_ok (skip_apply 1 s i),
    bind_of_ok (peekInLine_of_lineEnd (Source.ahead_of_cons h) ends)]
  rfl

/-! ### All turns -/

theorem readsQuoted_singleTurns (s : Source) (start : Nat) :
    ReadsQuoted '\'' SingleClosed s start (loop () (fun _ => singleTurn start) s start) := by
  obtain ⟨body, rest, ahead, quoted, ⟨after, rfl, alone⟩ | ends⟩ := exists_singleQuoted (s.ahead start)
  · rw [quoted.loop ahead alone]
    exact .closed ahead ⟨quoted, alone⟩
  · have failed := (quoted.turns start ahead).loop_fail (singleTurn_lineEnd start (Source.ahead_of_append ahead) ends)
    rw [failed]
    refine .unclosed ?_ ahead quoted.newline_notMem ends rfl
    rintro body after ahead ⟨quoted, alone⟩
    rw [quoted.loop ahead alone] at failed
    cases failed

theorem readsQuoted_doubleTurns (s : Source) (start : Nat) :
    ReadsQuoted '"' DoubleClosed s start (loop () (fun _ => doubleTurn start) s start) := by
  obtain ⟨body, rest, ahead, quoted, stop⟩ := exists_doubleQuoted (s.ahead start)
  have turns := quoted.turns start ahead
  have last := Source.ahead_of_append ahead
  -- Where the turns come to a fault, no quote closes the string, or they would have come to it.
  have unclosed {xs rest : List Char} {cause : Cause} (ahead : s.ahead start = xs ++ rest) (line : '\n' ∉ xs)
      (ends : ∀ c ∈ rest.head?, c = '\n')
      (failed : loop () (fun _ => doubleTurn start) s start =
        .fail ⟨cause, s.position (start + xs.length)⟩ (start + xs.length)) (lexical : cause.kind = .lexical) :
      ReadsQuoted '"' DoubleClosed s start (loop () (fun _ => doubleTurn start) s start) := by
    rw [failed]
    refine .unclosed (fun body after ahead quoted => ?_) ahead line ends lexical
    rw [DoubleQuoted.loop quoted ahead] at failed
    cases failed
  rcases stop with ⟨after, rfl⟩ | ends | ⟨after, rfl, ends⟩
  · rw [quoted.loop ahead]
    exact .closed ahead quoted
  · exact unclosed ahead quoted.newline_notMem ends (turns.loop_fail (doubleTurn_lineEnd start last ends)) rfl
  · have split : s.ahead start = (body ++ ['\\']) ++ after := by simpa using ahead
    have failed := turns.loop_fail (doubleTurn_openEscape start last ends)
    have cursor : start + body.length + 1 = start + (body ++ ['\\']).length := by simp [Nat.add_assoc]
    rw [cursor] at failed
    exact unclosed split (by simp [quoted.newline_notMem]) ends failed rfl

/-- From the blanks before its quote on, a string is read up to the quote that closes it by its grammar, and it is kept
as written; if there is none, it is refused where the line ends. -/
theorem readsQuoted_of_quote (white : ∀ x ∈ blanks, CharClass.white.has x = true) :
    (s.ahead i = blanks ++ '\'' :: cs → ReadsQuoted '\'' SingleClosed s (i + blanks.length + 1) (singleQuoted s i)) ∧
      (s.ahead i = blanks ++ '"' :: cs → ReadsQuoted '"' DoubleClosed s (i + blanks.length + 1) (doubleQuoted s i)) := by
  constructor
  · intro h
    rw [singleQuoted_eq_loop _ white h]
    exact readsQuoted_singleTurns s _
  · intro h
    rw [doubleQuoted_eq_loop _ white h]
    exact readsQuoted_doubleTurns s _

/-- Doubled quotes up to the one that stands alone, and an escaped quote at the end of a line. -/
theorem readsQuoted_of_quote_pairs :
    let s := Source.ofLines [" '''a''' \"\\\\\\\""]
    s.ahead 0 = [' '] ++ '\'' :: "''a''' \"\\\\\\\"\n".toList ∧
      ReadsQuoted '\'' SingleClosed s 2 (singleQuoted s 0) ∧ singleQuoted s 0 = .ok "''a''" 8 ∧
      s.ahead 8 = [' '] ++ '"' :: "\\\\\\\"\n".toList ∧ ReadsQuoted '"' DoubleClosed s 10 (doubleQuoted s 8) ∧
      doubleQuoted s 8 = .fail ⟨.openDoubleQuoted, s.position 14⟩ 14 := by
  intro s
  have white : ∀ x ∈ [' '], CharClass.white.has x = true := List.all_eq_true.mp rfl
  have single : s.ahead 0 = [' '] ++ '\'' :: "''a''' \"\\\\\\\"\n".toList := by decide +kernel
  have double : s.ahead 8 = [' '] ++ '"' :: "\\\\\\\"\n".toList := by decide +kernel
  exact ⟨single, (readsQuoted_of_quote white).1 single, by decide +kernel, double, (readsQuoted_of_quote white).2 double,
    by decide +kernel⟩

end VimScript.Token
