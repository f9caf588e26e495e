import VimScript.Proofs.Script.Run
import VimScript.Proofs.Source.Layout
import VimScript.Proofs.Statement.Lines

/-!
Scripts made of the lines of the grammar of blocks. Those that have a derivation are read as it, and all others are
refused where they stop being the start of one.
-/

set_option autoImplicit false

namespace VimScript

namespace Line

def texts (lines : List Line) : List (List Char) :=
  lines.map fun line => line.text.toList

theorem texts_append (xs ys : List Line) : texts (xs ++ ys) = texts xs ++ texts ys := by
  simp [texts]

theorem plain_texts (lines : List Line) : Source.Plain (texts lines) := by
  have table : ∀ line ∈ all, (line.text.toList.dropWhile isAsciiSpace).head? ≠ some '\\' := by decide
  intro text place
  obtain ⟨line, -, rfl⟩ := List.mem_map.mp place
  exact table line (mem_all line)

end Line

namespace Script

open Line (texts)
open Source (layout)
open Statement (UserNames)

variable (neovim : Bool) {s : Source} (known : UserNames) {blocks : Blocks} {i : Nat} (n : Nat)

/-! ### One line after the other -/

theorem more_of_line {line : Line} {cs : List Char} (h : s.ahead i = line.text.toList ++ '\n' :: cs) :
    i + (line.text.toList ++ ['\n']).length ≤ s.size := by
  have length := Source.length_ahead s i
  rw [h, List.length_append, List.length_cons] at length
  rw [List.length_append, List.length_singleton]
  omega

theorem statements_of_admitted {line : Line} {cs : List Char} (stands : Blocks.Stands blocks.stack)
    (grows : Frames.Grows blocks.frames) (ok : blocks.frames.admits line.type = true)
    (h : s.ahead i = line.text.toList ++ '\n' :: cs) :
    ∃ later : Blocks, later.frames = blocks.frames.enter line.type ∧ Blocks.Stands later.stack ∧
      statements neovim s (n + 1) known blocks i =
        statements neovim s n known later (i + (line.text.toList ++ ['\n']).length) := by
  have bound := more_of_line h
  have more : ¬s.size ≤ i := by
    rw [List.length_append, List.length_singleton] at bound
    omega
  have read := Statement.read_line neovim known blocks line h
  rw [if_pos ok] at read
  obtain ⟨node, read, outline⟩ := read
  have standing := (stands.editAll ((Statement.read_delivers _).of_ok read)).1
  refine ⟨blocks.editAll [.ofType line.type node], Blocks.frames_edit line stands grows outline ok, standing, ?_⟩
  simp only [statements, more, if_false, read]

theorem statements_of_refused {line : Line} {cs : List Char} (no : ¬blocks.frames.admits line.type = true)
    (h : s.ahead i = line.text.toList ++ '\n' :: cs) :
    ∃ cause j, statements neovim s (n + 1) known blocks i = (.fail ⟨cause, s.position i⟩ j, known) := by
  have bound := more_of_line h
  have more : ¬s.size ≤ i := by
    rw [List.length_append, List.length_singleton] at bound
    omega
  have read := Statement.read_line neovim known blocks line h
  rw [if_neg no] at read
  obtain ⟨cause, j, read⟩ := read
  refine ⟨cause, j, ?_⟩
  simp only [statements, more, if_false, read]

/-- A run that takes all lines, up to the end of the buffer. -/
def Passes (neovim : Bool) (s : Source) (n : Nat) (known : UserNames) (blocks : Blocks) (i : Nat) (lines : List Line) :
    Prop :=
  ∃ last, blocks.frames.run (lines.map Line.type) = some last.frames ∧ Blocks.Stands last.stack ∧
    statements neovim s n known blocks i = (finish last s s.size, known)

/-- A run that stops at the first line that is not admitted. -/
def Stops (neovim : Bool) (s : Source) (n : Nat) (known : UserNames) (blocks : Blocks) (i : Nat) (lines : List Line) :
    Prop :=
  ∃ done line rest cause j, lines = done ++ line :: rest ∧
    (blocks.frames.run (done.map Line.type)).isSome = true ∧
    blocks.frames.run ((done ++ [line]).map Line.type) = none ∧
    statements neovim s n known blocks i = (.fail ⟨cause, s.position (i + (layout (texts done)).length)⟩ j, known)

theorem passes_or_stops (lines : List Line) (stands : Blocks.Stands blocks.stack) (grows : Frames.Grows blocks.frames)
    (fuel : lines.length < n) (inside : i ≤ s.size) (h : s.ahead i = layout (texts lines)) :
    Passes neovim s n known blocks i lines ∨ Stops neovim s n known blocks i lines := by
  induction lines generalizing n blocks i with
  | nil =>
    obtain ⟨n, rfl⟩ : ∃ k, n = k + 1 := ⟨n - 1, by simp at fuel; omega⟩
    have last : i = s.size := by
      have length := Source.length_ahead s i
      rw [h] at length
      simp [texts, layout] at length
      omega
    exact .inl ⟨blocks, rfl, stands, by simp [statements, last]⟩
  | cons line lines ih =>
    obtain ⟨n, rfl⟩ : ∃ k, n = k + 1 := ⟨n - 1, by simp at fuel; omega⟩
    have here : s.ahead i = line.text.toList ++ '\n' :: layout (texts lines) := by
      rw [h]
      simp [texts, layout]
    by_cases ok : blocks.frames.admits line.type = true
    · obtain ⟨later, frames, standing, goes⟩ := statements_of_admitted neovim known n stands grows ok here
      have there : s.ahead (i + (line.text.toList ++ ['\n']).length) = layout (texts lines) := Source.ahead_of_append h
      rcases ih n standing (frames ▸ (grows.enter line ok).1) (by simpa using fuel) (more_of_line here) there with
        ⟨last, ran, stands', result⟩ | ⟨done, next, rest, cause, j, whole, ran, stuck, result⟩
      · refine .inl ⟨last, ?_, stands', goes.trans result⟩
        rw [frames] at ran
        simpa [Frames.run, ok] using ran
      · rw [frames] at ran stuck
        refine .inr ⟨line :: done, next, rest, cause, j, by simp [whole], ?_, ?_, ?_⟩
        · simpa [Frames.run, ok] using ran
        · simpa [Frames.run, ok] using stuck
        · have length : (layout (texts (line :: done))).length =
              (line.text.toList ++ ['\n']).length + (layout (texts done)).length := List.length_append
          rw [goes, result, length, Nat.add_assoc]
    · obtain ⟨cause, j, result⟩ := statements_of_refused neovim known n ok here
      exact .inr ⟨[], line, lines, cause, j, rfl, rfl, by simp [Frames.run, ok], result⟩

/-! ### Whole scripts -/

/-- The buffer of a script of the given lines. -/
def buffer (lines : List Line) : Source :=
  .ofLines (lines.map Line.text)

theorem buffer_eq (lines : List Line) : buffer lines = .ofChars (texts lines) := by
  simp [buffer, Source.ofLines, texts, Function.comp_def]

theorem position_line (done : List Line) (line : Line) (rest : List Line) :
    (buffer (done ++ line :: rest)).position (layout (texts done)).length =
      ⟨(layout (texts done)).length, done.length + 1, 1, textLength (texts done)⟩ := by
  have plain := Line.plain_texts (done ++ line :: rest)
  rw [Line.texts_append] at plain
  have count : (texts done).length = done.length := List.length_map _
  have place := Source.place_layout (plain : Source.Plain (texts done ++ line.text.toList :: texts rest))
  rw [buffer_eq, Line.texts_append, Source.position]
  exact (congrArg (Position.ofPlace _) place).trans (by rw [count]; rfl)

theorem frames_start (position : Position) : (Blocks.start position).frames = Frames.start := by
  simp only [Blocks.start, Blocks.frames, Frames.start, List.map_cons, List.map_nil, Node.outline_mk]
  rfl

theorem finish_frames (stands : Blocks.Stands blocks.stack) :
    (∃ sort, blocks.frames.innermost.block? = some sort ∧
        finish blocks s i = .fail ⟨.missingCloser sort .script, s.position i⟩ i) ∨
      ∃ statements root, blocks.frames = [.node .script statements] ∧ finish blocks s i = .ok root i ∧
        root.outline = .node .script statements := by
  rcases finish_of_stands (s := s) (i := i) stands with ⟨sort, inside, result⟩ | ⟨n, stack, type, -, result⟩
  · exact .inl ⟨sort, by rw [Blocks.innermost_frames, inside], result⟩
  · have outline : n.outline = .node .script (n.kind.slots.all.map Node.outline) := by rw [Node.outline_eq, type]
    have same : (Node.mk .origin n.kind).outline = n.outline := by rw [Node.outline_mk, Node.outline_eq, Node.type]
    exact .inr ⟨_, _, by simp [Blocks.frames, stack, outline], result, same.trans outline⟩

/-- The fault is at the start of the first line with which there is no way left to go on to a script. -/
def Misplaced (lines : List Line) (fault : Fault) : Prop :=
  ∃ done line rest, lines = done ++ line :: rest ∧ Viable done ∧ ¬Viable (done ++ [line]) ∧
    fault.position.line = done.length + 1 ∧ fault.position.column = 1

/-- The fault is at the end of the input and names the closing command of the innermost open block. -/
def Unfinished (lines : List Line) (fault : Fault) : Prop :=
  Viable lines ∧ fault.position = (buffer lines).position (buffer lines).size ∧ fault.cause.kind = .unterminated ∧
    ∃ sort, (openBlocks lines).head? = some sort ∧
      fault.message = Cause.missingCode sort ++ ": Missing :" ++ sort.closer ++ ":    TOPLEVEL"

theorem Misplaced.not_derivation {lines : List Line} {fault : Fault} (h : Misplaced lines fault)
    (statements : List Outline) : ¬Derivation lines statements := by
  obtain ⟨done, line, rest, rfl, -, stuck, -⟩ := h
  intro derivation
  exact stuck ⟨rest, statements, by simpa using derivation⟩

theorem Unfinished.not_derivation {lines : List Line} {fault : Fault} (h : Unfinished lines fault)
    (statements : List Outline) : ¬Derivation lines statements := by
  obtain ⟨-, -, -, sort, inside, -⟩ := h
  intro derivation
  have closed : Frames.blocks [.node .script statements] = openBlocks lines :=
    Frames.grows_start.blocks_run lines (Frames.run_start_of_derivation derivation)
  rw [← closed] at inside
  simp [Frames.blocks, NodeType.isBranch, NodeType.block?] at inside

/-- Every script of the grammar is read as what it derives, or refused for one of two reasons. -/
theorem ofLines_outcome (neovim : Bool) (lines : List Line) :
    (∃ statements root j, Derivation lines statements ∧ ofLines neovim (lines.map Line.text) = .ok root j ∧
        root.outline = .node .script statements) ∨
      ∃ fault j, ofLines neovim (lines.map Line.text) = .fail fault j ∧
        (Misplaced lines fault ∨ Unfinished lines fault) := by
  have plain := Line.plain_texts lines
  have stands := (Reaches.start : Reaches neovim (buffer lines) [] _ _ _ _).stands
  have ahead : (buffer lines).ahead 0 = layout (texts lines) := by rw [buffer_eq, Source.ahead_ofChars plain]
  have start : ofLines neovim (lines.map Line.text) = (statements neovim (buffer lines) ((buffer lines).size + 2) []
      (.start ((buffer lines).position 0)) 0).1 := rfl
  have fuel : lines.length < (buffer lines).size + 2 := by
    have length := Source.length_ahead (buffer lines) 0
    have bound := Source.length_le_layout (texts lines)
    rw [ahead] at length
    simp only [texts, List.length_map] at length bound
    omega
  rcases passes_or_stops neovim [] _ lines stands (frames_start _ ▸ Frames.grows_start) fuel (Nat.zero_le _) ahead with
    ⟨last, ran, standing, result⟩ | ⟨done, line, rest, cause, j, rfl, ran, stuck, result⟩
  · rw [frames_start] at ran
    rw [start, result]
    rcases finish_frames standing with ⟨sort, inside, failed⟩ | ⟨statements, root, frames, finished, outline⟩
    · have grows := (Frames.grows_start.run lines ran).1
      refine .inr ⟨_, _, failed, .inr ⟨(Frames.isSome_run_start_iff lines).mp (by simp [ran]), rfl, rfl, sort, ?_, ?_⟩⟩
      · rw [← inside, ← grows.blocks_head, Frames.grows_start.blocks_run lines ran]
        rfl
      · cases sort <;> rfl
    · rw [frames] at ran
      exact .inl ⟨statements, root, _, Frames.derivation_of_run_start ran, finished, outline⟩
  · rw [frames_start] at ran stuck
    have viable := (Frames.isSome_run_start_iff done).mp ran
    have noWay : ¬Viable (done ++ [line]) := by
      rw [← Frames.isSome_run_start_iff, stuck]
      simp
    rw [start, result, Nat.zero_add, position_line]
    exact .inr ⟨_, _, rfl, .inl ⟨done, line, rest, rfl, viable, noWay, rfl, rfl⟩⟩

/-- Exactly what the grammar derives is read, and as its derivation. What has none fails at the first line that no
script can have there, or for a block that is still open at the end. -/
theorem ofLines_grammar (neovim : Bool) (lines : List Line) :
    (∀ statements, Derivation lines statements →
        ∃ root j, ofLines neovim (lines.map Line.text) = .ok root j ∧ root.outline = .node .script statements) ∧
      (∀ root j, ofLines neovim (lines.map Line.text) = .ok root j →
        ∃ statements, Derivation lines statements ∧ root.outline = .node .script statements) ∧
      ((∀ statements, ¬Derivation lines statements) →
        ∃ fault j, ofLines neovim (lines.map Line.text) = .fail fault j ∧
          (Misplaced lines fault ∨ Unfinished lines fault)) := by
  rcases ofLines_outcome neovim lines with ⟨known, root, j, derivation, result, outline⟩ | ⟨fault, j, result, reason⟩
  · refine ⟨?_, ?_, ?_⟩
    · intro statements other
      have same := (Frames.run_start_of_derivation other).symm.trans (Frames.run_start_of_derivation derivation)
      obtain rfl : statements = known := by simpa using same
      exact ⟨root, j, result, outline⟩
    · intro root' j' result'
      obtain ⟨rfl, -⟩ := Reply.ok.inj (result.symm.trans result')
      exact ⟨known, derivation, outline⟩
    · intro none
      exact absurd derivation (none known)
  · have none : ∀ statements, ¬Derivation lines statements := by
      rcases reason with misplaced | unfinished
      · exact misplaced.not_derivation
      · exact unfinished.not_derivation
    refine ⟨?_, ?_, ?_⟩
    · intro statements derivation
      exact absurd derivation (none statements)
    · intro root j' result'
      cases result.symm.trans result'
    · intro _
      exact ⟨fault, j, result, reason⟩

end Script

end VimScript
