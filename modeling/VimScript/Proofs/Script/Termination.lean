import VimScript.Proofs.Expr.Targets
import VimScript.Proofs.Overlap.Run
import VimScript.Proofs.Statement.Order

/-!
Reading comes to an end. Every statement takes at least one character of the buffer, so a script has at most as many
statements as the buffer has characters; and no repetition or recursion inside a statement goes on for ever.
-/

set_option autoImplicit false

namespace VimScript

open Overlap

variable {α β : Type} {s : Source} {i j k : Nat}

/-! ### Scans that end -/

namespace Scan

variable {x : Scan α} {y : Scan β} {post : α → β → Nat → Prop} {r : α → α → Prop}

/-- From a cursor on, a scan ends: in a fault, or in the buffer and not before a given place. -/
def Halts (x : Scan α) (s : Source) (i k : Nat) : Prop :=
  match x s i with
  | .ok _ j => k ≤ j ∧ j ≤ s.size
  | .fail _ _ => True
  | .spent => False

/-- A scan ends wherever it starts, and does not go back. -/
def Settles (x : Scan α) (s : Source) : Prop :=
  ∀ i ≤ s.size, x.Halts s i i

theorem halts_of_follows (follows : (whole s).Follows i x y post)
    (place : ∀ a b j, post a b j → k ≤ j ∧ j ≤ s.size) : x.Halts s i k := by
  have start : (whole s).left + i = i := Nat.zero_add i
  rw [Follows, start] at follows
  unfold Halts
  cases run : x s i with
  | ok a j =>
    rw [run] at follows
    obtain ⟨b, q, same, -, met⟩ := follows
    obtain rfl : j = q := same.trans (Nat.zero_add q)
    exact place a b j met
  | fail e j => trivial
  | spent =>
    rw [run] at follows
    exact follows

theorem settles_of_follows (follows : ∀ i, (whole s).Inside i → (whole s).Follows i x x ((whole s).Kept i r)) :
    x.Settles s := by
  intro i bound
  refine halts_of_follows (follows i (inside_whole bound)) fun _ _ j ⟨_, inside, later⟩ => ?_
  exact ⟨later, length_whole s ▸ inside.le⟩

theorem settles_of_steady (x : Scan α) [steady : Steady x] (s : Source) : x.Settles s :=
  settles_of_follows fun i inside => steady.follows (whole s) i inside

theorem halts_of_grown {x y : Scan Node} (follows : (whole s).Follows i x y ((whole s).Grown k)) :
    x.Halts s i (k + 1) := by
  refine halts_of_follows follows fun _ _ j ⟨_, inside, more⟩ => ?_
  exact ⟨more, length_whole s ▸ inside.le⟩

end Scan

open Scan (settles_of_follows settles_of_steady halts_of_grown halts_of_follows)

/-! ### Inside a statement -/

theorem Token.lexed_of_whole {token : Token} (bound : i ≤ s.size) (read : Token.next s i = .ok token j) :
    ∃ b, Token.Lexed (whole s) i token.kind token.value token.position b j := by
  obtain ⟨⟨kind, value, b⟩, other, rfl, rfl, same, inside, bound', later, more, start⟩ :=
    (Token.next_follows (inside_whole bound)).of_whole read
  have here (k : Nat) : (whole s).left + k = k := Nat.zero_add k
  have there (k : Nat) : (whole s).right + k = k := Nat.zero_add k
  exact ⟨b, by rw [here, here, read], by rw [there, there, other], same, inside, bound', later, more, start⟩

namespace Expr

/-- A brace opens what ends, also where it is read a second time as a name. -/
theorem braces_halts {brace : Token} (bound : i ≤ s.size) (read : Token.next s i = .ok brace j)
    (opens : brace.kind = .braceOpen ∨ brace.kind = .literalBraceOpen) :
    (braces Expr.read i brace).Halts s j (i + 1) ∧ (name Expr.read).Halts s i (i + 1) := by
  have inside := inside_whole bound
  obtain ⟨b, token⟩ := Token.lexed_of_whole bound read
  have names : Token.opensName brace.kind = true := by
    rcases opens with opens | opens <;> rw [opens] <;> rfl
  have named := name_follows (reads (whole s) (i + 1)) inside (named_of_lexed token names)
  have opened := braces_follows token opens (reads _ (i + 1)) named (stops_read _ (i + 1))
  rw [show (whole s).left + i = i from Nat.zero_add i] at opened
  exact ⟨halts_of_grown opened, halts_of_grown named⟩

/-- The bound of the nesting does not show. -/
theorem nested_eq_read (depth : Nat) (bound : i ≤ s.size) (deep : s.size - i < depth) :
    nested depth s i = Expr.read s i := by
  have size := length_whole s
  have follows := nested_follows depth (s.size + 1) (inside_whole bound) (by omega) (by omega)
  apply Follows.eq_of_whole (x := nested depth) (y := nested (s.size + 1))
  refine follows.mono fun n m _ ⟨alike, _⟩ => ?_
  have same : n.seen ⟨id, id⟩ = m.seen ⟨id, id⟩ := alike
  rwa [Node.seen_id, Node.seen_id] at same

end Expr

/-- Whether a line starts at a cursor with a character of its own. -/
def Source.LineAt (s : Source) (i : Nat) : Prop :=
  ∃ c, s.char? i = some c ∧ c ≠ '\n'

namespace Statement

/-- The repetitions inside a statement, and the recursion of its expressions. -/
structure Repetitions (s : Source) : Prop where
  modifiers : modifiers.Settles s
  range : range.Settles s
  pattern : ∀ delimiter, (pattern delimiter).Settles s
  fileOptions : ∀ inv, (fileOptions inv).Settles s
  argument : ∀ inv, (argumentEnd inv).Settles s
  expressions : expressions.Settles s
  target : (targets target).Settles s
  constantTarget : (targets constantTarget).Settles s
  names : variableList.Settles s
  parameters : functionParameters.Settles s
  highlighting : ∀ inv, (highlighting inv).Settles s
  heredoc : ∀ inv, (heredoc inv).Settles s
  captured : ∀ marker lines, (linesUpTo marker lines).Settles s
  lines : ∀ inv, s.LineAt inv.linePos.cursor → ∀ i ≤ s.size,
    (textLines inv).Halts s i (inv.linePos.cursor + 1) ∧ (remainingLines inv).Halts s i (inv.linePos.cursor + 1) ∧
      (foreignCode inv).Halts s i (inv.linePos.cursor + 1)
  expression : ∀ i ≤ s.size, Expr.read.Halts s i (i + 1) ∧ Target.read.Halts s i (i + 1)
  nesting : ∀ i ≤ s.size, ∀ depth, s.size - i < depth → Expr.nested depth s i = Expr.read s i
  braces : ∀ i ≤ s.size, ∀ brace j, Token.next s i = .ok brace j →
    brace.kind = .braceOpen ∨ brace.kind = .literalBraceOpen →
      (Expr.braces Expr.read i brace).Halts s j (i + 1) ∧ (Expr.name Expr.read).Halts s i (i + 1)

theorem halts_of_written {x : Scan (List Edit)} {l : Nat} (follows : (whole s).Follows i x x ((whole s).Written l)) :
    x.Halts s i (l + 1) := by
  refine halts_of_follows follows fun _ _ j ⟨_, inside, more⟩ => ?_
  exact ⟨more, length_whole s ▸ inside.le⟩

theorem started_of_lineAt (line : s.LineAt i) : (whole s).Started i := by
  obtain ⟨c, char, other⟩ := line
  refine ⟨c, ?_, other⟩
  rw [← char, Source.char?_eq, Source.ahead]
  simp [whole]

theorem repetitions (s : Source) : Repetitions s where
  modifiers := settles_of_steady Statement.modifiers s
  range := settles_of_steady Statement.range s
  pattern delimiter := settles_of_steady (Statement.pattern delimiter) s
  fileOptions inv := settles_of_follows fun i inside => fileOptions_follows (paired_whole s inv) inside
  argument inv i bound := by
    have follows := argumentEnd_follows (paired_whole s inv) (inside_whole bound)
    refine halts_of_follows follows fun _ _ j ⟨inside, later, _⟩ => ?_
    exact ⟨later, length_whole s ▸ inside.le⟩
  expressions := settles_of_follows fun i inside => expressions_follows inside
  target := settles_of_follows fun i inside => targets_follows (fun _ => target_follows) inside
  constantTarget := settles_of_follows fun i inside => targets_follows (fun _ => constantTarget_follows) inside
  names := settles_of_follows fun i inside => variableList_follows inside
  parameters := settles_of_follows fun i inside => functionParameters_follows inside
  highlighting inv := settles_of_follows fun i inside => highlighting_follows (paired_whole s inv) inside
  heredoc inv := settles_of_follows fun i inside => heredoc_follows (paired_whole s inv) inside (.inl ⟨rfl, id⟩)
  captured marker lines := settles_of_follows fun i inside => linesUpTo_follows marker lines inside.le (.inl ⟨rfl, rfl⟩)
  lines inv line i bound := by
    have paired := paired_whole s inv
    have started := started_of_lineAt line
    exact ⟨halts_of_written (textLines_follows paired started (.inl ⟨rfl, rfl⟩)),
      halts_of_written (remainingLines_follows paired started (.inl ⟨rfl, rfl⟩)),
      halts_of_written (foreignCode_follows paired started (inside_whole bound) (.inl ⟨rfl, rfl⟩))⟩
  expression i bound :=
    ⟨halts_of_grown (Expr.read_follows (inside_whole bound)), halts_of_grown (Target.read_follows (inside_whole bound))⟩
  nesting i bound depth deep := Expr.nested_eq_read depth bound deep
  braces i bound brace j read opens := Expr.braces_halts bound read opens

theorem read_halts (setting : Setting) (more : i < s.size) : (read setting).Halts s i (i + 1) := by
  refine halts_of_follows (read_whole setting (Nat.le_of_lt more)) fun _ _ j ⟨bound, moved⟩ => ?_
  exact ⟨moved more, bound⟩

end Statement

/-! ### From statement to statement -/

namespace Script

open Statement (UserNames Effect)

/-- A run made statement by statement and without a bound: the cursors its statements start at, and the outcome. -/
inductive Run (neovim : Bool) (s : Source) : UserNames → Blocks → Nat → List Nat → Reply Node × UserNames → Prop where
  | finish {names : UserNames} {blocks : Blocks} {i : Nat} (last : s.size ≤ i) :
      Run neovim s names blocks i [] (finish blocks s i, names)
  | fault {names : UserNames} {blocks : Blocks} {i j : Nat} {e : Fault} (more : i < s.size)
      (read : Statement.read ⟨neovim, names, blocks⟩ s i = .fail e j) :
      Run neovim s names blocks i [i] (.fail e j, names)
  | step {names : UserNames} {blocks : Blocks} {i j : Nat} {effect : Effect} {starts : List Nat}
      {outcome : Reply Node × UserNames} (more : i < s.size)
      (read : Statement.read ⟨neovim, names, blocks⟩ s i = .ok effect j)
      (rest : Run neovim s effect.known (blocks.editAll effect.edits) j starts outcome) :
      Run neovim s names blocks i (i :: starts) outcome

variable {neovim : Bool} {known names : UserNames} {blocks : Blocks} {starts : List Nat}
  {outcome : Reply Node × UserNames}

theorem statements_run (neovim : Bool) (names : UserNames) (blocks : Blocks) (n : Nat) (bound : i ≤ s.size)
    (enough : s.size < n + i) :
    ∃ starts, Run neovim s names blocks i starts (statements neovim s n names blocks i) := by
  induction n generalizing names blocks i with
  | zero => omega
  | succ n ih =>
    rw [statements]
    by_cases last : s.size ≤ i
    · rw [if_pos last]
      exact ⟨[], .finish last⟩
    · rw [if_neg last]
      have more : i < s.size := Nat.lt_of_not_le last
      have halts := Statement.read_halts ⟨neovim, names, blocks⟩ more
      unfold Scan.Halts at halts
      cases read : Statement.read ⟨neovim, names, blocks⟩ s i with
      | ok effect j =>
        rw [read] at halts
        obtain ⟨starts, rest⟩ := ih effect.known (blocks.editAll effect.edits) halts.2 (by omega)
        exact ⟨i :: starts, .step more read rest⟩
      | fail e j => exact ⟨[i], .fault more read⟩
      | spent =>
        rw [read] at halts
        exact halts.elim

/-- The statements of a run start one after another, in the buffer. -/
theorem Run.increasing (run : Run neovim s names blocks i starts outcome) :
    starts.Pairwise (· < ·) ∧ ∀ k ∈ starts, i ≤ k ∧ k < s.size := by
  induction run with
  | finish last => simp
  | fault more read => simpa using more
  | @step names blocks i j effect starts outcome more read rest ih =>
    obtain ⟨increasing, inside⟩ := ih
    have moved := (Statement.read_moves more read).1
    refine ⟨List.pairwise_cons.mpr ⟨fun k place => ?_, increasing⟩, ?_⟩
    · have later := (inside k place).1
      omega
    · refine List.forall_mem_cons.mpr ⟨⟨Nat.le_refl i, more⟩, fun k place => ?_⟩
      have later := inside k place
      omega

/-- There is a character of the buffer for each statement. -/
theorem Run.length_le (run : Run neovim s names blocks i starts outcome) (bound : i ≤ s.size) :
    starts.length + i ≤ s.size := by
  induction run with
  | finish last => simpa using bound
  | fault more read =>
    rw [List.length_singleton]
    omega
  | step more read rest ih =>
    obtain ⟨moved, bound'⟩ := Statement.read_moves more read
    have fewer := ih bound'
    rw [List.length_cons]
    omega

theorem Run.ne_spent (run : Run neovim s names blocks i starts outcome) : outcome.1 ≠ .spent := by
  induction run with
  | finish last =>
    rw [finish_eq]
    split
    · simp
    · split <;> simp
  | fault more read => simp
  | step more read rest ih => exact ih

/-- Each statement takes at least one character and stays in the buffer, so that a script ends, in a tree or in a fault,
after no more statements than the buffer has characters; and what is repeated or nested inside a statement ends too. -/
theorem readWith_terminates (neovim : Bool) (known : UserNames) (s : Source) :
    (∀ setting i, i < s.size → (Statement.read setting).Halts s i (i + 1)) ∧
      (∃ starts, Run neovim s known (.start (s.position 0)) 0 starts (readWith neovim known s) ∧
        starts.Pairwise (· < ·) ∧ starts.length ≤ s.size) ∧
      (readWith neovim known s).1 ≠ .spent ∧
      Statement.Repetitions s := by
  obtain ⟨starts, run⟩ :=
    statements_run neovim known (.start (s.position 0)) (s.size + 2) (Nat.zero_le s.size) (by omega)
  have few : starts.length ≤ s.size := by simpa using run.length_le (Nat.zero_le s.size)
  exact ⟨fun setting i more => Statement.read_halts setting more, ⟨starts, run, run.increasing.1, few⟩, run.ne_spent,
    Statement.repetitions s⟩

end Script

end VimScript
