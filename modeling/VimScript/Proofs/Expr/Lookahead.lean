import VimScript.Proofs.Overlap.Expression
import VimScript.Proofs.Script.Structure
import VimScript.Proofs.Tree.Fold

/-!
How much of a buffer decides what an expression is read as. The reader stays on the line of the cursor, with one
exception: a brace may open a dictionary or the parameters of a lambda, and the two tokens after the brace tell which.
Where the brace ends its line, the second of them belongs to the line after it. It never changes what is read, since
nothing can be read within the braces any more; but if it is no token, its fault is reported and not the one on the line.
-/

set_option autoImplicit false

namespace VimScript

/-- A shared text that stands at the same positions in both buffers, seen as it is. -/
def SharedText.placed {s t : Source} (w : SharedText s t)
    (places : ∀ p, w.Inside p → s.position (w.left + p) = t.position (w.right + p)) (faults : Prop)
    (settled : faults → w.EndsInBrace → w.ReadsOn) : Overlap s t where
  toSharedText := w
  leftSight := ⟨id, id⟩
  rightSight := ⟨id, id⟩
  places := places
  invocations _ _ same := same
  faults := faults
  settled compared := .inr (settled compared)

namespace Expr

open Overlap Scan

variable {s t : Source} {i j : Nat} {line rest rest' : List Char} {n : Node}

/-- From the cursor to an end of line, both buffers have the same characters at the same positions. -/
structure SameLine (s t : Source) (i : Nat) (line : List Char) : Prop where
  left : ∃ rest, s.ahead i = line ++ '\n' :: rest
  right : ∃ rest, t.ahead i = line ++ '\n' :: rest
  places : ∀ p ≤ line.length, s.position (i + p) = t.position (i + p)

/-- A token can be read at the cursor; at the end of input it is the mark of the end. -/
def TokenAt (s : Source) (i : Nat) : Prop :=
  ∃ token j, Token.next s i = .ok token j

theorem SameLine.symm (h : SameLine s t i line) : SameLine t s i line :=
  ⟨h.right, h.left, fun p bound => (h.places p bound).symm⟩

theorem placed_follows {w : SharedText s t} (places : ∀ p, w.Inside p → s.position (w.left + p) = t.position (w.right + p))
    (faults : Prop) (settled : faults → w.EndsInBrace → w.ReadsOn) (inside : w.Inside 0) :
    (w.placed places faults settled).Follows 0 read read fun n m _ => n = m := by
  apply (read_follows inside).mono
  rintro n m _ ⟨alike, -⟩
  have seen : n.seen ⟨id, id⟩ = m.seen ⟨id, id⟩ := alike
  rwa [Node.seen_id, Node.seen_id] at seen

theorem bound_of_line (ahead : s.ahead i = line ++ '\n' :: rest) : i ≤ s.size := by
  have length := Source.length_ahead s i
  rw [ahead, List.length_append, List.length_cons] at length
  omega

/-- What a line of the first buffer tells of the second one. -/
def Tells (s t : Source) (i : Nat) (line : List Char) : Prop :=
  (∀ n j, read s i = .ok n j → read t i = .ok n j) ∧
    ((endsInBrace line = true → TokenAt s (i + line.length + 1) ∧ TokenAt t (i + line.length + 1)) →
      read s i = read t i)

theorem tells_of_apart (left : s.ahead i = line ++ '\n' :: rest) (right : t.ahead i = line ++ '\n' :: rest')
    (places : ∀ p ≤ line.length, s.position (i + p) = t.position (i + p)) (apart : ¬(rest = [] ∧ rest' = [])) :
    Tells s t i line := by
  let text : SharedText s t :=
    { text := line ++ ['\n'], left := i, right := i, leftRest := rest, rightRest := rest',
      leftAhead := by rw [left, List.append_assoc]; rfl, rightAhead := by rw [right, List.append_assoc]; rfl,
      leftBound := bound_of_line left, rightBound := bound_of_line right, closed := .inr ⟨line, rfl⟩ }
  have length : text.text.length = line.length + 1 := List.length_append
  have onLine : ∀ p, text.Inside p → s.position (i + p) = t.position (i + p) := by
    rintro p (less | ⟨complete, -⟩)
    · exact places p (by omega)
    · exact absurd complete apart
  have start : text.Inside 0 := .inl (by rw [length]; omega)
  constructor
  · intro n j run
    exact (placed_follows onLine False False.elim start).ok_of_same rfl run
  · intro settled
    have reads : text.EndsInBrace → text.ReadsOn := by
      rintro ⟨front, whole, brace⟩
      obtain rfl : line = front := List.append_cancel_right whole
      have tokens := settled brace
      rwa [SharedText.ReadsOn, length]
    exact (placed_follows onLine True (fun _ => reads) start).eq_of_same rfl trivial fun _ _ => id

theorem SameLine.tells (h : SameLine s t i line) : Tells s t i line := by
  obtain ⟨⟨rest, left⟩, ⟨rest', right⟩, places⟩ := h
  by_cases ends : rest = [] ∧ rest' = []
  -- Their ends may be reported at different positions. A buffer that goes on after the line stands between them.
  · obtain ⟨rfl, rfl⟩ := ends
    let middle : Source := { s with chars := s.chars.push '\n' }
    have goes : middle.ahead i = line ++ '\n' :: ['\n'] := by
      have front : (s.chars.toList ++ ['\n']).drop i = s.chars.toList.drop i ++ ['\n'] :=
        List.drop_append_of_le_length (bound_of_line left)
      rw [Source.ahead, Array.toList_push, front, ← Source.ahead, left, List.append_assoc]
      rfl
    have behind {u : Source} {cs : List Char} (ahead : u.ahead i = line ++ '\n' :: cs) : u.ahead (i + line.length + 1) = cs :=
      Source.ahead_of_cons (Source.ahead_of_append ahead)
    have tokens : TokenAt s (i + line.length + 1) ∧ TokenAt t (i + line.length + 1) ∧
        TokenAt middle (i + line.length + 1) :=
      ⟨⟨_, _, Token.next_of_empty (behind left)⟩, ⟨_, _, Token.next_of_empty (behind right)⟩,
        ⟨_, _, Token.next_of_newline (behind goes)⟩⟩
    have first : Tells s middle i line := tells_of_apart left goes (fun _ _ => rfl) (by simp)
    have second : Tells middle t i line := tells_of_apart goes right places (by simp)
    constructor
    · exact fun n j run => second.1 n j (first.1 n j run)
    · intro _
      exact (first.2 fun _ => ⟨tokens.1, tokens.2.2⟩).trans (second.2 fun _ => ⟨tokens.2.2, tokens.2.1⟩)
  · exact tells_of_apart left right places ends

/-- An expression is read alike from a line that stands in two buffers. Only where the line ends in a brace, and what
comes after it is no token in one of them, the faults may differ. -/
theorem read_of_sameLine (h : SameLine s t i line) :
    read s i = read t i ∨
      (endsInBrace line = true ∧ ¬(TokenAt s (i + line.length + 1) ∧ TokenAt t (i + line.length + 1))) ∧
        ∃ e e' k k', read s i = .fail e k ∧ read t i = .fail e' k' := by
  by_cases settled : endsInBrace line = true → TokenAt s (i + line.length + 1) ∧ TokenAt t (i + line.length + 1)
  · exact .inl (h.tells.2 settled)
  have unread : endsInBrace line = true ∧ ¬(TokenAt s (i + line.length + 1) ∧ TokenAt t (i + line.length + 1)) := by
    simpa using settled
  have bound {u : Source} (ahead : ∃ cs, u.ahead i = line ++ '\n' :: cs) : read u i ≠ .spent := by
    obtain ⟨cs, ahead⟩ := ahead
    have follows := (read_follows (inside_whole (bound_of_line ahead))).ne_spent
    rwa [show (whole u).left + i = i from Nat.zero_add i] at follows
  cases run : read s i with
  | ok n j => exact .inl (h.tells.1 n j run).symm
  | spent => exact absurd run (bound h.left)
  | fail e k =>
    cases run' : read t i with
    | ok m k' =>
      have same := h.symm.tells.1 m k' run'
      rw [run] at same
      cases same
    | spent => exact absurd run' (bound h.right)
    | fail e' k' => exact .inr ⟨unread, e, e', k, k', rfl, rfl⟩

/-- A list that is not closed on its line fails there, whatever is on the next line. -/
theorem read_of_sameLine_list :
    let s := Source.ofLines ["[1,", "^"]
    let t := Source.ofLines ["[1,", "2]"]
    SameLine s t 0 ['[', '1', ','] ∧ read s 0 = read t 0 := by
  intro s t
  have same : SameLine s t 0 ['[', '1', ','] := ⟨⟨['^', '\n'], by decide +kernel⟩, ⟨['2', ']', '\n'], by decide +kernel⟩, by decide +kernel⟩
  have plain : endsInBrace ['[', '1', ','] = false := by decide
  exact ⟨same, (read_of_sameLine same).resolve_right fun odd => by simp [plain] at odd⟩

/-- The line on which a fault is reported. -/
def faultLine? : Reply Node → Option Nat
  | .fail e _ => some e.position.line
  | .ok _ _ | .spent => none

/-- After a brace at the end of its line, a character that starts no token is reported from the next line. -/
theorem not_forall_read_sameLine : ¬∀ s t i line, SameLine s t i line → read s i = read t i := by
  intro all
  let s := Source.ofLines ["\x7b", "^"]
  let t := Source.ofLines ["\x7b", "x"]
  have same : SameLine s t 0 ['\x7b'] := ⟨⟨['^', '\n'], by decide +kernel⟩, ⟨['x', '\n'], by decide +kernel⟩, by decide +kernel⟩
  have onNext : faultLine? (read s 0) = some 2 := by decide +kernel
  have onFirst : faultLine? (read t 0) = some 1 := by decide +kernel
  rw [all s t 0 _ same, onFirst] at onNext
  cases onNext

end Expr

end VimScript
