import VimScript.Proofs.Overlap.Statement
import VimScript.Proofs.Script.Run

/-!
Runs over a shared text. Statement by statement the open blocks stay alike in both buffers, and where the text ends both
the runs end in the same way.
-/

set_option autoImplicit false

namespace VimScript

namespace Overlap

variable {s t : Source} {w : Overlap s t} {base : List Node} {b c : Blocks} {es es' : List Edit}

/-- Open blocks that look alike, with other statements at the start of the first script. -/
def AlikeBlocks (w : Overlap s t) (base : List Node) (b c : Blocks) : Prop :=
  b.seenOver w.leftSight base = c.seenOver w.rightSight []

theorem sameTypes_of_seenOver {v v' : Sight} {base base' : List Node} (h : b.seenOver v base = c.seenOver v' base') :
    b.SameTypes c := by
  have types := congrArg (fun blocks : Blocks => blocks.stack.map Node.type) h
  simp only [Blocks.seenOver, List.map_map, Function.comp_def, Node.type_seenOver] at types
  exact types

theorem AlikeBlocks.sameTypes (h : w.AlikeBlocks base b c) : b.SameTypes c :=
  sameTypes_of_seenOver h

theorem AlikeBlocks.editAll (h : w.AlikeBlocks base b c) (left : Blocks.Stands b.stack) (right : Blocks.Stands c.stack)
    (ok : b.AdmitsAll es) (ok' : c.AdmitsAll es') (alike : w.AlikeEdits es es') :
    w.AlikeBlocks base (b.editAll es) (c.editAll es') := by
  rw [AlikeBlocks, Blocks.editAll_seenOver _ _ left ok, Blocks.editAll_seenOver _ _ right ok', h, alike]

/-- Replies that tell the same: related values, or faults that look alike. -/
def Concurs {α β : Type} (w : Overlap s t) (r : α → β → Prop) : Reply α → Reply β → Prop
  | .ok v _, .ok u _ => r v u
  | .fail e _, .fail e' _ => w.SameFault e e'
  | _, _ => False

theorem Concurs.ok_iff {α β : Type} {w : Overlap s t} {r : α → β → Prop} {x : Reply α} {y : Reply β}
    (h : w.Concurs r x y) : (∃ v i, x = .ok v i) ↔ ∃ u j, y = .ok u j := by
  cases x <;> cases y <;> simp [Concurs] at h ⊢

end Overlap

namespace Statement

open Overlap

variable {s : Source} {i j : Nat} {setting : Setting} {effect : Effect}

/-- A statement beside itself. -/
theorem read_whole (setting : Setting) (bound : i ≤ s.size) :
    (whole s).Follows i (read setting) (read setting) fun _ _ q => q ≤ s.size ∧ (i < s.size → i < q) := by
  apply (read_follows (w := whole s) rfl (.inl ⟨rfl, rfl⟩) (.inl rfl) rfl (inside_whole bound)).mono
  rintro _ _ q ⟨-, bound, more⟩
  exact ⟨bound, more⟩

theorem read_moves (more : i < s.size) (run : read setting s i = .ok effect j) : i < j ∧ j ≤ s.size := by
  obtain ⟨-, -, bound, moved⟩ := (read_whole setting (Nat.le_of_lt more)).of_whole run
  exact ⟨moved more, bound⟩

end Statement

namespace Script

open Overlap
open Statement (UserNames OpenEnded)

variable {neovim : Bool} {s t : Source} {w : Overlap s t} {known known' names names' : UserNames} {base : List Node}
  {blocks b c : Blocks} {edits : List Edit} {i p q : Nat}

/-! ### The points of one run -/

theorem Reaches.bound (h : Reaches neovim s known edits names blocks i) : i ≤ s.size := by
  cases h with
  | start => exact Nat.zero_le _
  | step before more read => exact (Statement.read_moves more read).2

/-- From a point it has reached a run goes on within its bound. -/
theorem Reaches.readWith_eq (h : Reaches neovim s known edits names blocks i) :
    ∃ n, s.size < n + i ∧ readWith neovim known s = statements neovim s n names blocks i := by
  induction h with
  | start => exact ⟨s.size + 2, by omega, rfl⟩
  | step before more read ih =>
    obtain ⟨n, enough, same⟩ := ih
    obtain ⟨n, rfl⟩ : ∃ m, n = m + 1 := ⟨n - 1, by omega⟩
    have moved := (Statement.read_moves more read).1
    refine ⟨n, by omega, ?_⟩
    rw [same, statements, if_neg (by omega), read]

/-! ### Runs over a shared text -/

theorem finish_follows (alike : w.AlikeBlocks base b c) (inside : w.Inside p) :
    w.Follows p (finish b) (finish c)
      fun n m _ => n.kind.seenOver w.leftSight base = m.kind.seenOver w.rightSight [] := by
  apply Follows.here
  rw [alike.sameTypes.missing?]
  cases c.missing? .script with
  | some missing => exact .fail (w.places p inside)
  | none =>
    obtain ⟨left⟩ := b
    obtain ⟨right⟩ := c
    have piles := congrArg Blocks.stack alike
    cases left with
    | nil =>
      obtain rfl : right = [] := by simpa [Blocks.seenOver] using piles
      exact .fail (w.places p inside)
    | cons top outer =>
      cases right with
      | nil => simp [Blocks.seenOver] at piles
      | cons top' outer' =>
        simp only [Blocks.seenOver, List.map_cons, List.cons.injEq] at piles
        have kinds := congrArg Node.kind piles.1
        exact .pure kinds

theorem statements_concur (neovim : Bool) (complete : w.Complete) (compared : w.faults) (unset : w.SamePosition .unset .unset)
    (n m : Nat) (left : Blocks.Stands b.stack) (right : Blocks.Stands c.stack)
    (alike : w.AlikeBlocks base b c) (records : w.Records known known') (bound : p ≤ w.text.length)
    (enough : w.text.length < n + p) (enough' : w.text.length < m + p) :
    w.Concurs (fun n m => n.kind.seenOver w.leftSight base = m.kind.seenOver w.rightSight [])
      (statements neovim s n known b (w.left + p)).1 (statements neovim t m known' c (w.right + p)).1 := by
  -- Both fuels outlast the text, since every statement takes at least one character of it.
  induction n generalizing m known known' b c p with
  | zero => omega
  | succ n ih =>
    obtain ⟨m, rfl⟩ : ∃ k, m = k + 1 := ⟨m - 1, by omega⟩
    have size := SharedText.leftSize complete.1
    have size' := SharedText.rightSize complete
    have inside := SharedText.inside_of_complete complete bound
    rw [statements, statements]
    by_cases last : w.text.length ≤ p
    · rw [if_pos (by omega), if_pos (by omega)]
      have ended := finish_follows alike inside
      unfold Follows at ended
      cases run : finish b s (w.left + p) with
      | ok root j =>
        rw [run] at ended
        obtain ⟨root', q, -, other, kinds⟩ := ended
        rw [other]
        exact kinds
      | fail e j =>
        rw [run] at ended
        obtain ⟨e', q, -, other, faults⟩ := ended compared
        rw [other]
        exact faults
      | spent =>
        rw [run] at ended
        exact ended.elim
    · rw [if_neg (by omega), if_neg (by omega)]
      have spares : Statement.Spares w (w.text.length + 1) p (Statement.read ⟨neovim, known, b⟩) := .inl complete
      have step := Statement.read_follows unset spares records alike.sameTypes inside
      unfold Follows at step
      cases run : Statement.read ⟨neovim, known, b⟩ s (w.left + p) with
      | ok effect j =>
        rw [run] at step
        obtain ⟨effect', q, rfl, other, effects, bound', more⟩ := step
        have ok := (Statement.read_delivers _).of_ok run
        have ok' := (Statement.read_delivers _).of_ok other
        have moved := more (by omega)
        rw [other]
        exact ih m (left.editAll ok).1 (right.editAll ok').1 (alike.editAll left right ok ok' effects.edits) effects.known
          bound' (by omega) (by omega)
      | fail e j =>
        rw [run] at step
        obtain ⟨e', q, -, other, faults⟩ := step compared
        rw [other]
        exact faults
      | spent =>
        rw [run] at step
        exact step.elim

/-- Where a buffer ends with the whole of another, a run over it that has come so far goes on as the run over the other
one does, if the blocks look alike. -/
theorem Reaches.concurs (h : Reaches neovim t known' edits names c w.right) (complete : w.Complete) (compared : w.faults)
    (unset : w.SamePosition .unset .unset) (left : w.left = 0) (alike : w.AlikeBlocks base (.start (s.position 0)) c)
    (records : w.Records known names) :
    w.Concurs (fun n m => n.kind.seenOver w.leftSight base = m.kind.seenOver w.rightSight [])
      (readWith neovim known s).1 (readWith neovim known' t).1 := by
  have size : s.size = 0 + w.text.length := left ▸ SharedText.leftSize complete.1
  have size' := SharedText.rightSize complete
  obtain ⟨n, enough, goes⟩ := h.readWith_eq
  have begins : Reaches neovim s known [] known (.start (s.position 0)) 0 := .start
  have concur := statements_concur (p := 0) neovim complete compared unset (s.size + 2) n begins.stands h.stands alike
    records (Nat.zero_le _) (by omega) (by omega)
  rw [left] at concur
  rw [goes]
  exact concur

/-- A run on the text is followed in the other buffer, as long as it meets no command that reads on past the text: the
first buffer ends with the text and there is no command that may go on, or it goes on and the run has not left the
text. -/
theorem Reaches.follows (unset : w.SamePosition .unset .unset) (left : w.left = 0) (right : w.right = 0)
    (start : w.AlikeBlocks [] (.start (s.position 0)) (.start (t.position 0)))
    (h : Reaches neovim s known edits names b i)
    (spared : w.Ends ∧ ¬OpenEnded edits ∨ w.leftRest ≠ [] ∧ i ≤ w.text.length) :
    ∃ edits' names' c, Reaches neovim t known edits' names' c i ∧ w.AlikeBlocks [] b c ∧ w.Records names names' := by
  induction h with
  | start => exact ⟨[], known, _, .start, start, .inl rfl⟩
  | @step edits names b i j effect before more read ih =>
    have moved := (Statement.read_moves more read).1
    have here : w.left + i = i := by omega
    have there : w.right + i = i := by omega
    have earlier : w.Ends ∧ ¬OpenEnded edits ∨ w.leftRest ≠ [] ∧ i ≤ w.text.length := by
      refine spared.imp ?_ fun ⟨goes, within⟩ => ⟨goes, by omega⟩
      exact fun ⟨alone, bounded⟩ => ⟨alone, fun ⟨e, place, unbounded⟩ =>
        bounded ⟨e, List.mem_append_left _ place, unbounded⟩⟩
    have now : w.Ends ∧ ¬OpenEnded effect.edits ∨ w.leftRest ≠ [] ∧ j < w.left + (w.text.length + 1) := by
      refine spared.imp ?_ fun ⟨goes, within⟩ => ⟨goes, by omega⟩
      exact fun ⟨alone, bounded⟩ => ⟨alone, fun ⟨e, place, unbounded⟩ =>
        bounded ⟨e, List.mem_append_right _ place, unbounded⟩⟩
    have less : i < w.text.length := by
      rcases spared with ⟨alone, -⟩ | ⟨-, within⟩
      · have size := SharedText.leftSize alone.1
        omega
      · omega
    obtain ⟨edits', names', c, reached, alike, records⟩ := ih earlier
    have step := Statement.read_follows unset (.inr ⟨effect, j, by rw [here, read], now⟩) records alike.sameTypes (.inl less)
    rw [Follows, here, read] at step
    obtain ⟨effect', q, same, other, effects, -, -⟩ := step
    have same' : w.right + q = j := by omega
    rw [there, same'] at other
    have ok := (Statement.read_delivers _).of_ok read
    have ok' := (Statement.read_delivers _).of_ok other
    refine ⟨_, _, _, reached.step (by have := w.length_le_rightSize; omega) other, ?_, effects.known⟩
    exact alike.editAll before.stands reached.stands ok ok' effects.edits

end Script

end VimScript
