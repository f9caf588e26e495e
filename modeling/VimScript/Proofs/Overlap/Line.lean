import VimScript.Proofs.Overlap.Scan
import VimScript.Proofs.Scan.Gives
import VimScript.Proofs.Statement.UserCommand

/-!
Scans that stay on their line, in figures: where one of them ends is between where it starts and the end of that line.
-/

set_option autoImplicit false

namespace VimScript

namespace Statement

variable {s : Source} {i j : Nat}

theorem le_lineEnd (s : Source) (i : Nat) : i ≤ lineEnd s i :=
  Nat.le_add_right i _

/-- A line has one end, wherever one stands on it. -/
theorem lineEnd_eq_of_le (later : i ≤ j) (within : j ≤ lineEnd s i) : lineEnd s j = lineEnd s i := by
  obtain ⟨n, rfl⟩ := Nat.exists_eq_add_of_le later
  induction n generalizing i with
  | zero => rfl
  | succ n ih =>
    cases front : s.ahead i with
    | nil =>
      simp only [lineEnd, front, Source.run, List.takeWhile_nil, List.length_nil] at within
      omega
    | cons c cs =>
      have line : c ≠ '\n' := by
        rintro rfl
        simp only [lineEnd, front, Source.run, List.takeWhile_cons, bne_self_eq_false, Bool.false_and,
          Bool.false_eq_true, if_false, List.length_nil] at within
        omega
      have next := lineEnd_succ front line
      have shift : i + (n + 1) = i + 1 + n := by omega
      rw [shift] at later within ⊢
      rw [ih (Nat.le_add_right _ n) (by omega), next]

end Statement

namespace Overlap

open Statement (lineEnd)

variable {s : Source} {i j : Nat}

/-- A line can be shared with a buffer that goes on in another way, and then all that is inside is on the line. -/
theorem exists_line (bound : i ≤ s.size) :
    ∃ (t : Source) (w : Overlap s t), w.left = i ∧ w.Inside 0 ∧ ∀ q, w.Inside q → i + q ≤ lineEnd s i := by
  let blind : Sight := ⟨fun _ => .unset, fun _ => {}⟩
  obtain ⟨xs, run, spans, -, stop⟩ := Scan.spans_run (fun _ => true) s i
  have last : lineEnd s i = i + xs.length := by rw [lineEnd, run]
  have split := spans.ahead
  cases rest : s.ahead (i + xs.length) with
  | nil =>
    rw [rest] at split
    let w : Overlap s s :=
      { text := xs, left := i, right := i, leftRest := [], rightRest := [], leftAhead := split, rightAhead := split,
        leftBound := bound, rightBound := bound, closed := .inl ⟨rfl, rfl⟩, leftSight := blind, rightSight := blind,
        places := fun _ _ => rfl, invocations := fun _ _ _ => rfl }
    refine ⟨s, w, rfl, SharedText.inside_of_complete ⟨rfl, rfl⟩ (Nat.zero_le _), fun q inside => ?_⟩
    rw [last]
    exact Nat.add_le_add_left inside.le i
  | cons c cs =>
    obtain rfl : c = '\n' := by simpa using stop c (by rw [rest]; rfl)
    rw [rest] at split
    -- Something follows the line in the other buffer, so that the text does not end both.
    let other : Source := ⟨(xs ++ ['\n', ' ']).toArray, #[], ⟨0, 0, 0⟩⟩
    let w : Overlap s other :=
      { text := xs ++ ['\n'], left := i, right := 0, leftRest := cs, rightRest := [' '],
        leftAhead := by rw [split, List.append_assoc]; rfl, rightAhead := by simp [other, Source.ahead],
        leftBound := bound, rightBound := Nat.zero_le _, closed := .inr ⟨xs, rfl⟩, leftSight := blind,
        rightSight := blind, places := fun _ _ => rfl, invocations := fun _ _ _ => rfl }
    refine ⟨other, w, rfl, .inl (by simp [w]), ?_⟩
    rintro q (less | ⟨⟨-, none⟩, -⟩)
    · simp only [w, List.length_append, List.length_cons, List.length_nil] at less
      omega
    · simp [w] at none

/-- A scan ends on the line on which it starts if no shared text tells its two runs apart. -/
theorem stays_of_follows {α : Type} {x : Scan α} {v : α} (bound : i ≤ s.size)
    (follows : ∀ {t : Source} (w : Overlap s t), w.Inside 0 → w.Follows 0 x x fun _ _ q => w.Inside q)
    (run : x s i = .ok v j) : i ≤ j ∧ j ≤ lineEnd s i := by
  obtain ⟨t, w, rfl, start, line⟩ := exists_line bound
  have follows := follows w start
  rw [Follows, Nat.add_zero, run] at follows
  obtain ⟨_, q, rfl, -, inside⟩ := follows
  exact ⟨Nat.le_add_right _ q, line q inside⟩

theorem Steady.stays {α : Type} {x : Scan α} [steady : Steady x] {v : α} (bound : i ≤ s.size) (run : x s i = .ok v j) :
    i ≤ j ∧ j ≤ lineEnd s i :=
  stays_of_follows bound (fun w start => (steady.follows w 0 start).mono fun _ _ _ met => met.2.1) run

theorem Steady.moves {α : Type} {x : Scan α} [steady : Steady x] {v : α} (bound : i ≤ s.size) (run : x s i = .ok v j) :
    i ≤ j ∧ j ≤ s.size := by
  obtain ⟨-, -, -, inside, later⟩ := (steady.follows (whole s) i (inside_whole bound)).of_whole run
  exact ⟨later, inside.le⟩

end Overlap

namespace Scan

open Overlap (Steady whole)

variable {s : Source} {i : Nat} {α β : Type} {x : Scan α} {f : α → Scan β} {post : α → Nat → Prop}
  {final : β → Nat → Prop}

/-- What a scan gives is read off from how it follows itself. -/
theorem Gives.of_whole {y : Scan β} {mid : α → β → Nat → Prop} (h : (whole s).Follows i x y mid)
    (weaken : ∀ v u j, mid v u j → post v j) : x.Gives s i post := by
  intro v j run
  obtain ⟨u, -, met⟩ := h.of_whole run
  exact weaken v u j met

theorem Gives.of_kept {y : Scan β} {r : α → β → Prop} (h : (whole s).Follows i x y ((whole s).Kept i r)) :
    x.Gives s i fun _ j => i ≤ j ∧ j ≤ s.size :=
  .of_whole h fun _ _ _ kept => ⟨kept.2.2, kept.2.1.le⟩

/-- A first scan that stays on its line. -/
theorem Gives.onward [steady : Steady x] (bound : i ≤ s.size)
    (second : ∀ v j, i ≤ j → j ≤ s.size → (f v).Gives s j final) : (x >>= f).Gives s i final := by
  apply Gives.step
  intro v j run
  obtain ⟨later, within⟩ := steady.moves bound run
  exact second v j later within

end Scan

end VimScript
