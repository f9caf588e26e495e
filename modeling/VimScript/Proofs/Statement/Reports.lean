import VimScript.Proofs.Overlap.Mirror
import VimScript.Proofs.Statement.Order

/-!
Where the faults of statements are reported. Every fault has a position of the buffer, although that of a command or of
its argument is read long before the fault is met.
-/

set_option autoImplicit false

namespace VimScript

namespace Scan

open Overlap (Steady mirror)

variable {α β : Type} {x : Scan α} {f : α → Scan β} {s : Source} {i : Nat}

/-- Whatever is wrong is reported at a position of the buffer. -/
def Reports (x : Scan α) (s : Source) (i : Nat) : Prop :=
  ∀ e j, x s i = .fail e j → e.position.IsOf s

theorem Reports.bind (first : x.Reports s i) (second : ∀ a j, x s i = .ok a j → (f a).Reports s j) :
    (x >>= f).Reports s i := by
  intro e k run
  rcases bind_fail.mp run with fault | ⟨a, j, left, right⟩
  · exact first e k fault
  · exact second a j left e k right

theorem Reports.of_faultless [quiet : Faultless x] : x.Reports s i :=
  fun _ _ run => (quiet.delivers.of_fail run).elim

theorem Reports.skip [Faultless x] (second : ∀ a j, x s i = .ok a j → (f a).Reports s j) : (x >>= f).Reports s i :=
  .bind .of_faultless second

theorem Reports.ite {p : Prop} [Decidable p] {y : Scan α} (yes : p → x.Reports s i) (no : ¬p → y.Reports s i) :
    (if p then x else y).Reports s i := by
  split
  · exact yes ‹_›
  · exact no ‹_›

theorem Reports.fail {cause : Cause} {position : Position} (place : position.IsOf s) :
    (Scan.fail cause position : Scan α).Reports s i := by
  rintro _ _ ⟨⟩
  exact place

/-- The buffer beside itself, where positions are moved to the nearest one of the buffer. -/
abbrev settled (s : Source) : Overlap s s :=
  mirror s s.settle fun _ => Source.settle_position

/-- A scan that looks the same where positions are moved reports none that would be moved. -/
theorem Reports.of_follows {mid : α → α → Nat → Prop} (h : (settled s).Follows i x x mid) : x.Reports s i := by
  intro e j run
  have here : (settled s).left + i = i := Nat.zero_add i
  have there : (settled s).right + i = i := Nat.zero_add i
  rw [Overlap.Follows, here, there, run] at h
  -- On the other side the same fault is met, seen at the moved position.
  obtain ⟨e', q, -, same, -, position⟩ := h ⟨rfl, rfl⟩
  obtain ⟨rfl, -⟩ := Reply.fail.inj same
  exact Position.isOf_of_settle position.symm

theorem Reports.steady [steady : Steady x] (bound : i ≤ s.size) : x.Reports s i :=
  .of_follows (steady.follows (settled s) i (Overlap.inside_mirror bound))

end Scan

namespace Statement

open Overlap Scan

variable {s : Source} {setting : Setting} {blocks : Blocks} {inv : Invocation} {i : Nat}

theorem invoked_reports (command : Command) (bound : i ≤ s.size)
    (start : ∃ c, s.char? inv.linePos.cursor = some c ∧ c ≠ '\n') (linePos : inv.linePos.IsOf s)
    (commandPos : inv.commandPos.IsOf s) (later : inv.linePos.cursor < i) :
    (invoked blocks inv command).Reports s i := by
  -- The argument is put in its place before it is looked at.
  let placed : Invocation := { inv with argumentPos := inv.commandPos }
  have same : invoked blocks placed command = invoked blocks inv command := rfl
  have fixed {p : Position} (place : p.IsOf s) : s.settle p = p := by
    rw [place.place, Source.settle_position place.bound]
  have aligned : (settled s).Aligned inv.linePos.cursor placed placed := by
    refine ⟨?_, (Nat.zero_add _).symm, (Nat.zero_add _).symm⟩
    have seen : placed.placed s.settle = placed := by
      simp only [placed, Invocation.placed, fixed linePos, fixed commandPos]
    exact seen.symm
  have started : (settled s).Started inv.linePos.cursor := by
    obtain ⟨c, char, line⟩ := start
    refine ⟨c, ?_, line⟩
    rw [← char]
    exact Array.getElem?_toList
  rw [← same]
  exact .of_follows (invoked_follows (.inl (.inl ⟨rfl, rfl⟩)) rfl aligned started (inside_mirror bound) later)

theorem commandPart_reports (bound : i ≤ s.size) (start : ∃ c, s.char? inv.linePos.cursor = some c ∧ c ≠ '\n')
    (linePos : inv.linePos.IsOf s) (later : inv.linePos.cursor ≤ i) : (commandPart setting inv).Reports s i := by
  refine .skip fun _ k skipped => .skip fun position l told => .skip fun c m peeked => ?_
  obtain ⟨after, inside⟩ := Steady.moves bound skipped
  obtain ⟨rfl, rfl⟩ := Reply.ok.inj told
  obtain ⟨-, rfl⟩ := Reply.ok.inj peeked
  refine .ite (fun _ => ?_) fun _ => .bind (.steady inside) fun found m run => ?_
  · exact .ite (fun _ => .of_faultless) fun _ => .bind (.skip fun _ _ _ => .of_faultless) fun _ _ _ => .of_faultless
  obtain ⟨-, -, -, -, -, moved⟩ := (command_follows setting.neovim setting.known (inside_whole inside)).of_whole run
  obtain ⟨-, inside'⟩ := Steady.moves inside run
  obtain ⟨_ | command, names⟩ := found
  · exact .skip fun _ _ _ => .skip fun _ _ _ => .fail (Source.position_isOf inside)
  have more : k < m := moved (by simp)
  refine .bind ?_ fun _ _ _ => .of_faultless
  exact invoked_reports command inside' start linePos (Source.position_isOf inside) (by dsimp only; omega)

theorem commandLine_reports (start : ∃ c, s.char? i = some c ∧ c ≠ '\n') : (commandLine setting).Reports s i := by
  have bound : i ≤ s.size := by
    obtain ⟨c, char, -⟩ := start
    exact Nat.le_of_lt (Array.getElem?_eq_some_iff.mp char).1
  refine .skip fun position l told => ?_
  obtain ⟨rfl, rfl⟩ := Reply.ok.inj told
  refine .bind (.steady bound) fun modifiers k run => ?_
  obtain ⟨later, within⟩ := Steady.stays bound run
  obtain ⟨-, inside⟩ := Steady.moves bound run
  refine .bind (.steady inside) fun range l run' => ?_
  obtain ⟨later', within'⟩ := Steady.stays inside run'
  obtain ⟨-, inside'⟩ := Steady.moves inside run'
  have onLine : l ≤ lineEnd s i := by
    rw [← lineEnd_eq_of_le later within]
    exact within'
  have placed := Source.position_isOf bound
  refine .bind (commandPart_reports inside' start placed (Nat.le_trans later later')) fun effect m run'' => ?_
  have stepped := commandPart_gives inside' (Nat.le_trans later later') onLine rfl effect m run''
  exact .bind (.of_follows (trail_follows (inside_mirror stepped.bound))) fun _ _ _ => .of_faultless

theorem read_reports (bound : i ≤ s.size) : (read setting).Reports s i := by
  refine .skip fun two k peeked => ?_
  obtain ⟨-, inside⟩ := Steady.moves bound peeked
  refine .ite (fun _ => .skip fun _ _ _ => .of_faultless) fun _ => .skip fun _ l skipped => .skip fun c m peeked' => ?_
  obtain ⟨rfl, rfl⟩ := Reply.ok.inj peeked'
  split
  · exact .skip fun _ _ _ => .of_faultless
  · refine .bind (.skip fun _ _ _ => .skip fun _ _ _ => .skip fun _ _ _ => .of_faultless) fun _ _ _ => ?_
    exact .skip fun _ _ _ => .of_faultless
  · rename_i some _
    obtain ⟨d, found⟩ := Option.ne_none_iff_exists'.mp some
    obtain ⟨char, line⟩ := Option.filter_eq_some_iff.mp found
    exact commandLine_reports ⟨d, char, by simpa using line⟩

end Statement

end VimScript
