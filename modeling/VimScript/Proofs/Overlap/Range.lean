import VimScript.Proofs.Overlap.Argument
import VimScript.Proofs.Script.Initials
import VimScript.Statement.Modifier
import VimScript.Statement.Name
import VimScript.Statement.Range

/-!
What stands before the argument of a command: modifiers, a range and a name. On a shared text they are the same in both
buffers.
-/

set_option autoImplicit false

namespace VimScript.Statement

open Overlap Scan
open SharedText (inside_succ lt_of_getElem?)

variable {s t : Source} {w : Overlap s t} {p q : Nat}

/-! ### Ranges -/

instance (found : List String) : Steady (offsets found) where
  follows w p inside := by
    apply Follows.loop (fun v u q => v = u ∧ w.Inside q) ⟨rfl, inside⟩ inside.le
    rintro found _ q later ⟨rfl, inside'⟩
    apply Follows.skip inside'
    intro _ r inside₁ later₁ _
    apply (takeInteger_follows inside₁).bind
    rintro number _ r₂ ⟨rfl, inside₂, length⟩ -
    apply Follows.ite
    · intro _
      exact .pure ⟨rfl, inside₂, by omega⟩
    · intro solid
      have some : number.length ≠ 0 := fun none => solid (by simpa using none)
      exact .pure ⟨by omega, inside₂.le, rfl, inside₂⟩

/-- A search takes its delimiter at least. -/
theorem addressBase_follows (inside : w.Inside p) :
    w.Follows p addressBase addressBase fun v u q => v = u ∧ w.Inside q ∧ p ≤ q ∧
      (w.text[p]? = some '/' ∨ w.text[p]? = some '?' → p < q) := by
  have search (delimiter : Char) (char : w.text[p]? = some delimiter) (line : delimiter ≠ '\n') :
      let x : Scan (List String) := do
        let _ ← Scan.take 1
        let found ← pattern delimiter
        return [found.1]
      w.Follows p x x fun v u q => v = u ∧ w.Inside q ∧ p ≤ q ∧
        (w.text[p]? = some '/' ∨ w.text[p]? = some '?' → p < q) := by
    apply Follows.takeSome char line (by decide)
    intro _ q inside₁ more
    apply Follows.skip inside₁
    intro found r inside₂ later₂ _
    exact .pure ⟨rfl, inside₂, by omega, fun _ => by omega⟩
  have single {c : Char} (char : w.text[p]? = some c) (line : c ≠ '\n') :
      let x : Scan (List String) := do return [← Scan.take 1]
      w.Follows p x x fun v u q => v = u ∧ w.Inside q ∧ p ≤ q ∧
        (w.text[p]? = some '/' ∨ w.text[p]? = some '?' → p < q) := by
    apply Follows.takeSome char line (by decide)
    intro _ q inside₁ more
    exact .pure ⟨rfl, inside₁, by omega, fun _ => more⟩
  apply Follows.peekInLine inside
  intro c inLine
  split
  · exact single ((inLine _).mp rfl).1 ((inLine _).mp rfl).2
  · exact single ((inLine _).mp rfl).1 ((inLine _).mp rfl).2
  · obtain ⟨char, line⟩ := (inLine _).mp rfl
    apply Follows.takeSome char line (by decide)
    intro _ q inside₁ more
    apply Follows.skip inside₁
    intro mark r inside₂ later₂ _
    exact .pure ⟨rfl, inside₂, by omega, fun _ => by omega⟩
  · exact search '/' ((inLine _).mp rfl).1 ((inLine _).mp rfl).2
  · exact search '?' ((inLine _).mp rfl).1 ((inLine _).mp rfl).2
  · obtain ⟨char, line⟩ := (inLine _).mp rfl
    have double :
        let x : Scan (List String) := do return [← Scan.take 2]
        w.Follows p x x fun v u q => v = u ∧ w.Inside q ∧ p ≤ q ∧
          (w.text[p]? = some '/' ∨ w.text[p]? = some '?' → p < q) := by
      apply Follows.takeSome char line (by decide)
      intro _ q inside₁ more
      exact .pure ⟨rfl, inside₁, by omega, fun _ => more⟩
    apply Follows.peekAt 1
    intro d d' same
    obtain ⟨rfl, -⟩ := same (inside_succ char line)
    split
    · exact double
    · exact double
    · exact double
    · exact .failHere inside
  · rename_i notSlash notQuestion _
    have plain : ¬(w.text[p]? = some '/' ∨ w.text[p]? = some '?') := by
      rintro (slash | question)
      · exact notSlash ((inLine _).mpr ⟨slash, by decide⟩)
      · exact notQuestion ((inLine _).mpr ⟨question, by decide⟩)
    apply Follows.ite
    · intro digit
      apply Follows.skip inside
      intro digits q inside₁ later₁ _
      exact .pure ⟨rfl, inside₁, later₁, fun search => absurd search plain⟩
    · intro _
      exact .pure ⟨rfl, inside, Nat.le_refl p, fun search => absurd search plain⟩

instance (found : List String) : Steady (address found) where
  follows w p inside := by
    apply Follows.loop (fun v u q => v = u ∧ w.Inside q) ⟨rfl, inside⟩ inside.le
    rintro found _ q later ⟨rfl, inside'⟩
    apply Follows.skip inside'
    intro _ r inside₁ later₁ _
    apply (addressBase_follows inside₁).bind
    rintro base _ r₂ ⟨rfl, inside₂, later₂, search⟩ -
    apply Follows.skip inside₂
    intro found r₃ inside₃ later₃ _
    apply Follows.peek inside₃
    intro c char
    apply Follows.ite
    · intro again
      -- Another search follows; had nothing been read before it, it would have been read already.
      have delimiter : c = some '/' ∨ c = some '?' := by simpa using again
      have moved : q < r₃ := by
        by_contra still
        have all : r = r₃ := by omega
        have more := search (by rw [all, char]; exact delimiter)
        omega
      exact .pure ⟨moved, inside₃.le, rfl, inside₃⟩
    · intro _
      exact .pure ⟨rfl, inside₃, by omega⟩

instance : Steady range where
  follows w p inside := by
    apply Follows.loop (fun v u q => v = u ∧ w.Inside q) ⟨rfl, inside⟩ inside.le
    rintro found _ q later ⟨rfl, inside'⟩
    apply Follows.skip inside'
    intro found r inside₁ later₁ _
    apply Follows.through (w.Kept r Eq)
    · apply Follows.peekInLine inside₁
      intro c _
      split
      · apply Follows.skip inside₁
        intro text r₂ inside₂ later₂ _
        exact .pure ⟨rfl, inside₂, later₂⟩
      · apply Follows.skip inside₁
        intro text r₂ inside₂ later₂ _
        exact .pure ⟨rfl, inside₂, later₂⟩
      · exact .pure ⟨rfl, inside₁, Nat.le_refl r⟩
    · rintro whole _ r₂ ⟨rfl, inside₂, later₂⟩ -
      apply Follows.peekInLine inside₂
      intro c inLine
      split
      · obtain ⟨char, line⟩ := (inLine _).mp rfl
        apply Follows.takeSome char line (by decide)
        intro separator r₃ inside₃ more₃
        exact .pure ⟨by omega, inside₃.le, rfl, inside₃⟩
      · obtain ⟨char, line⟩ := (inLine _).mp rfl
        apply Follows.takeSome char line (by decide)
        intro separator r₃ inside₃ more₃
        exact .pure ⟨by omega, inside₃.le, rfl, inside₃⟩
      · exact .pure ⟨rfl, inside₂, by omega⟩

/-! ### Modifiers -/

/-- Blanks are skipped only where there are some. -/
theorem eq_of_solid {c : Char} {r : Nat} (char : w.text[p]? = some c) (solid : CharClass.white.has c = false)
    (skipped : Scan.skipWhite s (w.left + p) = .ok () (w.left + r)) : r = p := by
  have head : CharClass.white.hasOpt (s.ahead (w.left + p)).head? = false := by
    rw [← Source.char?_eq, SharedText.leftChar (.inl (lt_of_getElem? char)), char]
    exact solid
  have still := (Scan.skipWhite_of_solid rfl head).symm.trans skipped
  have places := (Reply.ok.inj still).2
  omega

theorem modifierOf_follows (name digits : String) {after : Option Char} (inside : w.Inside p)
    (bang : after = some '!' → w.text[p]? = some '!') :
    w.Follows p (modifierOf name digits after) (modifierOf name digits after) (w.Kept p Eq) := by
  unfold modifierOf
  split
  · apply Follows.ite
    · intro found
      have char := bang (by simpa using found)
      apply Follows.next inside
      intro c q same _ more _
      obtain rfl : q = p + 1 := more '!' (same.symm.trans char)
      exact .pure ⟨rfl, inside_succ char (by decide), by omega⟩
    · intro _
      exact .pure ⟨rfl, inside, Nat.le_refl p⟩
  · exact .pure ⟨rfl, inside, Nat.le_refl p⟩
  · exact .pure ⟨rfl, inside, Nat.le_refl p⟩
  · exact .pure ⟨rfl, inside, Nat.le_refl p⟩

instance : Steady modifiers where
  follows w p inside := by
    apply Follows.loop (fun v u q => v = u ∧ w.Inside q) ⟨rfl, inside⟩ inside.le
    rintro found _ q later ⟨rfl, inside'⟩
    apply Follows.tell
    apply Follows.through (w.Kept q Eq)
    · apply Follows.peekInLine inside'
      intro c _
      apply Follows.ite
      · intro _
        apply Follows.skip inside'
        intro digits r inside₁ later₁ _
        apply Follows.skip inside₁
        intro _ r₂ inside₂ later₂ _
        exact .pure ⟨rfl, inside₂, by omega⟩
      · intro _
        exact .pure ⟨rfl, inside', Nat.le_refl q⟩
    · rintro digits _ r ⟨rfl, inside₁, later₁⟩ -
      apply Follows.takeClass .alpha inside₁
      intro typed r₂ inside₂ length _
      apply Follows.peekInLine inside₂
      intro after inLine
      apply Follows.skip inside₂
      intro _ r₃ inside₃ later₃ skipped
      have stops (k : Nat) :
          let x (start : Nat) : Scan (Turn (List Modifier) (List Modifier)) := do
            Scan.seek start
            return .done found
          w.Follows k (x (w.left + q)) (x (w.right + q))
            (w.Turned (fun v u q => v = u ∧ w.Inside q) (w.Kept p Eq) q) := by
        apply Follows.seek
        exact .pure ⟨rfl, inside', later⟩
      split
      · exact stops r₃
      · rename_i name known
        have some : typed.toList.length ≠ 0 := by
          intro none
          rw [String.length_toList] at none
          obtain rfl : typed = "" := by simpa using none
          simp [modifierName?_empty] at known
        apply Follows.ite
        · intro _
          exact stops r₃
        · intro _
          have bang : after = Option.some '!' → w.text[r₃]? = Option.some '!' := by
            intro found
            obtain ⟨char, -⟩ := (inLine _).mp found
            rw [eq_of_solid char (by decide) skipped]
            exact char
          apply (modifierOf_follows name digits inside₃ bang).bind
          rintro modifier _ r₄ ⟨rfl, inside₄, later₄⟩ -
          exact .pure ⟨by omega, inside₄.le, rfl, inside₄⟩

/-! ### Names -/

theorem typedName_follows (inside : w.Inside p) :
    w.Follows p typedName typedName fun v u q => v = u ∧ w.Inside q ∧ p ≤ q ∧ (v ≠ "" → p < q) := by
  apply Follows.peekInLine inside
  intro c inLine
  cases c with
  | none => exact .pure ⟨rfl, inside, Nat.le_refl p, fun some => absurd rfl some⟩
  | some c =>
    obtain ⟨char, line⟩ := (inLine c).mp rfl
    have cut (text : String) :
        let x : Scan String := do
          let _ ← Scan.take 1
          return text
        w.Follows p x x fun v u q => v = u ∧ w.Inside q ∧ p ≤ q ∧ (v ≠ "" → p < q) := by
      apply Follows.takeSome char line (by decide)
      intro _ q inside₁ more
      exact .pure ⟨rfl, inside₁, by omega, fun _ => more⟩
    have spans {x : Scan String} (h : w.Follows p x x (w.Spans p)) :
        w.Follows p x x fun v u q => v = u ∧ w.Inside q ∧ p ≤ q ∧ (v ≠ "" → p < q) := by
      apply h.mono
      rintro v _ q ⟨rfl, inside', length⟩
      refine ⟨rfl, inside', by omega, fun some => ?_⟩
      have positive : v.length ≠ 0 := fun none => some (by simpa using none)
      omega
    apply Follows.ite
    · intro _
      exact cut "k"
    · intro _
      apply Follows.peekRun 5 inside
      intro five _
      apply Follows.ite
      · intro _
        exact cut "substitute"
      · intro _
        apply Follows.ite
        · intro _
          exact spans (take_follows 1 inside)
        · intro _
          apply Follows.peekRun 2 inside
          intro two _
          apply Follows.ite
          · intro _
            exact spans (takeClass_follows .alnum inside)
          · intro _
            apply Follows.tell
            apply (takeClass_follows .alpha inside).bind
            rintro name _ q ⟨rfl, inside', length⟩ -
            apply Follows.ite
            · intro _
              apply Follows.seek
              exact spans (take_follows _ inside)
            · intro _
              refine .pure ⟨rfl, inside', by omega, fun some => ?_⟩
              have positive : name.length ≠ 0 := fun none => some (by simpa using none)
              omega

theorem command_follows (neovim : Bool) (known : UserNames) (inside : w.Inside p) :
    w.Follows p (command neovim known) (command neovim known)
      fun v u q => v = u ∧ w.Inside q ∧ p ≤ q ∧ (v.1 ≠ none → p < q) := by
  apply (typedName_follows inside).bind
  rintro typed _ q ⟨rfl, inside', later, more⟩ -
  apply Follows.ite
  · intro _
    exact .pure ⟨rfl, inside', later, fun some => absurd rfl some⟩
  · intro solid
    have moved := more fun none => solid (by simp [none])
    apply Follows.ite
    · intro _
      apply Follows.ite
      · intro _
        exact .pure ⟨rfl, inside', later, fun _ => moved⟩
      · intro _
        apply Follows.skip inside'
        intro digits r inside₁ later₁ _
        exact .pure ⟨rfl, inside₁, by omega, fun _ => by omega⟩
    · intro _
      exact .pure ⟨rfl, inside', later, fun _ => moved⟩

instance (neovim : Bool) (known : UserNames) : Steady (command neovim known) where
  follows w p inside := by
    apply (command_follows neovim known inside).mono
    rintro v u q ⟨same, inside', later, -⟩
    exact ⟨same, inside', later⟩

end VimScript.Statement
