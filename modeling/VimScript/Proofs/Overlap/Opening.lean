import VimScript.Proofs.Overlap.Argument
import VimScript.Statement

/-!
What some commands take before their argument, on a shared text: options of files, a command to run in them, and the
signs that turn files into shell commands. An invocation is changed alike on both sides.
-/

set_option autoImplicit false

namespace VimScript

namespace Overlap

variable {s t : Source} {w : Overlap s t} {l a : Nat} {inv inv' : Invocation}

/-- A change that concerns neither the positions nor what they are seen as. -/
theorem Paired.update (h : w.Paired l a inv inv') (f : Invocation → Invocation)
    (commutes : ∀ g inv, (f inv).placed g = f (inv.placed g)) (line : ∀ inv, (f inv).linePos = inv.linePos)
    (argument : ∀ inv, (f inv).argumentPos = inv.argumentPos) : w.Paired l a (f inv) (f inv') where
  placed := by rw [commutes, commutes, h.placed]
  leftLine := by rw [line, h.leftLine]
  rightLine := by rw [line, h.rightLine]
  leftArgument := by rw [argument, h.leftArgument]
  rightArgument := by rw [argument, h.rightArgument]

end Overlap

namespace Statement

open Overlap Scan
open SharedText (inside_succ lt_of_getElem?)

variable {s t : Source} {w : Overlap s t} {p q l a : Nat} {inv inv' : Invocation}

theorem updated (h : w.Paired l a inv inv') (f : Invocation → Invocation) (inside : w.Inside q) (later : p ≤ q)
    (commutes : ∀ g inv, (f inv).placed g = f (inv.placed g)) (line : ∀ inv, (f inv).linePos = inv.linePos)
    (argument : ∀ inv, (f inv).argumentPos = inv.argumentPos) :
    w.Follows q (Pure.pure (f inv)) (Pure.pure (f inv')) (w.Kept p (w.Paired l a)) :=
  .pure ⟨h.update f commutes line argument, inside, later⟩

theorem fileOption_follows (h : w.Paired l a inv inv') (plus : w.text[p]? = some '+') :
    w.Follows p (fileOption inv) (fileOption inv') fun v u q => w.Paired l a v u ∧ w.Inside q ∧ p < q := by
  have inside : w.Inside p := .inl (lt_of_getElem? plus)
  have flag (n : Nat) (positive : 0 < n) (f : Invocation → Invocation)
      (commutes : ∀ g inv, (f inv).placed g = f (inv.placed g)) (line : ∀ inv, (f inv).linePos = inv.linePos)
      (argument : ∀ inv, (f inv).argumentPos = inv.argumentPos) :
      let x (inv : Invocation) : Scan Invocation := do
        let _ ← Scan.take n
        return f inv
      w.Follows p (x inv) (x inv') fun v u q => w.Paired l a v u ∧ w.Inside q ∧ p < q := by
    apply Follows.takeSome plus (by decide) positive
    intro _ q inside' more
    exact .pure ⟨h.update f commutes line argument, inside', more⟩
  have valued (n : Nat) (positive : 0 < n) (x : Scan String) [Steady x] (f : String → Invocation → Invocation)
      (commutes : ∀ v g inv, (f v inv).placed g = f v (inv.placed g)) (line : ∀ v inv, (f v inv).linePos = inv.linePos)
      (argument : ∀ v inv, (f v inv).argumentPos = inv.argumentPos) :
      let x (inv : Invocation) : Scan Invocation := do
        let _ ← Scan.take n
        return f (← x) inv
      w.Follows p (x inv) (x inv') fun v u q => w.Paired l a v u ∧ w.Inside q ∧ p < q := by
    apply Follows.takeSome plus (by decide) positive
    intro _ q inside' more
    apply Follows.skip inside'
    intro value r inside'' later _
    exact .pure ⟨h.update (f value) (commutes value) (line value) (argument value), inside'', by omega⟩
  apply Follows.peekRun 20 inside
  intro ahead _
  dsimp only
  apply Follows.ite
  · intro _
    exact flag 5 (by decide) (fun inv => { inv with binary := some .bin }) (fun _ _ => rfl) (fun _ => rfl) fun _ => rfl
  intro _
  apply Follows.ite
  · intro _
    exact flag 7 (by decide) (fun inv => { inv with binary := some .noBin }) (fun _ _ => rfl) (fun _ => rfl) fun _ => rfl
  intro _
  apply Follows.ite
  · intro _
    exact flag 6 (by decide) (fun inv => { inv with readEdit := true }) (fun _ _ => rfl) (fun _ => rfl) fun _ => rfl
  intro _
  apply Follows.ite
  · intro _
    exact valued 5 (by decide) _ (fun v inv => { inv with fileFormat := some v }) (fun _ _ _ => rfl) (fun _ _ => rfl) fun _ _ => rfl
  intro _
  apply Follows.ite
  · intro _
    exact valued 13 (by decide) _ (fun v inv => { inv with fileFormat := some v }) (fun _ _ _ => rfl) (fun _ _ => rfl) fun _ _ => rfl
  intro _
  apply Follows.ite
  · intro _
    exact valued 6 (by decide) _ (fun v inv => { inv with encoding := some v }) (fun _ _ _ => rfl) (fun _ _ => rfl) fun _ _ => rfl
  intro _
  apply Follows.ite
  · intro _
    exact valued 11 (by decide) _ (fun v inv => { inv with encoding := some v }) (fun _ _ _ => rfl) (fun _ _ => rfl) fun _ _ => rfl
  intro _
  apply Follows.ite
  · intro _
    exact valued 6 (by decide) _ (fun v inv => { inv with badChar := some v }) (fun _ _ _ => rfl) (fun _ _ => rfl) fun _ _ => rfl
  intro _
  exact .failHere inside

theorem fileOptions_follows (h : w.Paired l a inv inv') (inside : w.Inside p) :
    w.Follows p (fileOptions inv) (fileOptions inv') (w.Kept p (w.Paired l a)) := by
  apply Follows.loop (fun v u q => w.Paired l a v u ∧ w.Inside q) ⟨h, inside⟩ inside.le
  rintro v u q later ⟨paired, inside'⟩
  apply Follows.peek inside'
  intro c char
  apply Follows.peekAt 1
  intro d d' same
  by_cases plus : c = some '+'
  · rw [plus] at char ⊢
    obtain ⟨rfl, -⟩ := same (inside_succ char (by decide))
    apply Follows.ite
    · intro _
      apply (fileOption_follows paired char).bind
      rintro v u r ⟨paired, inside₁, more⟩ -
      apply Follows.skip inside₁
      intro _ r₂ inside₂ later₂ _
      exact .pure ⟨by omega, inside₂.le, paired, inside₂⟩
    · intro _
      exact .pure ⟨paired, inside', later⟩
  · have other : (c == some '+') = false := by simpa using plus
    simp only [other, Bool.false_and, Bool.false_eq_true, if_false]
    exact .pure ⟨paired, inside', later⟩

instance : Steady startCommandText where
  follows w p inside := by
    apply Follows.loop (fun v u q => v = u ∧ w.Inside q) ⟨rfl, inside⟩ inside.le
    rintro text _ q later ⟨rfl, inside'⟩
    apply Follows.peekInLine inside'
    intro c inLine
    apply Follows.ite
    · intro _
      exact .pure ⟨rfl, inside', later⟩
    · intro goes
      obtain ⟨c, rfl⟩ : ∃ c', c = some c' := Option.ne_none_iff_exists'.mp fun none => goes (by simp [none])
      obtain ⟨char, line⟩ := (inLine c).mp rfl
      have next := inside_succ char line
      have again (text : List Char) : w.Follows (q + 1) (Pure.pure (Turn.again text)) (Pure.pure (Turn.again text))
          (w.Turned (fun v u q => v = u ∧ w.Inside q) (w.Kept p (@Eq String)) q) :=
        .pure ⟨by omega, next.le, rfl, next⟩
      apply Follows.next inside'
      intro _ r found _ more _
      obtain rfl : r = q + 1 := more c (found.symm.trans char)
      split
      · apply Follows.peekInLine next
        intro d inLine'
        cases d with
        | none => exact again text
        | some d =>
          obtain ⟨char', line'⟩ := (inLine' d).mp rfl
          have next' := inside_succ char' line'
          apply Follows.next next
          intro _ r found _ more _
          obtain rfl : r = q + 1 + 1 := more d (found.symm.trans char')
          exact .pure ⟨by omega, next'.le, rfl, next'⟩
      · exact again (_ :: text)
      · contradiction

theorem startCommand_follows (h : w.Paired l a inv inv') (inside : w.Inside p) :
    w.Follows p (startCommand inv) (startCommand inv') (w.Kept p (w.Paired l a)) := by
  apply Follows.peekInLine inside
  intro c _
  apply Follows.ite
  · intro _
    apply Follows.skip inside
    intro _ q inside₁ later₁ _
    apply Follows.peekInLine inside₁
    intro d _
    apply Follows.ite
    · intro _
      exact updated h (fun inv => { inv with startCommand := some "$" }) inside₁ later₁ (fun _ _ => rfl) (fun _ => rfl) fun _ => rfl
    · intro _
      apply Follows.skip inside₁
      intro text r inside₂ later₂ _
      exact updated h (fun inv => { inv with startCommand := some text }) inside₂ (by omega) (fun _ _ => rfl) (fun _ => rfl) fun _ => rfl
  · intro _
    exact .pure ⟨h, inside, Nat.le_refl p⟩

theorem leadIn_follows (h : w.Paired l a inv inv') (inside : w.Inside p) :
    w.Follows p (leadIn inv) (leadIn inv') (w.Kept p (w.Paired l a)) := by
  have bang : inv.bang = inv'.bang := h.field Invocation.bang fun _ _ => rfl
  -- The marks before an argument that a group of commands looks for change flags and nothing else.
  have stays : w.Follows p (Pure.pure inv) (Pure.pure inv') (w.Kept p (w.Paired l a)) := .pure ⟨h, inside, Nat.le_refl p⟩
  have shell : w.Follows p (do let _ ← Scan.take 1; return { inv with filter := true })
      (do let _ ← Scan.take 1; return { inv' with filter := true }) (w.Kept p (w.Paired l a)) := by
    apply Follows.skip inside
    intro _ q inside' later _
    exact updated h (fun inv => { inv with filter := true }) inside' later (fun _ _ => rfl) (fun _ => rfl) fun _ => rfl
  have shifts :
      let x (name : String) (inv : Invocation) : Scan Invocation := do
        let more ← Scan.takeWhile fun c => name == String.singleton c
        Scan.skipWhite
        return { inv with shift := 1 + more.length }
      w.Follows p (x inv'.name inv) (x inv'.name inv') (w.Kept p (w.Paired l a)) := by
    apply Follows.skip inside
    intro more q inside₁ later₁ _
    apply Follows.skip inside₁
    intro _ r inside₂ later₂ _
    exact updated h (fun inv => { inv with shift := 1 + more.length }) inside₂ (by omega) (fun _ _ => rfl) (fun _ => rfl) fun _ => rfl
  have write :
      let x (name : String) (inv : Invocation) : Scan Invocation := do
        let c ← Scan.peek
        if c == some '>' then
          if (← Scan.peekAt 1) != some '>' then
            Scan.fail .badAppendRedirect inv.commandPos
          Scan.skip 2
          Scan.skipWhite
          return { inv with append := true }
        else if c == some '!' && name == "write" then
          let _ ← Scan.take 1
          return { inv with filter := true }
        else
          return inv
      w.Follows p (x inv'.name inv) (x inv'.name inv') (w.Kept p (w.Paired l a)) := by
    apply Follows.peek inside
    intro c char
    apply Follows.ite
    · intro mark
      obtain rfl : c = some '>' := by simpa using mark
      have next := inside_succ char (by decide)
      apply Follows.peekAt 1
      intro d d' same
      obtain ⟨rfl, char'⟩ := same next
      apply Follows.ite
      · intro _
        exact .stop (.fail h.commandPos)
      · intro second
        obtain rfl : d = some '>' := by simpa using second
        have next' := inside_succ char'.symm (by decide)
        apply Follows.move 2
        apply Follows.skip next'
        intro _ r inside₂ later₂ _
        exact updated h (fun inv => { inv with append := true }) inside₂ (by omega) (fun _ _ => rfl) (fun _ => rfl) fun _ => rfl
    · intro _
      exact .ite (fun _ => shell) fun _ => stays
  have reading :
      let x (bang : Bool) (inv : Invocation) : Scan Invocation := do
        if bang then
          return { inv with filter := true, bang := false }
        else if (← Scan.peekInLine) == some '!' then
          let _ ← Scan.take 1
          return { inv with filter := true }
        else
          return inv
      w.Follows p (x inv.bang inv) (x inv'.bang inv') (w.Kept p (w.Paired l a)) := by
    intro x
    rw [bang]
    apply Follows.ite
    · intro _
      exact updated h (fun inv => { inv with filter := true, bang := false }) inside (Nat.le_refl p) (fun _ _ => rfl)
        (fun _ => rfl) fun _ => rfl
    · intro _
      apply Follows.peekInLine inside
      intro c _
      exact .ite (fun _ => shell) fun _ => stays
  unfold leadIn
  rw [h.name]
  split
  · exact write
  · exact write
  · exact reading
  · exact shifts
  · exact shifts
  · exact stays

end Statement

end VimScript
