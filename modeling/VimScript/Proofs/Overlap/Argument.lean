import VimScript.Proofs.Blocks.Sight
import VimScript.Proofs.Overlap.Expression
import VimScript.Statement.Raw
import VimScript.Statement.Trail

/-!
Commands whose argument is kept as text, on a shared text. The argument ends at the same place in both buffers.
Commands that take whole lines may read past the text, so they are followed only where it ends both buffers.
-/

set_option autoImplicit false

namespace VimScript

namespace Overlap

variable {s t : Source} {w : Overlap s t} {l a : Nat} {inv inv' : Invocation}

abbrev AlikeEdits (w : Overlap s t) (es es' : List Edit) : Prop :=
  es.map (Edit.seen w.leftSight) = es'.map (Edit.seen w.rightSight)

/-- A command on either side, with the place where its line starts. -/
structure Aligned (w : Overlap s t) (l : Nat) (inv inv' : Invocation) : Prop where
  placed : inv.placed w.leftSight.position = inv'.placed w.rightSight.position
  leftLine : inv.linePos.cursor = w.left + l
  rightLine : inv'.linePos.cursor = w.right + l

/-- A command on either side, with the place of its argument as well. -/
structure Paired (w : Overlap s t) (l a : Nat) (inv inv' : Invocation) : Prop extends w.Aligned l inv inv' where
  leftArgument : inv.argumentPos.cursor = w.left + a
  rightArgument : inv'.argumentPos.cursor = w.right + a

namespace Aligned

theorem alike (h : w.Aligned l inv inv') : w.leftSight.invocation inv = w.rightSight.invocation inv' :=
  w.invocations inv inv' h.placed

theorem field {α : Type} (f : Invocation → α) (h : w.Aligned l inv inv')
    (kept : ∀ g inv, f (Invocation.placed g inv) = f inv) : f inv = f inv' :=
  (kept _ inv).symm.trans ((congrArg f h.placed).trans (kept _ inv'))

theorem command (h : w.Aligned l inv inv') : inv.command = inv'.command :=
  h.field Invocation.command fun _ _ => rfl

theorem has (h : w.Aligned l inv inv') (flag : Flag) : inv.has flag = inv'.has flag := by
  rw [Invocation.has, Invocation.has, h.command]

theorem name (h : w.Aligned l inv inv') : inv.name = inv'.name := by
  rw [Invocation.name, Invocation.name, h.command]

theorem filter (h : w.Aligned l inv inv') : inv.filter = inv'.filter :=
  h.field Invocation.filter fun _ _ => rfl

theorem commandPos (h : w.Aligned l inv inv') : w.SamePosition inv.commandPos inv'.commandPos :=
  congrArg Invocation.commandPos h.placed

theorem argumentPos (h : w.Aligned l inv inv') : w.SamePosition inv.argumentPos inv'.argumentPos :=
  congrArg Invocation.argumentPos h.placed

end Aligned

/-- Edits on either side, with the cursor past the place where the line started. -/
def Written (w : Overlap s t) (l : Nat) (es es' : List Edit) (q : Nat) : Prop :=
  w.AlikeEdits es es' ∧ w.Inside q ∧ l < q

/-- The line of a command starts with a character of it. -/
def Started (w : Overlap s t) (l : Nat) : Prop :=
  ∃ c, w.text[l]? = some c ∧ c ≠ '\n'

theorem Started.inside (h : w.Started l) : w.Inside l := by
  obtain ⟨c, char, -⟩ := h
  exact .inl (SharedText.lt_of_getElem? char)

theorem alike_add {kind kind' : Kind Node} (h : w.Aligned l inv inv')
    (parts : (kind.map (Node.seen w.leftSight)).mapInvocation w.leftSight.invocation =
      (kind'.map (Node.seen w.rightSight)).mapInvocation w.rightSight.invocation) :
    w.AlikeEdits [.add (.mk inv.commandPos kind)] [.add (.mk inv'.commandPos kind')] := by
  have node := alike_mk h.commandPos parts
  simp only [AlikeEdits, List.map_cons, List.map_nil, Edit.seen, node]

theorem alike_command (text : String) (h : w.Aligned l inv inv') :
    w.AlikeEdits [.add (.command inv text)] [.add (.command inv' text)] :=
  alike_add h (by simp only [Kind.map, Kind.mapInvocation, h.alike])

theorem AlikeEdits.append {es es' ds ds' : List Edit} (first : w.AlikeEdits es es') (second : w.AlikeEdits ds ds') :
    w.AlikeEdits (es ++ ds) (es' ++ ds') := by
  simp only [AlikeEdits, List.map_append] at first second ⊢
  rw [first, second]

end Overlap

namespace Statement

open Overlap Scan
open SharedText (inside_succ lt_of_getElem?)

variable {s t : Source} {w : Overlap s t} {p q l a : Nat} {inv inv' : Invocation}

instance (delimiter : Char) : Steady (pattern delimiter) where
  follows w p inside := by
    apply Follows.tell
    apply Follows.loop (fun depth depth' r => depth = depth' ∧ w.Inside r) ⟨rfl, inside⟩ inside.le
    rintro depth _ r later ⟨rfl, inside'⟩
    apply Follows.peekInLine inside'
    intro c inLine
    cases c with
    | none =>
      apply Follows.textSince p inside'.le
      intro text
      exact .pure ⟨rfl, inside', later⟩
    | some c =>
      obtain ⟨char, line⟩ := (inLine c).mp rfl
      have next := inside_succ char line
      have again (depth : Int) : w.Follows (r + 1) (Pure.pure (Turn.again depth)) (Pure.pure (Turn.again depth))
          (w.Turned (fun depth depth' r => depth = depth' ∧ w.Inside r) (w.Kept (α := String × Option Char) p Eq) r) :=
        .pure ⟨by omega, next.le, rfl, next⟩
      apply Follows.tell
      apply Follows.move 1
      apply Follows.ite
      · intro _
        apply Follows.textBetween p inside'.le
        intro text
        exact .pure ⟨rfl, next, by omega⟩
      · intro _
        dsimp only
        split
        · apply Follows.peekInLine next
          intro d inLine'
          apply Follows.ite
          · intro _
            exact .stop (.failHere next)
          · intro more
            obtain ⟨d, rfl⟩ : ∃ d', d = some d' := Option.ne_none_iff_exists'.mp (by simpa using more)
            obtain ⟨char', line'⟩ := (inLine' d).mp rfl
            have next' := inside_succ char' line'
            apply Follows.move 1
            exact .pure ⟨by omega, next'.le, rfl, next'⟩
        · exact again _
        · exact again _
        · exact again _

theorem commandUpTo_follows (h : w.Aligned l inv inv') (bound : q ≤ w.text.length) (inside : w.Inside p) :
    w.Follows p (commandUpTo inv (w.left + q)) (commandUpTo inv' (w.right + q)) (w.Kept p w.AlikeEdits) := by
  rw [commandUpTo, commandUpTo, h.leftLine, h.rightLine]
  apply Follows.textBetween l bound
  intro text
  exact .pure ⟨alike_command text h, inside, Nat.le_refl p⟩

instance : Steady grepPattern where
  follows w p inside := by
    apply Follows.peekInLine inside
    intro c inLine
    cases c with
    | none => exact .pure ⟨rfl, inside, Nat.le_refl p⟩
    | some c =>
      apply Follows.ite
      · intro _
        apply Follows.skip inside
        intro _ q inside' later _
        exact .pure ⟨rfl, inside', later⟩
      · intro _
        apply Follows.skip inside
        intro _ q inside' later _
        apply Follows.skip inside'
        rintro ⟨text, delimiter⟩ r inside'' later' _
        apply Follows.ite
        · intro _
          apply (Steady.follows w r inside'').mono
          rintro v u q' ⟨same, inside₃, later₃⟩
          exact ⟨same, inside₃, by omega⟩
        · intro _
          exact .pure ⟨rfl, inside'', by omega⟩

/-- The same state on both sides, at a place of the text. -/
def Tracked (w : Overlap s t) (v u : ArgumentScan) (q : Nat) : Prop :=
  v.before = u.before ∧ w.Inside q ∧
    ∃ solid, solid ≤ w.text.length ∧ v.solid = w.left + solid ∧ u.solid = w.right + solid

/-- Two ends of an argument, each a place of the text. -/
def Ends (w : Overlap s t) (p : Nat) (v u : Nat × Nat) (q : Nat) : Prop :=
  w.Inside q ∧ p ≤ q ∧ ∃ stop solid, stop ≤ w.text.length ∧ solid ≤ w.text.length ∧
    v = (w.left + stop, w.left + solid) ∧ u = (w.right + stop, w.right + solid)

theorem isRegisterQuote_of_paired (h : w.Paired l a inv inv') (before : Option Char) (p : Nat) :
    isRegisterQuote inv before (w.left + p) = isRegisterQuote inv' before (w.right + p) := by
  have here (n m k : Nat) : (k + n == k + m) = (n == m) := by
    rw [Bool.eq_iff_iff, beq_iff_eq, beq_iff_eq]
    omega
  rw [isRegisterQuote, isRegisterQuote, h.name, h.leftArgument, h.rightArgument, here, here, Nat.add_assoc, Nat.add_assoc,
    here, here]

theorem argumentStep_follows (h : w.Paired l a inv inv') {state state' : ArgumentScan} (later : p ≤ q)
    (tracked : Tracked w state state' q) :
    w.Follows q (argumentStep inv state) (argumentStep inv' state') (w.Turned (Tracked w) (Ends w p) q) := by
  obtain ⟨before, solid⟩ := state
  obtain ⟨before', solid'⟩ := state'
  obtain ⟨same, inside, n, bound, left, right⟩ := tracked
  obtain rfl : before = before' := same
  obtain rfl : solid = w.left + n := left
  obtain rfl : solid' = w.right + n := right
  -- The end of what is solid moves to the cursor, unless a blank is before it.
  obtain ⟨m, bound', left', right'⟩ : ∃ m, m ≤ w.text.length ∧
      (if CharClass.white.hasOpt before = true then w.left + n else w.left + q) = w.left + m ∧
      (if CharClass.white.hasOpt before = true then w.right + n else w.right + q) = w.right + m := by
    split
    · exact ⟨n, bound, rfl, rfl⟩
    · exact ⟨q, inside.le, rfl, rfl⟩
  apply Follows.tell
  apply Follows.peek inside
  intro c char
  dsimp only
  rw [left', right']
  have goesOn {c : Char} (char : w.text[q]? = some c) (line : c ≠ '\n') :
      w.Follows q (do Scan.skip 1; return Turn.again ⟨some c, w.left + m⟩)
        (do Scan.skip 1; return Turn.again ⟨some c, w.right + m⟩) (w.Turned (Tracked w) (Ends w p) q) := by
    have next := inside_succ char line
    apply Follows.move 1
    exact .pure ⟨by omega, next.le, rfl, next, m, bound', rfl, rfl⟩
  have stops : w.Follows q (Pure.pure (Turn.done (w.left + q, w.left + m))) (Pure.pure (Turn.done (w.right + q, w.right + m)))
      (w.Turned (Tracked w) (Ends w p) q) :=
    .pure ⟨inside, later, q, m, inside.le, bound', rfl, rfl⟩
  split
  · exact stops
  · exact stops
  · have next := inside_succ char (by decide)
    apply Follows.move 1
    apply Follows.tell
    apply Follows.peekInLine next
    intro d inLine
    cases d with
    | none => exact .pure ⟨next, by omega, q + 1, q + 1, next.le, next.le, rfl, rfl⟩
    | some d =>
      obtain ⟨char', line'⟩ := (inLine d).mp rfl
      have next' := inside_succ char' line'
      apply Follows.move 1
      exact .pure ⟨by omega, next'.le, rfl, next', q + 1, next.le, rfl, rfl⟩
  · rw [h.has, h.has, h.has]
    apply Follows.peekRun 2 inside
    intro ahead _
    apply Follows.ite
    · intro _
      apply Follows.takeSome char (by decide) (by decide)
      intro _ r inside₁ more
      apply (Expr.read_follows inside₁).bind
      rintro _ _ r₂ ⟨-, inside₂, more₂⟩ -
      apply Follows.peekInLine inside₂
      intro close inLine
      apply Follows.ite
      · intro _
        exact .stop (.failHere inside₂)
      · intro closes
        obtain rfl : close = some '\x60' := by simpa using closes
        obtain ⟨char', line'⟩ := (inLine _).mp rfl
        apply Follows.takeSome char' line' (by decide)
        intro _ r₃ inside₃ more₃
        exact .pure ⟨by omega, inside₃.le, rfl, inside₃, m, bound', rfl, rfl⟩
    · intro _
      exact goesOn char (by decide)
  · apply Follows.ite
    · intro _
      exact stops
    · intro _
      exact goesOn char (by decide)
  · rw [isRegisterQuote_of_paired h, h.has]
    apply Follows.ite
    · intro _
      exact stops
    · intro _
      exact goesOn char (by decide)
  · rename_i notEnd notLine _ _ _ _
    cases c with
    | none => exact absurd rfl notEnd
    | some c => exact goesOn char fun same => notLine (by rw [same])

theorem argumentEnd_follows (h : w.Paired l a inv inv') (inside : w.Inside p) :
    w.Follows p (argumentEnd inv) (argumentEnd inv')
      fun v u q => w.Inside q ∧ p ≤ q ∧ ∃ stop, stop ≤ w.text.length ∧ v = w.left + stop ∧ u = w.right + stop := by
  have rest (q : Nat) (inside : w.Inside q) (later : p ≤ q) :
      let x (inv : Invocation) : Scan Nat := do
        let start ← Scan.tell
        let found ← Scan.loop ⟨none, start⟩ (argumentStep inv)
        return if inv.has .notrlcom then found.1 else found.2
      w.Follows q (x inv) (x inv')
        fun v u q => w.Inside q ∧ p ≤ q ∧ ∃ stop, stop ≤ w.text.length ∧ v = w.left + stop ∧ u = w.right + stop := by
    apply Follows.tell
    apply Follows.through (Ends w q)
    · have start : Tracked w ⟨none, w.left + q⟩ ⟨none, w.right + q⟩ q := ⟨rfl, inside, q, inside.le, rfl, rfl⟩
      apply Follows.loop (Tracked w) start inside.le
      intro state state' r later tracked
      exact argumentStep_follows h later tracked
    · rintro _ _ r ⟨inside', later', stop, solid, bound, bound', rfl, rfl⟩ -
      dsimp only
      rw [h.has]
      refine .pure ⟨inside', by omega, if inv'.has .notrlcom then stop else solid, ?_, ?_, ?_⟩
      all_goals split <;> simp_all
  rw [argumentEnd, argumentEnd, h.name]
  apply Follows.ite
  · intro _
    apply Follows.skip inside
    intro _ q inside' later _
    exact rest q inside' later
  · intro _
    exact rest p inside (Nat.le_refl p)

theorem raw_follows (h : w.Paired l a inv inv') (inside : w.Inside p) :
    w.Follows p (raw inv) (raw inv') (w.Kept p w.AlikeEdits) := by
  have finish (q stop : Nat) (inside : w.Inside q) (bound : stop ≤ w.text.length) (later : p ≤ q) :
      let x (inv : Invocation) (stop : Nat) : Scan (List Edit) := do
        if inv.has .needarg then
          let argument ← Scan.textBetween inv.argumentPos.cursor stop
          if argument.toList.all isUnicodeSpace then
            Scan.fail .argumentRequired inv.argumentPos
        commandUpTo inv stop
      w.Follows q (x inv (w.left + stop)) (x inv' (w.right + stop)) (w.Kept p w.AlikeEdits) := by
    have record : w.Follows q (commandUpTo inv (w.left + stop)) (commandUpTo inv' (w.right + stop)) (w.Kept p w.AlikeEdits) := by
      apply (commandUpTo_follows h.toAligned bound inside).mono
      rintro v u r ⟨alike, inside', later'⟩
      exact ⟨alike, inside', by omega⟩
    dsimp only
    rw [h.has]
    apply Follows.ite
    · intro _
      rw [h.leftArgument, h.rightArgument]
      apply Follows.textBetween a bound
      intro argument
      apply Follows.ite
      · intro _
        exact .stop (.fail h.argumentPos)
      · intro _
        exact record
    · intro _
      exact record
  apply Follows.through fun v u q => w.Inside q ∧ p ≤ q ∧ ∃ stop, stop ≤ w.text.length ∧ v = w.left + stop ∧ u = w.right + stop
  · rw [h.has, h.filter]
    apply Follows.ite
    · intro _
      exact argumentEnd_follows h inside
    · intro _
      apply Follows.skip inside
      intro _ q inside' later _
      exact .of_ok rfl rfl ⟨inside', later, q, inside'.le, rfl, rfl⟩
  · rintro _ _ q ⟨inside', later, stop, bound, rfl, rfl⟩ -
    exact finish q stop inside' bound later

theorem window_follows (h : w.Paired l a inv inv') (inside : w.Inside p) :
    w.Follows p (window inv) (window inv') (w.Kept p w.AlikeEdits) := by
  have rest (q : Nat) (inside : w.Inside q) (later : p ≤ q) :
      let x (inv : Invocation) : Scan (List Edit) := do
        let stop ← Scan.tell
        Scan.skipWhite
        if !endsCommand (← Scan.peek) then
          Scan.failHere .invalidArgument
        commandUpTo inv stop
      w.Follows q (x inv) (x inv') (w.Kept p w.AlikeEdits) := by
    apply Follows.tell
    apply Follows.skip inside
    intro _ r inside' later' _
    apply Follows.peek inside'
    intro c _
    apply Follows.ite
    · intro _
      exact .stop (.failHere inside')
    · intro _
      apply (commandUpTo_follows h.toAligned inside.le inside').mono
      rintro v u r' ⟨alike, inside'', later''⟩
      exact ⟨alike, inside'', by omega⟩
  apply Follows.peekInLine inside
  intro c inLine
  cases c with
  | none => exact .stop (.failHere inside)
  | some c =>
    obtain ⟨char, line⟩ := (inLine c).mp rfl
    have next := inside_succ char line
    apply Follows.next inside
    intro d q found _ more _
    obtain rfl : q = p + 1 := more c (found.symm.trans char)
    apply Follows.ite
    · intro _
      apply Follows.peekInLine next
      intro e _
      apply Follows.skip next
      intro _ r inside' later' _
      apply Follows.ite
      · intro _
        exact .stop (.failHere inside')
      · intro _
        exact rest r inside' (by omega)
    · intro _
      exact rest (p + 1) next (by omega)

theorem highlighting_follows (h : w.Paired l a inv inv') (inside : w.Inside p) :
    w.Follows p (highlighting inv) (highlighting inv') (w.Kept p w.AlikeEdits) := by
  apply Follows.through fun v u q => w.Inside q ∧ p ≤ q ∧ v = w.left + q ∧ u = w.right + q
  · apply Follows.loop (fun _ _ q => w.Inside q) inside inside.le
    rintro - - q later inside'
    have skipped (d : Char) {c : Char} (char : w.text[q]? = some c) (line : c ≠ '\n') :
        let x : Scan (Turn Unit Nat) := do
          let _ ← Scan.take 1
          let _ ← pattern d
          let _ ← Scan.take 1
          return .again ()
        w.Follows q x x (w.Turned (fun _ _ q => w.Inside q) (fun v u q => w.Inside q ∧ p ≤ q ∧ v = w.left + q ∧ u = w.right + q) q) := by
      apply Follows.takeSome char line (by decide)
      intro _ r inside₁ more
      apply Follows.skip inside₁
      intro _ r₂ inside₂ later₂ _
      apply Follows.skip inside₂
      intro _ r₃ inside₃ later₃ _
      exact .pure ⟨by omega, inside₃.le, inside₃⟩
    apply Follows.tell
    apply Follows.peek inside'
    intro c char
    split
    · exact skipped _ char (by decide)
    · exact skipped _ char (by decide)
    · exact skipped _ char (by decide)
    · exact skipped _ char (by decide)
    · apply Follows.ite
      · intro _
        exact .pure ⟨inside', later, rfl, rfl⟩
      · intro goes
        obtain ⟨d, rfl, line⟩ : ∃ d, c = some d ∧ d ≠ '\n' := by
          cases c with
          | none => simp [endsCommand] at goes
          | some d =>
            refine ⟨d, rfl, ?_⟩
            rintro rfl
            simp [endsCommand] at goes
        apply Follows.takeSome char line (by decide)
        intro _ r inside₁ more
        exact .pure ⟨more, inside₁.le, inside₁⟩
  · rintro _ _ q ⟨inside', later, rfl, rfl⟩ -
    apply (commandUpTo_follows h.toAligned inside'.le inside').mono
    rintro v u r ⟨alike, inside'', later'⟩
    exact ⟨alike, inside'', by omega⟩

/-! ### What follows a command -/

theorem comment_follows (inside : w.Inside p) (quote : w.text[p]? = some '"') :
    w.Follows p comment comment fun v u q => w.AlikeEdits v u ∧ w.Inside q ∧ p < q := by
  have same := w.places p inside
  apply Follows.here
  apply Follows.move 1
  have next := inside_succ quote (by decide)
  apply Follows.skip next
  intro text q inside' later _
  have node : w.Alike (.mk (s.position (w.left + p)) (.comment text)) (.mk (t.position (w.right + p)) (.comment text)) :=
    alike_mk same rfl
  refine .pure ⟨?_, inside', by omega⟩
  simp only [AlikeEdits, List.map_cons, List.map_nil, Edit.seen, node]

/-- After a command the cursor moves on unless the buffer ends there. -/
theorem trail_follows (inside : w.Inside p) :
    w.Follows p trail trail fun v u q => w.AlikeEdits v u ∧ q ≤ w.text.length ∧ p ≤ q ∧ (p < w.text.length → p < q) := by
  apply Follows.skip inside
  intro _ q inside' later _
  apply Follows.peek inside'
  intro c char
  split
  · refine .pure ⟨rfl, inside'.le, later, fun more => ?_⟩
    have last := List.getElem?_eq_none_iff.mp char
    omega
  · have less := lt_of_getElem? char
    apply Follows.move 1
    exact .pure ⟨rfl, by omega, by omega, by omega⟩
  · have less := lt_of_getElem? char
    apply Follows.move 1
    exact .pure ⟨rfl, by omega, by omega, by omega⟩
  · apply (comment_follows inside' char).bind
    rintro es es' r ⟨alike, inside'', more⟩ -
    apply Follows.next inside''
    intro d r' _ ends goes bound
    have after : r ≤ r' := by
      cases d with
      | none => exact Nat.le_of_eq (ends rfl).symm
      | some d => exact (goes d rfl).symm ▸ Nat.le_succ r
    exact .pure ⟨alike, bound, by omega, by omega⟩
  · exact .failHere inside'

/-! ### Commands that may go on to the end of the buffer -/

theorem seekEnd_follows {γ δ : Type} {post : γ → δ → Nat → Prop} {f : Unit → Scan γ} {g : Unit → Scan δ} (complete : w.Complete)
    (second : w.Follows w.text.length (f ()) (g ()) post) :
    w.Follows p (Scan.seekEnd >>= f) (Scan.seekEnd >>= g) post := by
  refine .after ?_ ?_ second
  · exact congrArg (Reply.ok ()) (SharedText.leftSize complete.1)
  · exact congrArg (Reply.ok ()) (SharedText.rightSize complete)


theorem isSome_of_peek {c : Option Char} (char : w.text[p]? = c) (some : ¬c.isNone = true) : p < w.text.length := by
  cases c with
  | none => exact absurd rfl some
  | some c => exact lt_of_getElem? char

/-- From a place of a line, the line end is passed. -/
theorem Follows.lineEnd {γ δ : Type} {post : γ → δ → Nat → Prop} {f : Option Char → Scan γ} {g : Option Char → Scan δ}
    (inside : w.Inside q) (later : p ≤ q)
    (second : ∀ c r, r ≤ w.text.length → p ≤ r → (p < w.text.length → p < r) → w.Follows r (f c) (g c) post) :
    w.Follows q (Scan.next >>= f) (Scan.next >>= g) post := by
  apply Follows.next inside
  intro c r char ends goes bound
  cases c with
  | none =>
    have last := List.getElem?_eq_none_iff.mp char
    obtain rfl := ends rfl
    exact second none r bound later fun _ => by omega
  | some c =>
    obtain rfl := goes c rfl
    exact second (some c) (q + 1) bound (by omega) fun _ => by omega

theorem readLine_follows (inside : w.Inside p) :
    w.Follows p Scan.readLine Scan.readLine
      fun v u q => v = u ∧ q ≤ w.text.length ∧ p ≤ q ∧ (p < w.text.length → p < q) := by
  apply Follows.skip inside
  intro line q inside' later _
  apply Follows.lineEnd inside' later
  intro c r bound later' more
  exact .pure ⟨rfl, bound, later', more⟩

section

variable (marker : String) (done again : String → List String)

/-- One more line of those up to a marker. -/
theorem lineTurn_follows (before : q < w.text.length) (later : p ≤ q) :
    let x : Scan (Turn (List String) (List String)) := do
      let line ← Scan.takeLine
      if line == marker then return .done (done line)
      else
        let _ ← Scan.next
        return .again (again line)
    w.Follows q x x (w.Turned (fun v u _ => v = u) (w.Kept p Eq) q) := by
  apply Follows.skip (.inl before)
  intro line r inside later' _
  apply Follows.ite
  · intro _
    exact .pure ⟨rfl, inside, by omega⟩
  · intro _
    apply Follows.lineEnd inside later'
    intro _ r' bound _ moved
    exact .pure ⟨moved before, bound, rfl⟩

theorem lineTurn_onward (s : Source) (i : Nat) :
    Gives (do
      let line ← Scan.takeLine
      if line == marker then return Turn.done (done line)
      else
        let _ ← Scan.next
        return Turn.again (again line)) s i fun _ j => i ≤ j := by
  refine (takeLine_onward s i).bind fun line j later => .ite (fun _ => .pure later) fun _ => ?_
  exact (next_onward s j).bind fun _ _ later' => .pure (Nat.le_trans later later')

end

theorem linesUpTo_follows (marker : String) (lines : List String) (bound : p ≤ w.text.length)
    (spared : w.Complete ∨ w.EndsWithin p (linesUpTo marker lines)) :
    w.Follows p (linesUpTo marker lines) (linesUpTo marker lines) (w.Kept p Eq) := by
  apply Follows.gather Eq rfl bound (spared.imp_left .inl)
  · intro lines i
    refine .step fun c _ peeked => ?_
    obtain ⟨-, rfl⟩ := Reply.ok.inj peeked
    exact .ite (fun _ => .pure (Nat.le_refl i)) fun _ => lineTurn_onward marker _ _ s i
  rintro lines _ q later inside rfl
  apply Follows.peek inside
  intro c char
  apply Follows.ite
  · intro _
    exact .pure ⟨rfl, inside, later⟩
  · intro more
    exact lineTurn_follows marker _ _ (isSome_of_peek char more) later

theorem alike_commandLines (lines : List String) (h : w.Aligned l inv inv') :
    w.AlikeEdits (commandLines inv lines) (commandLines inv' lines) :=
  alike_command _ h

/-- Lines from the one of the command on. -/
theorem Follows.fromLine {γ δ : Type} {post : γ → δ → Nat → Prop} {f : String → Scan γ} {g : String → Scan δ}
    (h : w.Paired l a inv inv') (start : w.Started l)
    (spared : w.Complete ∨ w.EndsWithin p (do Scan.seek inv.linePos.cursor; f (← Scan.readLine)))
    (second : ∀ first q, q ≤ w.text.length → l < q → w.Complete ∨ w.EndsWithin q (f first) →
      w.Follows q (f first) (g first) post) :
    w.Follows p (do Scan.seek inv.linePos.cursor; f (← Scan.readLine)) (do Scan.seek inv'.linePos.cursor; g (← Scan.readLine))
      post := by
  obtain ⟨c, char, -⟩ := start
  have less := lt_of_getElem? char
  rw [h.leftLine] at spared ⊢
  rw [h.rightLine]
  replace spared := spared.imp_right fun within => within.after (seek_apply (w.left + l) s _)
  apply Follows.seek
  apply (readLine_follows (.inl less)).bind
  rintro first _ q ⟨rfl, bound, -, more⟩ run
  exact second first q bound (more less) (spared.imp_right fun within => within.after run)

/-- Lines up to a marker, from the one of the command on. -/
theorem capture_follows (marker : String) (h : w.Paired l a inv inv') (start : w.Started l)
    (spared : w.Complete ∨ w.EndsWithin p (do
      Scan.seek inv.linePos.cursor
      let first ← Scan.readLine
      return commandLines inv (← linesUpTo marker [first]))) :
    let x (inv : Invocation) : Scan (List Edit) := do
      Scan.seek inv.linePos.cursor
      let first ← Scan.readLine
      return commandLines inv (← linesUpTo marker [first])
    w.Follows p (x inv) (x inv') (w.Written l) := by
  apply Follows.fromLine h start spared
  intro first q bound more spared
  have alone := spared.imp_right fun within => within.first fun _ i => .pure (Nat.le_refl i)
  apply (linesUpTo_follows marker [first] bound alone).bind
  rintro lines _ r ⟨rfl, inside, later⟩ -
  exact .pure ⟨alike_commandLines lines h.toAligned, inside, by omega⟩

theorem textLines_follows (h : w.Paired l a inv inv') (start : w.Started l)
    (spared : w.Complete ∨ w.EndsWithin p (textLines inv)) :
    w.Follows p (textLines inv) (textLines inv') (w.Written l) :=
  capture_follows "." h start spared

theorem remainingLines_follows (h : w.Paired l a inv inv') (start : w.Started l)
    (spared : w.Complete ∨ w.EndsWithin p (remainingLines inv)) :
    w.Follows p (remainingLines inv) (remainingLines inv') (w.Written l) := by
  apply Follows.fromLine h start spared
  intro first q bound more spared
  have alone := spared.imp_right fun within => within.first fun _ i => .pure (Nat.le_refl i)
  apply Follows.through (w.Kept q Eq)
  · apply Follows.gather Eq rfl bound (alone.imp_left .inl)
    · intro lines i
      refine .step fun c _ peeked => ?_
      obtain ⟨-, rfl⟩ := Reply.ok.inj peeked
      exact .ite (fun _ => .pure (Nat.le_refl i)) fun _ => (readLine_onward s i).bind fun _ _ later => .pure later
    rintro lines _ r later inside rfl
    apply Follows.peek inside
    intro c char
    apply Follows.ite
    · intro _
      exact .pure ⟨rfl, inside, later⟩
    · intro goes
      have before := isSome_of_peek char goes
      apply (readLine_follows inside).bind
      rintro line _ r' ⟨rfl, bound, _, moved⟩ -
      exact .pure ⟨moved before, bound, rfl⟩
  · rintro lines _ r ⟨rfl, inside, later⟩ -
    exact .pure ⟨alike_commandLines lines h.toAligned, inside, by omega⟩

theorem foreignCode_follows (h : w.Paired l a inv inv') (start : w.Started l) (inside : w.Inside p)
    (spared : w.Complete ∨ w.EndsWithin p (foreignCode inv)) :
    w.Follows p (foreignCode inv) (foreignCode inv') (w.Written l) := by
  apply Follows.skip inside
  intro _ q inside' _ run
  replace spared := spared.imp_right fun within => within.after run
  apply (Steady.follows w q inside').bind
  rintro ahead _ r ⟨rfl, inside₁, -⟩ run
  replace spared := spared.imp_right fun within => within.after run
  by_cases marked : (ahead == "<<") = true
  · rw [if_pos marked] at spared ⊢
    rw [if_pos marked]
    apply Follows.skip inside₁
    intro _ r₁ inside₂ _ run
    replace spared := spared.imp_right fun within => within.after run
    apply Follows.skip inside₂
    intro _ r₂ inside₃ _ run
    replace spared := spared.imp_right fun within => within.after run
    apply (readLine_follows inside₃).bind
    rintro word _ r₃ ⟨rfl, -, -, -⟩ run
    exact capture_follows _ h start (spared.imp_right fun within => within.after run)
  · rw [if_neg marked, if_neg marked]
    obtain ⟨c, char, line⟩ := start
    rw [h.leftLine, h.rightLine]
    apply Follows.seek
    apply Follows.takeWhile (fun _ => true) (.inl (lt_of_getElem? char))
    intro text r inside'' length run
    have more := SharedText.run_pos (f := fun _ => true) char line rfl
    rw [← run] at more
    exact .pure ⟨alike_commandLines [text] h.toAligned, inside'', by omega⟩

end Statement

end VimScript
