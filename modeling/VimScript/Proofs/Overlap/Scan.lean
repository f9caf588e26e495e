import VimScript.Proofs.CharClass
import VimScript.Proofs.Scan.Gives
import VimScript.Proofs.Tree.Sight
import VimScript.Token.Lexer

/-!
Two buffers that share a text. `w.Follows p x y post` says that what `x` does at the place `p` of the text in the
first buffer, `y` does there in the second, with values and an end that meet `post`; and that `x` does not run out of
its bound. There is one rule for each operation that scans are built from.

The text either ends both buffers or ends with a line. What is read line by line then never looks past it.
-/

set_option autoImplicit false

namespace VimScript

/-- The last character of a line that is not blank is a brace. -/
def endsInBrace (line : List Char) : Bool :=
  (line.reverse.dropWhile CharClass.white.has).head? == some '\x7b'

/-- A text that two buffers share. -/
structure SharedText (s t : Source) where
  text : List Char
  left : Nat
  right : Nat
  leftRest : List Char
  rightRest : List Char
  leftAhead : s.ahead left = text ++ leftRest
  rightAhead : t.ahead right = text ++ rightRest
  leftBound : left ≤ s.size
  rightBound : right ≤ t.size
  closed : leftRest = [] ∧ rightRest = [] ∨ ∃ front, text = front ++ ['\n']

namespace SharedText

variable {s t : Source} (w : SharedText s t) {p q n : Nat} {c : Char}

/-- Both buffers end with the text. -/
def Complete : Prop :=
  w.leftRest = [] ∧ w.rightRest = []

/-- The last line of the text ends in a brace. -/
def EndsInBrace : Prop :=
  ∃ front, w.text = front ++ ['\n'] ∧ endsInBrace front = true

/-- What comes after the text starts with a token in both buffers. -/
def ReadsOn : Prop :=
  (∃ token j, Token.next s (w.left + w.text.length) = .ok token j) ∧
    ∃ token j, Token.next t (w.right + w.text.length) = .ok token j

/-- A place at which the next character is the same in both buffers, or missing in both. -/
def Inside (p : Nat) : Prop :=
  p < w.text.length ∨ w.Complete ∧ p = w.text.length

variable {w}

theorem Inside.le (h : w.Inside p) : p ≤ w.text.length := by
  rcases h with h | ⟨-, rfl⟩
  · omega
  · exact Nat.le_refl _

theorem inside_of_complete (complete : w.Complete) (h : p ≤ w.text.length) : w.Inside p := by
  rcases Nat.lt_or_eq_of_le h with less | same
  · exact .inl less
  · exact .inr ⟨complete, same⟩

theorem lt_of_getElem? (h : w.text[p]? = some c) : p < w.text.length :=
  (List.getElem?_eq_some_iff.mp h).1

/-- The line of the last character goes on to the end of the text. -/
theorem inside_succ (h : w.text[p]? = some c) (line : c ≠ '\n') : w.Inside (p + 1) := by
  have less := lt_of_getElem? h
  rcases w.closed with complete | ⟨front, text⟩
  · exact inside_of_complete complete (by omega)
  · rcases Nat.lt_or_eq_of_le (Nat.succ_le_of_lt less) with more | last
    · exact .inl more
    · have same : p = front.length := by
        rw [text] at last
        simpa using last
      rw [text, same, List.getElem?_concat_length] at h
      exact absurd (Option.some.inj h).symm line

theorem leftAhead_add (h : p ≤ w.text.length) : s.ahead (w.left + p) = w.text.drop p ++ w.leftRest := by
  rw [Source.ahead_add, w.leftAhead, List.drop_append_of_le_length h]

theorem rightAhead_add (h : p ≤ w.text.length) : t.ahead (w.right + p) = w.text.drop p ++ w.rightRest := by
  rw [Source.ahead_add, w.rightAhead, List.drop_append_of_le_length h]

theorem leftChar (h : w.Inside p) : s.char? (w.left + p) = w.text[p]? := by
  rw [Source.char?_add, w.leftAhead]
  rcases h with less | ⟨complete, rfl⟩
  · exact List.getElem?_append_left less
  · simp [complete.1]

theorem rightChar (h : w.Inside p) : t.char? (w.right + p) = w.text[p]? := by
  rw [Source.char?_add, w.rightAhead]
  rcases h with less | ⟨complete, rfl⟩
  · exact List.getElem?_append_left less
  · simp [complete.2]

theorem length_le_leftSize (w : SharedText s t) : w.text.length ≤ s.size := by
  have length := Source.length_ahead s w.left
  rw [w.leftAhead, List.length_append] at length
  omega

theorem left_add_le (w : SharedText s t) (h : q ≤ w.text.length) : w.left + q ≤ s.size := by
  have length := Source.length_ahead s w.left
  have bound := w.leftBound
  rw [w.leftAhead, List.length_append] at length
  omega

theorem leftSize (alone : w.leftRest = []) : s.size = w.left + w.text.length := by
  have length := Source.length_ahead s w.left
  have bound := w.leftBound
  rw [w.leftAhead, alone, List.append_nil] at length
  omega

theorem lt_leftSize (w : SharedText s t) (goes : w.leftRest ≠ []) : w.left + w.text.length < s.size := by
  have length := Source.length_ahead s w.left
  have more := List.length_pos_iff.mpr goes
  rw [w.leftAhead, List.length_append] at length
  omega

theorem rightSize (complete : w.Complete) : t.size = w.right + w.text.length := by
  have length := Source.length_ahead t w.right
  have bound := w.rightBound
  rw [w.rightAhead, complete.2, List.append_nil] at length
  omega

theorem length_le_rightSize (w : SharedText s t) : w.text.length ≤ t.size := by
  have length := Source.length_ahead t w.right
  rw [w.rightAhead, List.length_append] at length
  omega

theorem leftText (w : SharedText s t) (p : Nat) (h : q ≤ w.text.length) :
    s.text (w.left + p) (w.left + q) = String.ofList ((w.text.take q).drop p) := by
  have ahead : (s.chars.toList.drop w.left).take q = w.text.take q := by
    have front := congrArg (List.take q) w.leftAhead
    rwa [List.take_append_of_le_length h] at front
  have counted : w.left + q - (w.left + p) = q - p := by omega
  simp only [Source.text, Source.between, Array.toList_extract, List.extract_eq_take_drop, counted]
  rw [← ahead, ← List.drop_drop, List.drop_take]

theorem rightText (w : SharedText s t) (p : Nat) (h : q ≤ w.text.length) :
    t.text (w.right + p) (w.right + q) = String.ofList ((w.text.take q).drop p) := by
  have ahead : (t.chars.toList.drop w.right).take q = w.text.take q := by
    have front := congrArg (List.take q) w.rightAhead
    rwa [List.take_append_of_le_length h] at front
  have counted : w.right + q - (w.right + p) = q - p := by omega
  simp only [Source.text, Source.between, Array.toList_extract, List.extract_eq_take_drop, counted]
  rw [← ahead, ← List.drop_drop, List.drop_take]

/-! ### Runs -/

theorem run_newline (f : Char → Bool) (xs ys : List Char) :
    Source.run f (xs ++ '\n' :: ys) = Source.run f xs := by
  induction xs with
  | nil => simp [Source.run]
  | cons x xs ih =>
    simp only [Source.run, List.cons_append, List.takeWhile_cons] at ih ⊢
    rw [ih]

/-- A run stays on its line, so it is one of the shared text. -/
theorem run_append_rest (h : w.Inside p) (f : Char → Bool) (rest : List Char) (complete : w.Complete → rest = []) :
    Source.run f (w.text.drop p ++ rest) = Source.run f (w.text.drop p) := by
  rcases w.closed with whole | ⟨front, text⟩
  · simp [complete whole]
  · rcases h with less | ⟨whole, -⟩
    · have within : p ≤ front.length := by
        rw [text] at less
        simpa [Nat.lt_succ_iff] using less
      rw [text, List.drop_append_of_le_length within, List.append_assoc, List.cons_append, run_newline, run_newline]
    · simp [complete whole]

theorem leftRun (h : w.Inside p) (f : Char → Bool) :
    Source.run f (s.ahead (w.left + p)) = Source.run f (w.text.drop p) := by
  rw [leftAhead_add h.le]
  exact run_append_rest h f _ And.left

theorem rightRun (h : w.Inside p) (f : Char → Bool) :
    Source.run f (t.ahead (w.right + p)) = Source.run f (w.text.drop p) := by
  rw [rightAhead_add h.le]
  exact run_append_rest h f _ And.right

theorem getElem?_of_lt_run {f : Char → Bool} (less : n < (Source.run f (w.text.drop p)).length) :
    ∃ c, w.text[p + n]? = some c ∧ c ≠ '\n' ∧ f c = true := by
  have starts : Source.run f (w.text.drop p) <+: w.text.drop p := List.takeWhile_prefix _
  have same : w.text[p + n]? = some (Source.run f (w.text.drop p))[n] := by
    rw [← List.getElem?_drop]
    exact List.prefix_iff_getElem?.mp starts n less
  have inRun := List.mem_takeWhile_imp (List.getElem_mem less)
  exact ⟨_, same, by simpa using inRun⟩

theorem run_pos {f : Char → Bool} (char : w.text[p]? = some c) (line : c ≠ '\n') (has : f c = true) :
    0 < (Source.run f (w.text.drop p)).length := by
  obtain ⟨less, here⟩ := List.getElem?_eq_some_iff.mp char
  rw [List.drop_eq_getElem_cons less, here, Source.run, List.takeWhile_cons_of_pos (by simp [line, has])]
  exact Nat.succ_pos _

theorem first_of_run {f : Char → Bool} {rest : List Char} (run : (Source.run f (w.text.drop p)).take n = c :: rest) :
    w.text[p]? = some c ∧ c ≠ '\n' := by
  rw [← List.head?_drop]
  cases front : w.text.drop p with
  | nil => simp [front, Source.run] at run
  | cons d ds =>
    obtain ⟨inRun, first⟩ : (d ≠ '\n' ∧ f d = true) ∧ d = c := by
      rw [front, Source.run, List.takeWhile_cons] at run
      split at run
      · rename_i inRun
        cases n <;> simp_all
      · simp at run
    rw [← first]
    exact ⟨rfl, inRun.1⟩

theorem inside_of_le_run {f : Char → Bool} (h : w.Inside p) (le : n ≤ (Source.run f (w.text.drop p)).length) :
    w.Inside (p + n) := by
  cases n with
  | zero => exact h
  | succ n =>
    obtain ⟨c, found, line, -⟩ := getElem?_of_lt_run (Nat.lt_of_succ_le le)
    exact inside_succ found line

end SharedText

/-- A shared text with what is seen of positions and invocations on either side. Faults are compared if `faults` holds.
A text that does not end both buffers may have them compared as well: of all that is read on a line, only what decides
between a dictionary and a lambda looks past the end of it, at the token after a brace and the end of the line. -/
structure Overlap (s t : Source) extends SharedText s t where
  leftSight : Sight
  rightSight : Sight
  faults : Prop := toSharedText.Complete
  settled : faults → toSharedText.Complete ∨ (toSharedText.EndsInBrace → toSharedText.ReadsOn) := by exact Or.inl
  places : ∀ p, toSharedText.Inside p →
    leftSight.position (s.position (left + p)) = rightSight.position (t.position (right + p))
  invocations : ∀ inv inv', inv.placed leftSight.position = inv'.placed rightSight.position →
    leftSight.invocation inv = rightSight.invocation inv'

/-- A text whose faults are compared where it ends both buffers. -/
def SharedText.seen {s t : Source} (w : SharedText s t) (left right : Sight)
    (places : ∀ p, w.Inside p → left.position (s.position (w.left + p)) = right.position (t.position (w.right + p)))
    (invocations : ∀ inv inv', inv.placed left.position = inv'.placed right.position →
      left.invocation inv = right.invocation inv') : Overlap s t :=
  ⟨w, left, right, w.Complete, .inl, places, invocations⟩

namespace Overlap

open SharedText (inside_succ)
open Scan

variable {α β γ δ σ τ : Type} {s t : Source} {w : Overlap s t} {p q n : Nat}

/-- A buffer beside itself. -/
def whole (s : Source) : Overlap s s where
  text := s.chars.toList
  left := 0
  right := 0
  leftRest := []
  rightRest := []
  leftAhead := by simp [Source.ahead]
  rightAhead := by simp [Source.ahead]
  leftBound := Nat.zero_le _
  rightBound := Nat.zero_le _
  closed := .inl ⟨rfl, rfl⟩
  leftSight := ⟨id, id⟩
  rightSight := ⟨id, id⟩
  places _ _ := rfl
  invocations _ _ same := same

theorem length_whole (s : Source) : (whole s).text.length = s.size :=
  Array.length_toList

theorem inside_whole {i : Nat} (bound : i ≤ s.size) : (whole s).Inside i :=
  SharedText.inside_of_complete ⟨rfl, rfl⟩ bound

/-- Positions that look the same. -/
def SamePosition (w : Overlap s t) (a b : Position) : Prop :=
  w.leftSight.position a = w.rightSight.position b

def SameFault (w : Overlap s t) (e e' : Fault) : Prop :=
  e.cause = e'.cause ∧ w.SamePosition e.position e'.position

/-- The second scan ends as the first one does. Where faults are not compared, nothing is said of one. -/
def Follows (w : Overlap s t) (p : Nat) (x : Scan α) (y : Scan β) (post : α → β → Nat → Prop) : Prop :=
  match x s (w.left + p) with
  | .ok v j => ∃ u q, j = w.left + q ∧ y t (w.right + p) = .ok u (w.right + q) ∧ post v u q
  | .fail e j => w.faults → ∃ e' q, j = w.left + q ∧ y t (w.right + p) = .fail e' (w.right + q) ∧ w.SameFault e e'
  | .spent => False

/-- The values are related and the end is a place of the text no earlier than the given one. -/
def Kept (w : Overlap s t) (p : Nat) (r : α → β → Prop) (v : α) (u : β) (q : Nat) : Prop :=
  r v u ∧ w.Inside q ∧ p ≤ q

variable {x : Scan α} {y : Scan β} {f : α → Scan γ} {g : β → Scan δ} {mid : α → β → Nat → Prop}
  {post : γ → δ → Nat → Prop}

theorem Follows.of_ok {v : α} {u : β} (left : x s (w.left + p) = .ok v (w.left + q))
    (right : y t (w.right + p) = .ok u (w.right + q)) (h : mid v u q) : w.Follows p x y mid := by
  rw [Follows, left]
  exact ⟨u, q, rfl, right, h⟩

theorem Follows.pure {v : α} {u : β} (h : mid v u p) : w.Follows p (Pure.pure v) (Pure.pure u) mid :=
  .of_ok rfl rfl h

theorem Follows.mono {wider : α → β → Nat → Prop} (h : w.Follows p x y mid)
    (weaken : ∀ v u q, mid v u q → wider v u q) : w.Follows p x y wider := by
  unfold Follows at *
  cases run : x s (w.left + p) with
  | ok v j =>
    rw [run] at h
    obtain ⟨u, q, same, right, met⟩ := h
    exact ⟨u, q, same, right, weaken v u q met⟩
  | fail e j =>
    rw [run] at h
    exact h
  | spent =>
    rw [run] at h
    exact h

/-- What follows is about what the first scan gives. -/
theorem Follows.run (h : w.Follows p x y mid) :
    w.Follows p x y fun v u q => mid v u q ∧ x s (w.left + p) = .ok v (w.left + q) := by
  unfold Follows at *
  cases run : x s (w.left + p) with
  | ok v j =>
    rw [run] at h
    obtain ⟨u, q, rfl, right, met⟩ := h
    exact ⟨u, q, rfl, right, met, rfl⟩
  | fail e j =>
    rw [run] at h
    exact h
  | spent =>
    rw [run] at h
    exact h

/-- What is given at a place of a buffer beside itself. -/
theorem Follows.of_whole {i j : Nat} {v : α} (h : (whole s).Follows i x y mid) (run : x s i = .ok v j) :
    ∃ u, y s i = .ok u j ∧ mid v u j := by
  have here : (whole s).left + i = i := Nat.zero_add i
  have there : (whole s).right + i = i := Nat.zero_add i
  rw [Follows, here, there, run] at h
  obtain ⟨u, q, same, right, met⟩ := h
  have left : (whole s).left + q = q := Nat.zero_add q
  have right' : (whole s).right + q = q := Nat.zero_add q
  rw [left] at same
  rw [right'] at right
  subst same
  exact ⟨u, right, met⟩

/-- At one cursor of both buffers, with the same values and positions, the second scan gives what the first one does. -/
theorem Follows.ok_of_same {x y : Scan α} {v : α} {j : Nat} (h : w.Follows p x y fun v u _ => v = u)
    (here : w.left = w.right) (run : x s (w.left + p) = .ok v j) : y t (w.left + p) = .ok v j := by
  rw [Follows, run] at h
  obtain ⟨u, q, rfl, right, rfl⟩ := h
  rw [here]
  exact right

/-- Where faults are compared, it also comes to the same faults. -/
theorem Follows.eq_of_same {x y : Scan α} (h : w.Follows p x y fun v u _ => v = u) (here : w.left = w.right)
    (compared : w.faults) (positions : ∀ a b, w.SamePosition a b → a = b) : x s (w.left + p) = y t (w.left + p) := by
  cases run : x s (w.left + p) with
  | ok v j => exact (h.ok_of_same here run).symm
  | fail e j =>
    rw [Follows, run] at h
    obtain ⟨⟨cause, position⟩, q, rfl, right, sameCause, samePosition⟩ := h compared
    obtain ⟨_, _⟩ := e
    obtain rfl : _ = cause := sameCause
    obtain rfl : _ = position := positions _ _ samePosition
    rw [here]
    exact right.symm
  | spent =>
    rw [Follows, run] at h
    exact h.elim

/-- Scans that follow one another in one buffer are the same there. -/
theorem Follows.eq_of_whole {i : Nat} {x y : Scan α} (h : (whole s).Follows i x y fun v u _ => v = u) : x s i = y s i := by
  have here : (whole s).left + i = i := Nat.zero_add i
  have same := h.eq_of_same rfl ⟨rfl, rfl⟩ fun _ _ => id
  rwa [here] at same

theorem Follows.bind (first : w.Follows p x y mid)
    (second : ∀ v u q, mid v u q → x s (w.left + p) = .ok v (w.left + q) → w.Follows q (f v) (g u) post) :
    w.Follows p (x >>= f) (y >>= g) post := by
  unfold Follows at *
  rw [bind_apply]
  cases run : x s (w.left + p) with
  | ok v j =>
    rw [run] at first
    obtain ⟨u, q, rfl, right, met⟩ := first
    rw [bind_apply, right]
    exact second v u q met run
  | fail e j =>
    rw [run] at first
    intro compared
    obtain ⟨e', q, same, right, faults⟩ := first compared
    exact ⟨e', q, same, by rw [bind_apply, right], faults⟩
  | spent =>
    rw [run] at first
    exact first

theorem Follows.through (mid : α → β → Nat → Prop) (first : w.Follows p x y mid)
    (second : ∀ v u q, mid v u q → x s (w.left + p) = .ok v (w.left + q) → w.Follows q (f v) (g u) post) :
    w.Follows p (x >>= f) (y >>= g) post :=
  first.bind second

theorem Follows.stop (first : w.Follows p x y fun _ _ _ => False) : w.Follows p (x >>= f) (y >>= g) post :=
  first.bind fun _ _ _ never _ => never.elim

theorem Follows.ite {c : Prop} [Decidable c] {x' : Scan α} {y' : Scan β} (yes : c → w.Follows p x y mid)
    (no : ¬c → w.Follows p x' y' mid) : w.Follows p (if c then x else x') (if c then y else y') mid := by
  split
  · exact yes ‹_›
  · exact no ‹_›

theorem Follows.fail {cause : Cause} {a b : Position} (same : w.SamePosition a b) :
    w.Follows p (Scan.fail cause a : Scan α) (Scan.fail cause b : Scan β) mid :=
  fun _ => ⟨_, p, rfl, rfl, rfl, same⟩

theorem Follows.failHere {cause : Cause} (inside : w.Inside p) :
    w.Follows p (Scan.failHere cause : Scan α) (Scan.failHere cause : Scan β) mid :=
  fun _ => ⟨_, p, rfl, rfl, rfl, w.places p inside⟩

/-- The first scan ends in a fault. -/
def Fails (w : Overlap s t) (p : Nat) (x : Scan α) : Prop :=
  ∃ e j, x s (w.left + p) = .fail e j

theorem Follows.fails (never : w.Follows p x y fun _ _ _ => False) : w.Fails p x := by
  unfold Follows at never
  cases run : x s (w.left + p) with
  | ok v j =>
    rw [run] at never
    obtain ⟨_, _, -, -, absurd⟩ := never
    exact absurd.elim
  | fail e j => exact ⟨e, j, run⟩
  | spent =>
    rw [run] at never
    exact never.elim

theorem Fails.bind (first : w.Fails p x) : w.Fails p (x >>= f) := by
  obtain ⟨e, j, run⟩ := first
  exact ⟨e, j, by rw [bind_apply, run]⟩

theorem Fails.after {v : α} (first : x s (w.left + p) = .ok v (w.left + q)) (second : w.Fails q (f v)) :
    w.Fails p (x >>= f) := by
  obtain ⟨e, j, run⟩ := second
  exact ⟨e, j, by rw [bind_of_ok first, run]⟩

theorem Follows.ne_spent (h : w.Follows p x y mid) : x s (w.left + p) ≠ .spent := by
  intro run
  rw [Follows, run] at h
  exact h

/-- Where faults are not compared, a fault of the first scan settles everything. -/
theorem Follows.of_fails (uncompared : ¬w.faults) (fails : w.Fails p x) : w.Follows p x y mid := by
  obtain ⟨e, j, run⟩ := fails
  rw [Follows, run]
  exact fun compared => absurd compared uncompared

theorem Follows.peeking (h : w.Follows p x y mid) :
    w.Follows p (Scan.peeking x) (Scan.peeking y) fun v u q => q = p ∧ ∃ q', mid v u q' := by
  unfold Follows at *
  simp only [Scan.peeking]
  cases run : x s (w.left + p) with
  | ok v j =>
    rw [run] at h
    obtain ⟨u, q, rfl, right, met⟩ := h
    exact ⟨u, p, rfl, by rw [right], rfl, q, met⟩
  | fail e j =>
    rw [run] at h
    intro compared
    obtain ⟨e', q, -, right, faults⟩ := h compared
    exact ⟨e', p, rfl, by rw [right], faults⟩
  | spent =>
    rw [run] at h
    exact h

/-! ### The cursor -/

theorem Follows.tell {f : Nat → Scan γ} {g : Nat → Scan δ} (second : w.Follows p (f (w.left + p)) (g (w.right + p)) post) :
    w.Follows p (Scan.tell >>= f) (Scan.tell >>= g) post :=
  second

theorem Follows.seek {f : Unit → Scan γ} {g : Unit → Scan δ} (second : w.Follows q (f ()) (g ()) post) :
    w.Follows p (Scan.seek (w.left + q) >>= f) (Scan.seek (w.right + q) >>= g) post :=
  second

theorem Follows.move {f : Unit → Scan γ} {g : Unit → Scan δ} (n : Nat) (second : w.Follows (p + n) (f ()) (g ()) post) :
    w.Follows p (Scan.skip n >>= f) (Scan.skip n >>= g) post := by
  rw [Follows, ← Nat.add_assoc, ← Nat.add_assoc] at second
  exact second

theorem Follows.here {f : Position → Scan γ} {g : Position → Scan δ}
    (second : w.Follows p (f (s.position (w.left + p))) (g (t.position (w.right + p))) post) :
    w.Follows p (Scan.here >>= f) (Scan.here >>= g) post :=
  second

theorem Follows.after {v : α} {u : β} (left : x s (w.left + p) = .ok v (w.left + q))
    (right : y t (w.right + p) = .ok u (w.right + q)) (second : w.Follows q (f v) (g u) post) :
    w.Follows p (x >>= f) (y >>= g) post := by
  rw [Follows, bind_of_ok left, bind_of_ok right]
  exact second

theorem left_peek (inside : w.Inside p) : Scan.peek s (w.left + p) = .ok w.text[p]? (w.left + p) := by
  rw [← SharedText.leftChar inside]
  rfl

theorem right_peek (inside : w.Inside p) : Scan.peek t (w.right + p) = .ok w.text[p]? (w.right + p) := by
  rw [← SharedText.rightChar inside]
  rfl

theorem Follows.peek {f : Option Char → Scan γ} {g : Option Char → Scan δ} (inside : w.Inside p)
    (second : ∀ c, w.text[p]? = c → w.Follows p (f c) (g c) post) :
    w.Follows p (Scan.peek >>= f) (Scan.peek >>= g) post :=
  .after (left_peek inside) (right_peek inside) (second _ rfl)

theorem left_peekInLine (inside : w.Inside p) :
    Scan.peekInLine s (w.left + p) = .ok (w.text[p]?.filter (· != '\n')) (w.left + p) := by
  rw [← SharedText.leftChar inside]
  rfl

theorem right_peekInLine (inside : w.Inside p) :
    Scan.peekInLine t (w.right + p) = .ok (w.text[p]?.filter (· != '\n')) (w.right + p) := by
  rw [← SharedText.rightChar inside]
  rfl

theorem Follows.peekInLine {f : Option Char → Scan γ} {g : Option Char → Scan δ} (inside : w.Inside p)
    (second : ∀ c, (∀ d, c = some d ↔ w.text[p]? = some d ∧ d ≠ '\n') → w.Follows p (f c) (g c) post) :
    w.Follows p (Scan.peekInLine >>= f) (Scan.peekInLine >>= g) post := by
  apply Follows.after (left_peekInLine inside) (right_peekInLine inside)
  apply second
  intro d
  simp [Option.filter_eq_some_iff]

/-- Past a line end the characters may differ. -/
theorem Follows.peekAt {f : Option Char → Scan γ} {g : Option Char → Scan δ} (n : Nat)
    (second : ∀ c d, (w.Inside (p + n) → c = d ∧ c = w.text[p + n]?) → w.Follows p (f c) (g d) post) :
    w.Follows p (Scan.peekAt n >>= f) (Scan.peekAt n >>= g) post := by
  apply second (s.char? (w.left + p + n)) (t.char? (w.right + p + n))
  intro inside
  rw [Nat.add_assoc, Nat.add_assoc, SharedText.leftChar inside, SharedText.rightChar inside]
  exact ⟨rfl, rfl⟩

theorem Follows.textBetween {f : String → Scan γ} {g : String → Scan δ} (a : Nat) {b : Nat} (bound : b ≤ w.text.length)
    (second : ∀ text, w.Follows p (f text) (g text) post) :
    w.Follows p (Scan.textBetween (w.left + a) (w.left + b) >>= f) (Scan.textBetween (w.right + a) (w.right + b) >>= g)
      post := by
  have left : Scan.textBetween (w.left + a) (w.left + b) s (w.left + p) =
      .ok (String.ofList ((w.text.take b).drop a)) (w.left + p) := by
    rw [← w.leftText a bound]
    rfl
  have right : Scan.textBetween (w.right + a) (w.right + b) t (w.right + p) =
      .ok (String.ofList ((w.text.take b).drop a)) (w.right + p) := by
    rw [← w.rightText a bound]
    rfl
  exact .after left right (second _)

theorem Follows.textSince {f : String → Scan γ} {g : String → Scan δ} (a : Nat) (bound : p ≤ w.text.length)
    (second : ∀ text, w.Follows p (f text) (g text) post) :
    w.Follows p (Scan.textSince (w.left + a) >>= f) (Scan.textSince (w.right + a) >>= g) post :=
  Follows.textBetween a bound second

theorem left_takeWhile (f : Char → Bool) (inside : w.Inside p) :
    Scan.takeWhile f s (w.left + p) = .ok (String.ofList (Source.run f (w.text.drop p)))
      (w.left + (p + (Source.run f (w.text.drop p)).length)) := by
  rw [takeWhile_eq, SharedText.leftRun inside, Nat.add_assoc]

theorem right_takeWhile (f : Char → Bool) (inside : w.Inside p) :
    Scan.takeWhile f t (w.right + p) = .ok (String.ofList (Source.run f (w.text.drop p)))
      (w.right + (p + (Source.run f (w.text.drop p)).length)) := by
  rw [takeWhile_eq, SharedText.rightRun inside, Nat.add_assoc]

theorem Follows.takeWhile {f : String → Scan γ} {g : String → Scan δ} (k : Char → Bool) (inside : w.Inside p)
    (second : ∀ v q, w.Inside q → q = p + v.toList.length → v.toList = Source.run k (w.text.drop p) →
      w.Follows q (f v) (g v) post) :
    w.Follows p (Scan.takeWhile k >>= f) (Scan.takeWhile k >>= g) post := by
  apply Follows.after (left_takeWhile k inside) (right_takeWhile k inside)
  apply second
  · exact SharedText.inside_of_le_run inside (Nat.le_refl _)
  · rw [String.toList_ofList]
  · rw [String.toList_ofList]

theorem Follows.takeClass {f : String → Scan γ} {g : String → Scan δ} (k : CharClass) (inside : w.Inside p)
    (second : ∀ v q, w.Inside q → q = p + v.toList.length → v.toList = Source.run k.has (w.text.drop p) →
      w.Follows q (f v) (g v) post) :
    w.Follows p (Scan.takeClass k >>= f) (Scan.takeClass k >>= g) post :=
  .takeWhile k.has inside second

theorem Follows.next {f : Option Char → Scan γ} {g : Option Char → Scan δ} (inside : w.Inside p)
    (second : ∀ c q, w.text[p]? = c → (c = none → q = p) → (∀ d, c = some d → q = p + 1) → q ≤ w.text.length →
      w.Follows q (f c) (g c) post) :
    w.Follows p (Scan.next >>= f) (Scan.next >>= g) post := by
  have left := SharedText.leftChar inside
  have right := SharedText.rightChar inside
  cases char : w.text[p]? with
  | none =>
    rw [char] at left right
    refine .after (v := none) (u := none) ?_ ?_ (second none p char (fun _ => rfl) (by simp) inside.le)
    · simp [Scan.next, left]
    · simp [Scan.next, right]
  | some c =>
    have less := SharedText.lt_of_getElem? char
    rw [char] at left right
    refine .after (v := some c) (u := some c) (q := p + 1) ?_ ?_ (second (some c) (p + 1) char (by simp) (fun _ _ => rfl) less)
    · simp [Scan.next, left, Nat.add_assoc]
    · simp [Scan.next, right, Nat.add_assoc]

theorem left_take (n : Nat) (inside : w.Inside p) :
    Scan.take n s (w.left + p) = .ok (String.ofList ((Source.run (fun _ => true) (w.text.drop p)).take n))
      (w.left + (p + ((Source.run (fun _ => true) (w.text.drop p)).take n).length)) := by
  rw [take_eq, SharedText.leftRun inside, Nat.add_assoc]

theorem right_take (n : Nat) (inside : w.Inside p) :
    Scan.take n t (w.right + p) = .ok (String.ofList ((Source.run (fun _ => true) (w.text.drop p)).take n))
      (w.right + (p + ((Source.run (fun _ => true) (w.text.drop p)).take n).length)) := by
  rw [take_eq, SharedText.rightRun inside, Nat.add_assoc]

theorem Follows.take {f : String → Scan γ} {g : String → Scan δ} (n : Nat) (inside : w.Inside p)
    (second : ∀ v q, w.Inside q → q = p + v.toList.length →
      v.toList = (Source.run (fun _ => true) (w.text.drop p)).take n → w.Follows q (f v) (g v) post) :
    w.Follows p (Scan.take n >>= f) (Scan.take n >>= g) post := by
  apply Follows.after (left_take n inside) (right_take n inside)
  apply second
  · exact SharedText.inside_of_le_run inside (List.length_take_le' ..)
  · rw [String.toList_ofList]
  · rw [String.toList_ofList]

/-- A text read from the line, with the cursor after it. -/
def Spans (w : Overlap s t) (p : Nat) (v u : String) (q : Nat) : Prop :=
  v = u ∧ w.Inside q ∧ q = p + v.length

theorem take_follows (n : Nat) (inside : w.Inside p) : w.Follows p (Scan.take n) (Scan.take n) (w.Spans p) := by
  apply Follows.of_ok (left_take n inside) (right_take n inside)
  refine ⟨rfl, SharedText.inside_of_le_run inside (List.length_take_le' ..), ?_⟩
  rw [← String.length_toList, String.toList_ofList]

theorem takeClass_follows (k : CharClass) (inside : w.Inside p) :
    w.Follows p (Scan.takeClass k) (Scan.takeClass k) (w.Spans p) := by
  apply Follows.of_ok (left_takeWhile k.has inside) (right_takeWhile k.has inside)
  refine ⟨rfl, SharedText.inside_of_le_run inside (Nat.le_refl _), ?_⟩
  rw [← String.length_toList, String.toList_ofList]

/-- At least the next character is taken, unless it ends the line. -/
theorem Follows.takeSome {f : String → Scan γ} {g : String → Scan δ} {c : Char} {n : Nat} (char : w.text[p]? = some c)
    (line : c ≠ '\n') (positive : 0 < n)
    (second : ∀ v q, w.Inside q → p < q → w.Follows q (f v) (g v) post) :
    w.Follows p (Scan.take n >>= f) (Scan.take n >>= g) post := by
  apply Follows.take n (.inl (SharedText.lt_of_getElem? char))
  intro v q inside length run
  have more := SharedText.run_pos (f := fun _ => true) char line rfl
  have taken := congrArg List.length run
  rw [List.length_take] at taken
  exact second v q inside (by omega)

theorem Follows.takeClassSome {f : String → Scan γ} {g : String → Scan δ} {c : Char} (k : CharClass)
    (char : w.text[p]? = some c) (has : k.has c = true)
    (second : ∀ v q, w.Inside q → p < q → w.Follows q (f v) (g v) post) :
    w.Follows p (Scan.takeClass k >>= f) (Scan.takeClass k >>= g) post := by
  apply Follows.takeClass k (.inl (SharedText.lt_of_getElem? char))
  intro v q inside length run
  have line : c ≠ '\n' := fun same => by simp [same, CharClass.has_newline] at has
  have more := SharedText.run_pos char line has
  rw [← run] at more
  exact second v q inside (by omega)

theorem Follows.peekRun {f : String → Scan γ} {g : String → Scan δ} (n : Nat) (inside : w.Inside p)
    (second : ∀ v, v.toList = (Source.run (fun _ => true) (w.text.drop p)).take n → w.Follows p (f v) (g v) post) :
    w.Follows p (Scan.peekRun n >>= f) (Scan.peekRun n >>= g) post := by
  apply Follows.after (peeking_of_ok (left_take n inside)) (peeking_of_ok (right_take n inside))
  apply second
  rw [String.toList_ofList]

theorem isPrefixOf_newline {word : List Char} (line : '\n' ∉ word) (xs ys : List Char) :
    word.isPrefixOf (xs ++ '\n' :: ys) = word.isPrefixOf xs := by
  induction word generalizing xs with
  | nil => simp
  | cons c word ih =>
    have other : c ≠ '\n' := fun same => line (by simp [same])
    have rest : '\n' ∉ word := fun place => line (by simp [place])
    cases xs with
    | nil => simp [List.isPrefixOf, other]
    | cons x xs => simp [List.isPrefixOf, ih rest]

theorem isPrefixOf_rest {word : List Char} (line : '\n' ∉ word) (inside : w.Inside p) (rest : List Char)
    (complete : w.Complete → rest = []) :
    word.isPrefixOf (w.text.drop p ++ rest) = word.isPrefixOf (w.text.drop p) := by
  rcases w.closed with whole | ⟨front, text⟩
  · simp [complete whole]
  · rcases inside with less | ⟨whole, -⟩
    · have within : p ≤ front.length := by
        rw [text] at less
        simpa [Nat.lt_succ_iff] using less
      rw [text, List.drop_append_of_le_length within, List.append_assoc, List.cons_append, isPrefixOf_newline line,
        isPrefixOf_newline line]
    · simp [complete whole]

/-- A word that stands at a place is all on its line. -/
theorem Follows.lookingAt {f : Bool → Scan γ} {g : Bool → Scan δ} {word : String} (line : '\n' ∉ word.toList)
    (inside : w.Inside p)
    (second : ∀ found, (found = true → word.toList <+: w.text.drop p ∧ w.Inside (p + word.length)) →
      w.Follows p (f found) (g found) post) :
    w.Follows p (Scan.lookingAt word >>= f) (Scan.lookingAt word >>= g) post := by
  have left := lookingAt_of_ahead word (SharedText.leftAhead_add (w := w.toSharedText) inside.le)
  have right := lookingAt_of_ahead word (SharedText.rightAhead_add (w := w.toSharedText) inside.le)
  rw [isPrefixOf_rest line inside _ And.left] at left
  rw [isPrefixOf_rest line inside _ And.right] at right
  apply Follows.after left right
  apply second
  intro found
  have starts := List.isPrefixOf_iff_prefix.mp found
  have inRun : word.toList <+: Source.run (fun _ => true) (w.text.drop p) := by
    obtain ⟨rest, whole⟩ := starts
    have all : ∀ c ∈ word.toList, (c != '\n' && true) = true := by
      intro c place
      have other : c ≠ '\n' := fun same => line (same ▸ place)
      simp [other]
    rw [← whole, Source.run, List.takeWhile_append_of_pos all]
    exact List.prefix_append _ _
  have short := inRun.length_le
  rw [String.length_toList] at short
  exact ⟨starts, SharedText.inside_of_le_run inside short⟩

/-! ### Repetition -/

/-- A turn that goes round again has moved on. -/
def Turned (w : Overlap s t) (keeps : σ → τ → Nat → Prop) (post : α → β → Nat → Prop) (p : Nat) :
    Turn σ α → Turn τ β → Nat → Prop
  | .again a, .again b, q => p < q ∧ q ≤ w.text.length ∧ keeps a b q
  | .done a, .done b, q => post a b q
  | _, _, _ => False

theorem Follows.repeatUpTo {body : σ → Scan (Turn σ α)} {body' : τ → Scan (Turn τ β)} {from_ : Nat}
    (keeps : σ → τ → Nat → Prop)
    (step : ∀ a b q, from_ ≤ q → keeps a b q → w.Follows q (body a) (body' b) (w.Turned keeps mid q)) (n m : Nat) :
    ∀ a b p, from_ ≤ p → p ≤ w.text.length → keeps a b p → w.text.length - p < n → w.text.length - p < m →
      w.Follows p (Scan.repeatUpTo body n a) (Scan.repeatUpTo body' m b) mid := by
  induction n generalizing m with
  | zero => intro a b p _ _ _ none; omega
  | succ n ih =>
    intro a b p later bound kept enough enough'
    obtain ⟨m, rfl⟩ : ∃ k, m = k + 1 := ⟨m - 1, by omega⟩
    have turn := step a b p later kept
    unfold Follows at turn ⊢
    simp only [Scan.repeatUpTo]
    cases run : body a s (w.left + p) with
    | ok v j =>
      rw [run] at turn
      obtain ⟨u, q, rfl, right, met⟩ := turn
      rw [right]
      cases v <;> cases u <;> simp only [Turned] at met
      case again.again a' b' => exact ih m a' b' q (by omega) met.2.1 met.2.2 (by omega) (by omega)
      case done.done v u => exact ⟨u, q, rfl, rfl, met⟩
    | fail e j =>
      rw [run] at turn
      intro compared
      obtain ⟨e', q, same, right, faults⟩ := turn compared
      exact ⟨e', q, same, by rw [right], faults⟩
    | spent =>
      rw [run] at turn
      exact turn

theorem Follows.loop {body : σ → Scan (Turn σ α)} {body' : τ → Scan (Turn τ β)} {a : σ} {b : τ}
    (keeps : σ → τ → Nat → Prop) (start : keeps a b p) (bound : p ≤ w.text.length)
    (step : ∀ a b q, p ≤ q → keeps a b q → w.Follows q (body a) (body' b) (w.Turned keeps mid q)) :
    w.Follows p (Scan.loop a body) (Scan.loop b body') mid := by
  have left := w.length_le_leftSize
  have right := w.length_le_rightSize
  exact Follows.repeatUpTo keeps step (s.size + 2) (t.size + 2) a b p (Nat.le_refl p) bound start (by omega) (by omega)

/-! ### Scans that end before the text -/

/-- The first scan ends before the text does. -/
def EndsWithin (w : Overlap s t) (p : Nat) (x : Scan α) : Prop :=
  ∃ v j, x s (w.left + p) = .ok v j ∧ j < w.left + w.text.length

theorem EndsWithin.after {v : α} (h : w.EndsWithin p (x >>= f)) (run : x s (w.left + p) = .ok v (w.left + q)) :
    w.EndsWithin q (f v) := by
  rwa [EndsWithin, bind_of_ok run] at h

/-- What comes before a scan that does not go back ends within the text as well. -/
theorem EndsWithin.first (h : w.EndsWithin p (x >>= f)) (onward : ∀ v i, (f v).Gives s i fun _ j => i ≤ j) :
    w.EndsWithin p x := by
  obtain ⟨u, j, run, within⟩ := h
  obtain ⟨v, i, first, second⟩ := bind_ok.mp run
  have later := (onward v i).of_ok second
  exact ⟨v, i, first, by omega⟩

theorem repeatUpTo_onward {body : σ → Scan (Turn σ α)} (onward : ∀ a i, (body a).Gives s i fun _ j => i ≤ j) {n i j : Nat}
    {a : σ} {v : α} (run : Scan.repeatUpTo body n a s i = .ok v j) : i ≤ j := by
  obtain ⟨last, k, later, stops⟩ := repeatUpTo_ok_of_invariant (fun _ k => i ≤ k)
    (fun a k a' l later goes => Nat.le_trans later ((onward a k).of_ok goes)) n a i v j (Nat.le_refl i) run
  exact Nat.le_trans later ((onward last k).of_ok stops)

/-- The first buffer ends with the text, and faults are compared only if the second one does as well. -/
def Ends (w : Overlap s t) : Prop :=
  w.leftRest = [] ∧ (w.faults → w.Complete)

theorem Ends.of_complete (complete : w.Complete) : w.Ends :=
  ⟨complete.1, fun _ => complete⟩

/-- A repetition that may go on to the end of the buffer. Either both buffers end with the text, or the repetition ends
before, or the first buffer ends with the text and a turn that starts there comes to a fault. -/
theorem Follows.gather {body : σ → Scan (Turn σ α)} {body' : τ → Scan (Turn τ β)} {a : σ} {b : τ}
    (keeps : σ → τ → Prop) (start : keeps a b) (bound : p ≤ w.text.length)
    (spared : (w.Complete ∨ w.Ends ∧ ∀ a, ∃ e j, body a s s.size = .fail e j) ∨ w.EndsWithin p (Scan.loop a body))
    (onward : ∀ a i, (body a).Gives s i fun _ j => i ≤ j)
    (step : ∀ a b q, p ≤ q → w.Inside q → keeps a b →
      w.Follows q (body a) (body' b) (w.Turned (fun a b _ => keeps a b) mid q)) :
    w.Follows p (Scan.loop a body) (Scan.loop b body') mid := by
  -- From every turn on the rest of the repetition ends within the text, so that the turn starts inside of it.
  let rest (a : σ) (q : Nat) : Prop :=
    (w.Complete ∨ w.Ends ∧ ∀ a, ∃ e j, body a s s.size = .fail e j) ∨
      ∃ n v j, Scan.repeatUpTo body n a s (w.left + q) = .ok v j ∧ j < w.left + w.text.length
  have starts : rest a p := spared.imp_right fun ⟨v, j, run, within⟩ => ⟨s.size + 2, v, j, run, within⟩
  apply Follows.loop (fun a b q => keeps a b ∧ q ≤ w.text.length ∧ rest a q) ⟨start, bound, starts⟩ bound
  rintro a b q later ⟨kept, bound, goes⟩
  by_cases inside : w.Inside q
  · apply (step a b q later inside kept).run.mono
    rintro v u r ⟨met, ran⟩
    cases v <;> cases u <;> simp only [Turned] at met ⊢
    case done.done v u => exact met
    case again.again a' b' =>
      refine ⟨met.1, met.2.1, met.2.2, met.2.1, goes.imp_right ?_⟩
      rintro ⟨n, v, j, run, within⟩
      cases n with
      | zero => simp [Scan.repeatUpTo] at run
      | succ n =>
        simp only [Scan.repeatUpTo, ran] at run
        exact ⟨n, v, j, run, within⟩
  · have apart : ¬w.Complete := fun complete => inside (SharedText.inside_of_complete complete bound)
    have last : q = w.text.length := by
      by_contra other
      exact inside (.inl (by omega))
    rcases goes with (complete | ⟨alone, fails⟩) | ⟨n, v, j, run, within⟩
    · exact absurd complete apart
    · obtain ⟨e, j, run⟩ := fails a
      rw [SharedText.leftSize alone.1, ← last] at run
      exact .of_fails (fun compared => apart (alone.2 compared)) ⟨e, j, run⟩
    · have after := repeatUpTo_onward onward run
      omega

/-! ### Scans that read on one line -/

/-- A scan that stays on its line and gives the same value on both sides. -/
class Steady (x : Scan α) : Prop where
  follows : ∀ {s t : Source} (w : Overlap s t) (p : Nat), w.Inside p → w.Follows p x x (w.Kept p Eq)

theorem Follows.skip {x : Scan α} [steady : Steady x] {f : α → Scan γ} {g : α → Scan δ} (inside : w.Inside p)
    (second : ∀ v q, w.Inside q → p ≤ q → x s (w.left + p) = .ok v (w.left + q) → w.Follows q (f v) (g v) post) :
    w.Follows p (x >>= f) (x >>= g) post := by
  apply (steady.follows w p inside).bind
  rintro v u q ⟨rfl, inside', later⟩ run
  exact second v q inside' later run

theorem Steady.of_ok {x : Scan α}
    (run : ∀ {s t : Source} (w : Overlap s t) (p : Nat), w.Inside p → ∃ v n, w.Inside (p + n) ∧
      x s (w.left + p) = .ok v (w.left + (p + n)) ∧ x t (w.right + p) = .ok v (w.right + (p + n))) : Steady x where
  follows w p inside := by
    obtain ⟨v, n, inside', left, right⟩ := run w p inside
    exact .of_ok left right ⟨rfl, inside', Nat.le_add_right p n⟩

instance (v : α) : Steady (Pure.pure v : Scan α) :=
  .of_ok fun _ _ inside => ⟨v, 0, inside, rfl, rfl⟩

instance : Steady Scan.peek :=
  .of_ok fun _ _ inside => ⟨_, 0, inside, left_peek inside, right_peek inside⟩

instance : Steady Scan.peekInLine :=
  .of_ok fun _ _ inside => ⟨_, 0, inside, left_peekInLine inside, right_peekInLine inside⟩

instance (f : Char → Bool) : Steady (Scan.takeWhile f) :=
  .of_ok fun _ _ inside =>
    ⟨_, _, SharedText.inside_of_le_run inside (Nat.le_refl _), left_takeWhile f inside, right_takeWhile f inside⟩

instance (f : Char → Bool) : Steady (Scan.skipWhile f) :=
  .of_ok fun w p inside => by
    refine ⟨(), (Source.run f (w.text.drop p)).length, ?_, ?_, ?_⟩
    · exact SharedText.inside_of_le_run inside (Nat.le_refl _)
    · rw [skipWhile_eq, SharedText.leftRun inside, Nat.add_assoc]
    · rw [skipWhile_eq, SharedText.rightRun inside, Nat.add_assoc]

instance (n : Nat) : Steady (Scan.take n) :=
  .of_ok fun _ _ inside =>
    ⟨_, _, SharedText.inside_of_le_run inside (List.length_take_le' ..), left_take n inside, right_take n inside⟩

instance (k : CharClass) : Steady (Scan.takeClass k) :=
  inferInstanceAs (Steady (Scan.takeWhile k.has))

instance : Steady Scan.takeLine :=
  inferInstanceAs (Steady (Scan.takeWhile fun _ => true))

instance : Steady Scan.takeNonWhite :=
  inferInstanceAs (Steady (Scan.takeWhile fun c => !CharClass.white.has c))

instance : Steady Scan.skipWhite :=
  inferInstanceAs (Steady (Scan.skipWhile CharClass.white.has))

instance : Steady Scan.skipWhiteAndColons :=
  inferInstanceAs (Steady (Scan.skipWhile fun c => CharClass.white.has c || c == ':'))

instance {x : Scan α} [steady : Steady x] : Steady (Scan.peeking x) where
  follows w p inside := by
    apply (steady.follows w p inside).peeking.mono
    rintro v u q ⟨rfl, _, same, _, _⟩
    exact ⟨same, inside, Nat.le_refl _⟩

instance (n : Nat) : Steady (Scan.peekRun n) :=
  inferInstanceAs (Steady (Scan.peeking (Scan.take n)))

instance : Steady Scan.peekLine :=
  inferInstanceAs (Steady (Scan.peeking Scan.takeLine))

theorem takeInteger_follows (inside : w.Inside p) :
    w.Follows p Scan.takeInteger Scan.takeInteger (w.Spans p) := by
  apply Follows.through (w.Spans p)
  · apply Follows.peekInLine inside
    intro c _
    split
    · exact take_follows 1 inside
    · exact take_follows 1 inside
    · exact .pure ⟨rfl, inside, rfl⟩
  · rintro sign _ q ⟨rfl, inside', length⟩ -
    apply (takeClass_follows .digit inside').bind
    rintro digits _ r ⟨rfl, inside'', length'⟩ -
    exact .pure ⟨rfl, inside'', by rw [String.length_append]; omega⟩

-- Readers are compared with the rules above from here on.
attribute [irreducible] Follows

end Overlap

end VimScript
