import VimScript.Fault
import VimScript.Source

/-!
Reading from a buffer. A `Scan` takes a buffer and a cursor and answers with a value or a fault, and in both
cases with the cursor it stopped at. The cursor may stand past the end of the buffer, where nothing is read.
Repetition is bounded: a scan that used up its bound answers `spent`, which is neither a value nor a fault.
-/

set_option autoImplicit false

namespace VimScript

inductive Reply (α : Type) where
  | ok (value : α) (cursor : Nat)
  | fail (fault : Fault) (cursor : Nat)
  | spent
deriving DecidableEq, Repr

def Scan (α : Type) : Type :=
  Source → Nat → Reply α

namespace Scan

variable {α β σ : Type}

@[always_inline, inline]
def pure (a : α) : Scan α :=
  fun _ i => .ok a i

@[always_inline, inline]
def bind (x : Scan α) (f : α → Scan β) : Scan β :=
  fun s i =>
    match x s i with
    | .ok a j => f a s j
    | .fail e j => .fail e j
    | .spent => .spent

instance : Monad Scan where
  pure := Scan.pure
  bind := Scan.bind

theorem pure_apply (a : α) (s : Source) (i : Nat) : (Pure.pure a : Scan α) s i = .ok a i := rfl

theorem bind_apply (x : Scan α) (f : α → Scan β) (s : Source) (i : Nat) :
    (x >>= f) s i =
      match x s i with
      | .ok a j => f a s j
      | .fail e j => .fail e j
      | .spent => .spent := rfl

theorem bind_ok {x : Scan α} {f : α → Scan β} {s : Source} {i j : Nat} {b : β} :
    (x >>= f) s i = .ok b j ↔ ∃ a k, x s i = .ok a k ∧ f a s k = .ok b j := by
  rw [bind_apply]
  cases x s i <;> grind

theorem bind_fail {x : Scan α} {f : α → Scan β} {s : Source} {i j : Nat} {e : Fault} :
    (x >>= f) s i = .fail e j ↔
      x s i = .fail e j ∨ ∃ a k, x s i = .ok a k ∧ f a s k = .fail e j := by
  rw [bind_apply]
  cases x s i <;> grind

theorem id_map_eq (x : Scan α) : id <$> x = x := by
  funext s i
  show Scan.bind x Scan.pure s i = x s i
  unfold Scan.bind
  cases x s i <;> rfl

theorem bind_assoc_eq {γ : Type} (x : Scan α) (f : α → Scan β) (g : β → Scan γ) :
    x >>= f >>= g = x >>= fun a => f a >>= g := by
  funext s i
  simp only [bind_apply]
  cases x s i <;> rfl

instance : LawfulMonad Scan :=
  LawfulMonad.mk' Scan id_map_eq (fun _ _ => rfl) bind_assoc_eq

/-! ### The cursor -/

def tell : Scan Nat :=
  fun _ i => .ok i i

def seek (j : Nat) : Scan Unit :=
  fun _ _ => .ok () j

def skip (n : Nat) : Scan Unit :=
  fun _ i => .ok () (i + n)

def seekEnd : Scan Unit :=
  fun s _ => .ok () s.size

def atEnd : Scan Bool :=
  fun s i => .ok (s.size ≤ i) i

def here : Scan Position :=
  fun s i => .ok (s.position i) i

/-- Fails where the cursor stands, with a cause reported at the given position. -/
def fail (cause : Cause) (position : Position) : Scan α :=
  fun _ i => .fail ⟨cause, position⟩ i

def failHere (cause : Cause) : Scan α :=
  fun s i => .fail ⟨cause, s.position i⟩ i

/-- Runs a scan and puts the cursor back, whatever the outcome. -/
def peeking (x : Scan α) : Scan α :=
  fun s i =>
    match x s i with
    | .ok a _ => .ok a i
    | .fail e _ => .fail e i
    | .spent => .spent

/-! ### Characters -/

def peekAt (n : Nat) : Scan (Option Char) :=
  fun s i => .ok (s.char? (i + n)) i

def peek : Scan (Option Char) :=
  peekAt 0

/-- The next character if the line goes on. -/
def peekInLine : Scan (Option Char) :=
  fun s i => .ok ((s.char? i).filter (· != '\n')) i

def next : Scan (Option Char) :=
  fun s i =>
    match s.char? i with
    | some c => .ok (some c) (i + 1)
    | none => .ok none i

/-- Whether the given word stands at the cursor. -/
def lookingAt (word : String) : Scan Bool :=
  fun s i => .ok (word.toList.isPrefixOf (s.between i (i + word.length))) i

/-! ### Runs on one line -/

/-- At most `n` characters of the line. -/
def take (n : Nat) : Scan String :=
  fun s i =>
    let j := s.runEnd (fun _ => true) n i
    .ok (s.text i j) j

def takeWhile (p : Char → Bool) : Scan String :=
  fun s i =>
    let j := s.runEnd p (s.size - i) i
    .ok (s.text i j) j

def skipWhile (p : Char → Bool) : Scan Unit :=
  fun s i => .ok () (s.runEnd p (s.size - i) i)

def takeClass (k : CharClass) : Scan String :=
  takeWhile k.has

def peekRun (n : Nat) : Scan String :=
  peeking (take n)

def takeLine : Scan String :=
  takeWhile fun _ => true

def peekLine : Scan String :=
  peeking takeLine

/-- The rest of the line; its end is consumed as well. -/
def readLine : Scan String := do
  let line ← takeLine
  let _ ← next
  return line

def skipWhite : Scan Unit :=
  skipWhile CharClass.white.has

def skipWhiteAndColons : Scan Unit :=
  skipWhile fun c => CharClass.white.has c || c == ':'

def takeNonWhite : Scan String :=
  takeWhile fun c => !CharClass.white.has c

/-- Decimal digits after an optional sign; the sign may stand alone. -/
def takeInteger : Scan String := do
  let sign ← (do
    match ← peekInLine with
    | some '-' | some '+' => take 1
    | _ => return "")
  let digits ← takeClass .digit
  return sign ++ digits

def textSince (start : Nat) : Scan String :=
  fun s i => .ok (s.text start i) i

def textBetween (start stop : Nat) : Scan String :=
  fun s i => .ok (s.text start stop) i

/-! ### Repetition -/

/-- One turn of a repetition: go round again with a new state, or stop with a value. -/
inductive Turn (σ α : Type) where
  | again (state : σ)
  | done (value : α)

def repeatUpTo (body : σ → Scan (Turn σ α)) : Nat → σ → Scan α
  | 0, _ => fun _ _ => .spent
  | n + 1, state => fun s i =>
    match body state s i with
    | .ok (.again state) j => repeatUpTo body n state s j
    | .ok (.done a) j => .ok a j
    | .fail e j => .fail e j
    | .spent => .spent

/-- Repeats a step from a starting state. Every step that goes round again has to move the cursor on, so the
bound, which comes from the length of the buffer, is never met. -/
def loop (state : σ) (body : σ → Scan (Turn σ α)) : Scan α :=
  fun s i => repeatUpTo body (s.size + 2) state s i

/-- A state kept by every turn of a repetition is kept by all of it. -/
theorem repeatUpTo_ok_of_invariant {body : σ → Scan (Turn σ α)} {s : Source}
    (keeps : σ → Nat → Prop)
    (step : ∀ state i state' j, keeps state i → body state s i = .ok (.again state') j → keeps state' j) :
    ∀ (n : Nat) (state : σ) (i : Nat) (a : α) (j : Nat), keeps state i →
      repeatUpTo body n state s i = .ok a j →
      ∃ last k, keeps last k ∧ body last s k = .ok (.done a) j := by
  intro n
  induction n with
  | zero => intro state i a j _ h; simp [repeatUpTo] at h
  | succ n ih =>
    intro state i a j kept h
    simp only [repeatUpTo] at h
    split at h
    · rename_i state' k found
      exact ih state' k a j (step state i state' k kept found) h
    · rename_i b k found
      obtain ⟨rfl, rfl⟩ : b = a ∧ k = j := by simpa using h
      exact ⟨state, i, kept, found⟩
    · simp at h
    · simp at h

/-! ### Blobs -/

/-- The digits of a blob: pairs of hexadecimal digits with single dots between or before them. A digit
without a partner on its line fails only where another character follows it. -/
def takeBlobDigits : Scan String := do
  let start ← tell
  loop () fun _ => do
    let ahead ← peekRun 2
    match ahead.toList with
    | [a, b] =>
      if CharClass.hex.has a && CharClass.hex.has b then
        let _ ← take 2
        return .again ()
      else if a == '.' && CharClass.hex.has b then
        let _ ← take 1
        return .again ()
      else if CharClass.hex.has a then
        failHere (.oddBlob a b)
      else
        return .done (← textSince start)
    | _ => return .done (← textSince start)

end Scan

end VimScript
