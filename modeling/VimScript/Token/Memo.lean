import VimScript.Token.Lexer

/-!
A tokenizer that remembers what it read. Tokens are kept by the cursor they were asked for at; faults are not
kept.
-/

set_option autoImplicit false

namespace VimScript

structure Tokenizer where
  /-- By starting cursor, the token read there and the cursor after it. -/
  memo : List (Nat × Token × Nat) := []
deriving DecidableEq, Repr

namespace Tokenizer

def get (t : Tokenizer) (s : Source) (i : Nat) : Reply Token × Tokenizer :=
  match t.memo.lookup i with
  | some (token, j) => (.ok token j, t)
  | none =>
    match Token.next s i with
    | .ok token j => (.ok token j, ⟨(i, token, j) :: t.memo⟩)
    | reply => (reply, t)

def peek (t : Tokenizer) (s : Source) (i : Nat) : Reply Token × Tokenizer :=
  let (reply, t) := t.get s i
  match reply with
  | .ok token _ => (.ok token i, t)
  | .fail fault _ => (.fail fault i, t)
  | .spent => (.spent, t)

/-- Every remembered token is the one that would be read again. -/
def Faithful (t : Tokenizer) (s : Source) : Prop :=
  ∀ i token j, t.memo.lookup i = some (token, j) → Token.next s i = .ok token j

theorem faithful_empty (s : Source) : Faithful {} s := by
  intro i token j h
  simp at h

theorem get_fst {t : Tokenizer} {s : Source} (h : t.Faithful s) (i : Nat) :
    (t.get s i).1 = Token.next s i := by
  unfold get
  split
  · rename_i token j found
    exact (h i token j found).symm
  · cases found : Token.next s i <;> rfl

theorem faithful_get {t : Tokenizer} {s : Source} (h : t.Faithful s) (i : Nat) :
    (t.get s i).2.Faithful s := by
  unfold get
  split
  · exact h
  · cases read : Token.next s i with
    | ok token j =>
      intro k other l found
      rw [List.lookup_cons] at found
      split at found
      · rename_i same
        obtain ⟨rfl, rfl⟩ : token = other ∧ j = l := by simpa using found
        rw [eq_of_beq same]
        exact read
      · exact h k other l found
    | fail fault j => exact h
    | spent => exact h

end Tokenizer

end VimScript
