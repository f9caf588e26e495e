import VimScript.Source

/-!
What is ahead of a cursor: reading a buffer as a list of characters.
-/

set_option autoImplicit false

namespace VimScript.Source

variable {s : Source} {i : Nat} {xs cs : List Char} {c : Char} {p : Char → Bool}

/-- The characters from a cursor on. -/
def ahead (s : Source) (i : Nat) : List Char :=
  s.chars.toList.drop i

theorem ahead_add (s : Source) (i n : Nat) : s.ahead (i + n) = (s.ahead i).drop n := by
  simp [ahead]

theorem char?_add (s : Source) (i n : Nat) : s.char? (i + n) = (s.ahead i)[n]? := by
  simp [ahead, char?]

theorem char?_eq (s : Source) (i : Nat) : s.char? i = (s.ahead i).head? := by
  simpa [List.head?_eq_getElem?] using char?_add s i 0

theorem length_ahead (s : Source) (i : Nat) : (s.ahead i).length = s.size - i := by
  simp [ahead, size]

theorem between_add (s : Source) (i n : Nat) : s.between i (i + n) = (s.ahead i).take n := by
  simp [between, ahead, List.take_drop]

theorem ahead_of_append (h : s.ahead i = xs ++ cs) : s.ahead (i + xs.length) = cs := by
  simp [ahead_add, h]

theorem ahead_of_cons (h : s.ahead i = c :: cs) : s.ahead (i + 1) = cs := by
  simp [ahead_add, h]

theorem lt_size_of_cons (h : s.ahead i = c :: cs) : i < s.size := by
  have length := length_ahead s i
  rw [h, List.length_cons] at length
  omega

theorem char?_of_cons (h : s.ahead i = c :: cs) : s.char? i = some c := by
  simp [char?_eq, h]

theorem text_of_append (h : s.ahead i = xs ++ cs) : s.text i (i + xs.length) = String.ofList xs := by
  simp [text, between_add, h]

/-- From one cursor to another with less ahead of it. -/
theorem lt_of_ahead {ys : List Char} {k : Nat} (xs : List Char) (h : s.ahead i = xs ++ ys) (h' : s.ahead k = ys)
    (some : xs ≠ []) (more : ys ≠ []) : i < k ∧ k ≤ s.size := by
  have before := length_ahead s i
  have after := length_ahead s k
  rw [h, List.length_append] at before
  rw [h'] at after
  have left : 0 < xs.length := List.length_pos_iff.mpr some
  have right : 0 < ys.length := List.length_pos_iff.mpr more
  omega

/-- The start of a text that is on one line and in a class. -/
def run (p : Char → Bool) (cs : List Char) : List Char :=
  cs.takeWhile fun c => c != '\n' && p c

theorem runEnd_eq_take (s : Source) (p : Char → Bool) (n i : Nat) :
    s.runEnd p n i = i + (run p ((s.ahead i).take n)).length := by
  induction n generalizing i with
  | zero => simp [runEnd, run]
  | succ n ih =>
    rw [runEnd, char?_eq]
    cases front : s.ahead i with
    | nil => simp [run]
    | cons c cs =>
      have rest : s.ahead (i + 1) = cs := ahead_of_cons front
      by_cases goes : (c != '\n' && p c) = true
      · have following := ih (i + 1)
        simp only [rest, run] at following
        simp only [run, List.head?_cons, List.take_succ_cons, goes, if_true, List.takeWhile_cons, List.length_cons,
          following]
        omega
      · simp [run, goes]

theorem runEnd_eq (s : Source) (p : Char → Bool) (i : Nat) :
    s.runEnd p (s.size - i) i = i + (run p (s.ahead i)).length := by
  rw [runEnd_eq_take, ← length_ahead, List.take_length]

theorem run_take (p : Char → Bool) (n : Nat) (cs : List Char) : run p (cs.take n) = (run p cs).take n := by
  induction cs generalizing n with
  | nil => simp [run]
  | cons c cs ih =>
    cases n with
    | zero => simp [run]
    | succ n =>
      simp only [run, List.take_succ_cons, List.takeWhile_cons] at ih ⊢
      split
      · rw [ih, List.take_succ_cons]
      · rfl

/-- A run ends where a text goes on with the line end or with a character outside the class. -/
theorem run_append (inside : ∀ x ∈ xs, x ≠ '\n' ∧ p x = true)
    (stop : ∀ c ∈ cs.head?, c = '\n' ∨ p c = false) : run p (xs ++ cs) = xs := by
  have all : ∀ x ∈ xs, (x != '\n' && p x) = true := by simpa using inside
  rw [run, List.takeWhile_append_of_pos all]
  cases cs with
  | nil => simp
  | cons c cs =>
    have out : (c != '\n' && p c) = false := by
      rcases stop c rfl with rfl | out
      · simp
      · simp [out]
    simp [out]

end VimScript.Source
