import Mathlib.Data.List.TakeWhile
import VimScript.Proofs.CharClass
import VimScript.Proofs.Source.Ahead
import VimScript.Scan

/-!
What scans give on a known text: for each primitive its value and where it leaves the cursor, from what is ahead of
the cursor.
-/

set_option autoImplicit false

namespace VimScript.Scan

variable {α β σ : Type} {s : Source} {i j k : Nat} {xs cs : List Char} {c : Char}

theorem bind_of_ok {x : Scan α} {f : α → Scan β} {a : α} (h : x s i = .ok a j) : (x >>= f) s i = f a s j := by
  simp [bind_apply, h]

theorem bind_congr {x : Scan α} {f g : α → Scan β} (second : ∀ a j, x s i = .ok a j → f a s j = g a s j) :
    (x >>= f) s i = (x >>= g) s i := by
  rw [bind_apply, bind_apply]
  cases run : x s i with
  | ok a j => exact second a j run
  | fail e j => rfl
  | spent => rfl

theorem map_of_ok {x : Scan α} {f : α → β} {a : α} (h : x s i = .ok a j) : (f <$> x) s i = .ok (f a) j :=
  bind_of_ok h

theorem peeking_of_ok {x : Scan α} {a : α} (h : x s i = .ok a j) : peeking x s i = .ok a i := by
  simp [peeking, h]

@[simp] theorem tell_apply (s : Source) (i : Nat) : tell s i = .ok i i := rfl

@[simp] theorem seek_apply (j : Nat) (s : Source) (i : Nat) : seek j s i = .ok () j := rfl

@[simp] theorem skip_apply (n : Nat) (s : Source) (i : Nat) : skip n s i = .ok () (i + n) := rfl

@[simp] theorem here_apply (s : Source) (i : Nat) : here s i = .ok (s.position i) i := rfl

/-! ### Characters -/

theorem peekAt_of_ahead (n : Nat) (h : s.ahead i = cs) : peekAt n s i = .ok cs[n]? i := by
  simp [peekAt, Source.char?_add, h]

theorem peek_of_ahead (h : s.ahead i = cs) : peek s i = .ok cs.head? i := by
  simpa [List.head?_eq_getElem?, peek] using peekAt_of_ahead 0 h

theorem peekInLine_of_ahead (h : s.ahead i = cs) : peekInLine s i = .ok (cs.head?.filter (· != '\n')) i := by
  simp [peekInLine, Source.char?_eq, h]

theorem next_of_cons (h : s.ahead i = c :: cs) : next s i = .ok (some c) (i + 1) := by
  simp [next, Source.char?_of_cons h]

theorem lookingAt_of_ahead (word : String) (h : s.ahead i = cs) :
    lookingAt word s i = .ok (word.toList.isPrefixOf cs) i := by
  have short : word.toList.isPrefixOf (cs.take word.length) = word.toList.isPrefixOf cs := by
    rw [Bool.eq_iff_iff, List.isPrefixOf_iff_prefix, List.isPrefixOf_iff_prefix, List.prefix_take_iff]
    simp [String.length_toList]
  simp [lookingAt, Source.between_add, h, short]

/-! ### Runs -/

theorem takeWhile_eq (p : Char → Bool) (s : Source) (i : Nat) :
    takeWhile p s i =
      .ok (String.ofList (Source.run p (s.ahead i))) (i + (Source.run p (s.ahead i)).length) := by
  have split : s.ahead i = Source.run p (s.ahead i) ++ (s.ahead i).dropWhile fun c => c != '\n' && p c :=
    List.takeWhile_append_dropWhile.symm
  simp [takeWhile, Source.runEnd_eq, Source.text_of_append split]

theorem take_eq (n : Nat) (s : Source) (i : Nat) :
    take n s i =
      .ok (String.ofList ((Source.run (fun _ => true) (s.ahead i)).take n))
        (i + ((Source.run (fun _ => true) (s.ahead i)).take n).length) := by
  have starts : (Source.run (fun _ => true) (s.ahead i)).take n <+: s.ahead i :=
    (List.take_prefix n _).trans (List.takeWhile_prefix _)
  obtain ⟨rest, split⟩ := starts
  simp only [take, Source.runEnd_eq_take, Source.run_take, Source.text_of_append split.symm]

theorem skipWhile_eq (p : Char → Bool) (s : Source) (i : Nat) :
    skipWhile p s i = .ok () (i + (Source.run p (s.ahead i)).length) := by
  simp [skipWhile, Source.runEnd_eq]

theorem takeWhile_of_ahead (p : Char → Bool) (h : s.ahead i = xs ++ cs) (inside : ∀ x ∈ xs, x ≠ '\n' ∧ p x = true)
    (stop : ∀ c ∈ cs.head?, c = '\n' ∨ p c = false) :
    takeWhile p s i = .ok (String.ofList xs) (i + xs.length) := by
  have last : s.runEnd p (s.size - i) i = i + xs.length := by
    rw [Source.runEnd_eq, h, Source.run_append inside stop]
  simp [takeWhile, last, Source.text_of_append h]

theorem skipWhile_of_ahead (p : Char → Bool) (h : s.ahead i = xs ++ cs) (inside : ∀ x ∈ xs, x ≠ '\n' ∧ p x = true)
    (stop : ∀ c ∈ cs.head?, c = '\n' ∨ p c = false) : skipWhile p s i = .ok () (i + xs.length) := by
  simp [skipWhile, Source.runEnd_eq, h, Source.run_append inside stop]

theorem ne_newline_of_has {kind : CharClass} {x : Char} (h : kind.has x = true) : x ≠ '\n' := by
  rintro rfl
  simp [CharClass.has_newline] at h

theorem takeClass_of_ahead (kind : CharClass) (h : s.ahead i = xs ++ cs) (inside : ∀ x ∈ xs, kind.has x = true)
    (stop : kind.hasOpt cs.head? = false) : takeClass kind s i = .ok (String.ofList xs) (i + xs.length) := by
  refine takeWhile_of_ahead _ h (fun x place => ⟨ne_newline_of_has (inside x place), inside x place⟩) ?_
  intro c first
  rw [first] at stop
  exact .inr stop

theorem takeLine_of_ahead (h : s.ahead i = xs ++ cs) (line : '\n' ∉ xs) (ends : ∀ c ∈ cs.head?, c = '\n') :
    takeLine s i = .ok (String.ofList xs) (i + xs.length) := by
  refine takeWhile_of_ahead _ h (fun x place => ⟨?_, rfl⟩) fun c first => .inl (ends c first)
  rintro rfl
  exact line place

theorem readLine_of_ahead (h : s.ahead i = xs ++ '\n' :: cs) (line : '\n' ∉ xs) :
    readLine s i = .ok (String.ofList xs) (i + xs.length + 1) := by
  have taken := takeLine_of_ahead h line (by simp)
  rw [readLine, bind_of_ok taken, bind_of_ok (next_of_cons (Source.ahead_of_append h))]
  rfl

theorem skipWhite_of_ahead (xs : List Char) (h : s.ahead i = xs ++ cs) (blanks : ∀ x ∈ xs, CharClass.white.has x = true)
    (stop : CharClass.white.hasOpt cs.head? = false) : skipWhite s i = .ok () (i + xs.length) := by
  refine skipWhile_of_ahead _ h (fun x place => ⟨ne_newline_of_has (blanks x place), blanks x place⟩) ?_
  intro c first
  rw [first] at stop
  exact .inr stop

theorem skipWhite_of_solid (h : s.ahead i = cs) (solid : CharClass.white.hasOpt cs.head? = false) :
    skipWhite s i = .ok () i :=
  skipWhite_of_ahead [] h (by simp) solid

theorem take_of_ahead (xs : List Char) (h : s.ahead i = xs ++ cs) (line : '\n' ∉ xs) :
    take xs.length s i = .ok (String.ofList xs) (i + xs.length) := by
  have all : ∀ x ∈ xs, (x != '\n' && true) = true := by
    intro x place
    have solid : x ≠ '\n' := fun same => line (same ▸ place)
    simp [solid]
  have last : s.runEnd (fun _ => true) xs.length i = i + xs.length := by
    rw [Source.runEnd_eq_take, h, List.take_left, Source.run, List.takeWhile_eq_self_iff.mpr all]
  simp [take, last, Source.text_of_append h]

theorem peekRun_of_ahead (n : Nat) (h : s.ahead i = cs) :
    peekRun n s i = .ok (String.ofList ((cs.take n).takeWhile (· != '\n'))) i := by
  have last : s.runEnd (fun _ => true) n i = i + ((cs.take n).takeWhile (· != '\n')).length := by
    simp [Source.runEnd_eq_take, h, Source.run]
  have split : s.ahead i = (cs.take n).takeWhile (· != '\n') ++ ((cs.take n).dropWhile (· != '\n') ++ cs.drop n) := by
    simp [h, ← List.append_assoc, List.takeWhile_append_dropWhile, List.take_append_drop]
  simp [peekRun, peeking, take, last, Source.text_of_append split]

/-! ### Repetition -/

/-- A repetition turn by turn. -/
inductive Rounds (body : σ → Scan (Turn σ α)) (s : Source) : σ → Nat → α → Nat → Prop where
  | last {state : σ} {i j : Nat} {a : α} (stops : body state s i = .ok (.done a) j) : Rounds body s state i a j
  | turn {state state' : σ} {i j k : Nat} {a : α} (goes : body state s i = .ok (.again state') k)
      (on : i < k) (within : k ≤ s.size) (rest : Rounds body s state' k a j) : Rounds body s state i a j

/-- Turns of a repetition that all go round again. -/
inductive Turns (body : σ → Scan (Turn σ α)) (s : Source) : σ → Nat → σ → Nat → Prop where
  | none (state : σ) (i : Nat) : Turns body s state i state i
  | turn {state next last : σ} {i k j : Nat} (goes : body state s i = .ok (.again next) k) (on : i < k)
      (within : k ≤ s.size) (rest : Turns body s next k last j) : Turns body s state i last j

variable {body : σ → Scan (Turn σ α)} {state last : σ} {a : α}

theorem Rounds.repeatUpTo (h : Rounds body s state i a j) {n : Nat} (enough : s.size - i < n) :
    repeatUpTo body n state s i = .ok a j := by
  induction h generalizing n with
  | last stops =>
    cases n with
    | zero => omega
    | succ n => simp [Scan.repeatUpTo, stops]
  | turn goes on within rest ih =>
    cases n with
    | zero => omega
    | succ n => simpa [Scan.repeatUpTo, goes] using ih (by omega)

/-- The bound of a repetition is never met where every turn moves the cursor on. -/
theorem Rounds.loop (h : Rounds body s state i a j) : loop state body s i = .ok a j :=
  h.repeatUpTo (by omega)

theorem loop_of_done (stops : body state s i = .ok (.done a) j) : loop state body s i = .ok a j :=
  (Rounds.last stops).loop

theorem Turns.repeatUpTo (h : Turns body s state i last j) {n : Nat} (enough : s.size - i < n) :
    ∃ m, repeatUpTo body n state s i = Scan.repeatUpTo body (m + 1) last s j := by
  induction h generalizing n with
  | none state i => exact ⟨n - 1, by rw [Nat.sub_add_cancel (by omega)]⟩
  | turn goes on within rest ih =>
    cases n with
    | zero => omega
    | succ n =>
      obtain ⟨m, same⟩ := ih (n := n) (by omega)
      exact ⟨m, by simpa [Scan.repeatUpTo, goes] using same⟩

theorem Turns.loop_done (h : Turns body s state i last j) (stops : body last s j = .ok (.done a) k) :
    loop state body s i = .ok a k := by
  obtain ⟨m, same⟩ := h.repeatUpTo (n := s.size + 2) (by omega)
  rw [loop, same]
  simp [Scan.repeatUpTo, stops]

theorem Turns.loop_fail {fault : Fault} (h : Turns body s state i last j) (stops : body last s j = .fail fault k) :
    loop state body s i = .fail fault k := by
  obtain ⟨m, same⟩ := h.repeatUpTo (n := s.size + 2) (by omega)
  rw [loop, same]
  simp [Scan.repeatUpTo, stops]

/-- One turn may go by whatever the cursor does. -/
theorem loop_of_again (state' : σ) (goes : body state s i = .ok (.again state') k) (stops : body state' s k = .ok (.done a) j) :
    loop state body s i = .ok a j := by
  simp [loop, Scan.repeatUpTo, goes, stops]

end VimScript.Scan
