import VimScript.Proofs.Scan.Text

/-!
What a scan gives from one place of a buffer: `x.Gives s i post` says that whatever value `x` gives there and wherever
it leaves the cursor, `post` holds of the two. There is one rule for each operation that scans are built from.
-/

set_option autoImplicit false

namespace VimScript

/-- A text stands between two cursors. -/
structure Source.Spans (s : Source) (i : Nat) (xs : List Char) (j : Nat) : Prop where
  ahead : s.ahead i = xs ++ s.ahead j
  cursor : j = i + xs.length

namespace Source.Spans

variable {s : Source} {i j k : Nat} {xs ys cs : List Char}

theorem of_append (h : s.ahead i = xs ++ cs) : s.Spans i xs (i + xs.length) :=
  ⟨by rw [Source.ahead_of_append h, h], rfl⟩

theorem nil (s : Source) (i : Nat) : s.Spans i [] i :=
  ⟨rfl, rfl⟩

theorem append (first : s.Spans i xs j) (second : s.Spans j ys k) : s.Spans i (xs ++ ys) k := by
  refine ⟨by rw [first.ahead, second.ahead, List.append_assoc], ?_⟩
  rw [second.cursor, first.cursor, List.length_append, Nat.add_assoc]

theorem text (h : s.Spans i xs j) : s.text i j = String.ofList xs := by
  rw [h.cursor, Source.text_of_append h.ahead]

theorem between (h : s.Spans i xs j) : s.between i j = xs := by
  rw [h.cursor, Source.between_add, h.ahead, List.take_left]

end Source.Spans

namespace Scan

variable {α β σ : Type} {x : Scan α} {f : α → Scan β} {s : Source} {i : Nat} {post q : α → Nat → Prop}
  {final : β → Nat → Prop}

def Gives (x : Scan α) (s : Source) (i : Nat) (post : α → Nat → Prop) : Prop :=
  ∀ a j, x s i = .ok a j → post a j

theorem Gives.of_ok {a : α} {j : Nat} (h : x.Gives s i post) (run : x s i = .ok a j) : post a j :=
  h a j run

theorem Gives.mono (h : x.Gives s i q) (value : ∀ a j, q a j → post a j) : x.Gives s i post :=
  fun a j run => value a j (h a j run)

theorem Gives.both (first : x.Gives s i post) (second : x.Gives s i q) : x.Gives s i fun a j => post a j ∧ q a j :=
  fun a j run => ⟨first a j run, second a j run⟩

theorem Gives.any (x : Scan α) (s : Source) (i : Nat) : x.Gives s i fun _ _ => True :=
  fun _ _ _ => trivial

theorem Gives.pure {a : α} (h : post a i) : (Pure.pure a : Scan α).Gives s i post := by
  rintro _ _ ⟨⟩
  exact h

theorem Gives.bind (first : x.Gives s i q) (second : ∀ a j, q a j → (f a).Gives s j final) :
    (x >>= f).Gives s i final := by
  intro b k run
  obtain ⟨a, j, left, right⟩ := bind_ok.mp run
  exact second a j (first a j left) b k right

/-- A first scan of which nothing is known but what it gives. -/
theorem Gives.step (second : ∀ a j, x s i = .ok a j → (f a).Gives s j final) : (x >>= f).Gives s i final := by
  intro b k run
  obtain ⟨a, j, left, right⟩ := bind_ok.mp run
  exact second a j left b k right

/-- A first scan whose value is known. -/
theorem Gives.after {a : α} {j : Nat} (first : x s i = .ok a j) (second : (f a).Gives s j final) :
    (x >>= f).Gives s i final := by
  intro b k run
  rw [bind_of_ok first] at run
  exact second b k run

theorem Gives.map {g : α → β} (h : x.Gives s i fun a j => final (g a) j) : (g <$> x).Gives s i final :=
  h.bind fun _ _ kept => .pure kept

theorem Gives.ite {p : Prop} [Decidable p] {y : Scan α} (yes : p → x.Gives s i post) (no : ¬p → y.Gives s i post) :
    (if p then x else y).Gives s i post := by
  split
  · exact yes ‹_›
  · exact no ‹_›

theorem Gives.fail {cause : Cause} {position : Position} : (Scan.fail cause position : Scan α).Gives s i post := by
  rintro _ _ ⟨⟩

theorem Gives.failHere {cause : Cause} : (Scan.failHere cause : Scan α).Gives s i post := by
  rintro _ _ ⟨⟩

/-- After a scan that gives nothing, nothing is run. -/
theorem Gives.stop (first : x.Gives s i fun _ _ => False) : (x >>= f).Gives s i final :=
  first.bind fun _ _ never => never.elim

theorem Gives.peeking (h : x.Gives s i fun a _ => post a i) : (Scan.peeking x).Gives s i post := by
  intro a j run
  simp only [Scan.peeking] at run
  split at run
  · rename_i b k found
    obtain ⟨rfl, rfl⟩ : b = a ∧ i = j := by simpa using run
    exact h b k found
  · simp at run
  · simp at run

/-- What is known of one turn of a repetition. -/
def Turn.Goes (keeps : σ → Nat → Prop) (post : α → Nat → Prop) : Turn σ α → Nat → Prop
  | .again state, j => keeps state j
  | .done a, j => post a j

/-- What every turn keeps holds up to the last turn. -/
theorem Gives.loop {body : σ → Scan (Turn σ α)} {state : σ} (keeps : σ → Nat → Prop) (start : keeps state i)
    (step : ∀ state i, keeps state i → (body state).Gives s i (Turn.Goes keeps post)) :
    (Scan.loop state body).Gives s i post := by
  intro a j run
  obtain ⟨last, k, kept, stops⟩ := repeatUpTo_ok_of_invariant keeps
    (fun state i state' j kept goes => step state i kept _ j goes) _ state i a j start run
  exact step last k kept _ j stops

/-! ### Runs -/

/-- A run of a class goes up to the end of the line or a character that is not of the class. -/
theorem spans_run (p : Char → Bool) (s : Source) (i : Nat) :
    ∃ xs, Source.run p (s.ahead i) = xs ∧ s.Spans i xs (i + xs.length) ∧ (∀ x ∈ xs, x ≠ '\n' ∧ p x = true) ∧
      ∀ c ∈ (s.ahead (i + xs.length)).head?, c = '\n' ∨ p c = false := by
  have split : s.ahead i = Source.run p (s.ahead i) ++ (s.ahead i).dropWhile fun c => c != '\n' && p c :=
    List.takeWhile_append_dropWhile.symm
  refine ⟨_, rfl, .of_append split, ?_, ?_⟩
  · intro x place
    simpa using List.mem_takeWhile_imp place
  · intro c first
    rw [Source.ahead_of_append split] at first
    have out := List.head?_dropWhile_not (fun c => c != '\n' && p c) (s.ahead i)
    rw [first] at out
    by_cases line : c = '\n'
    · exact .inl line
    · exact .inr (by simpa [line] using out)

theorem gives_takeWhile (p : Char → Bool) (s : Source) (i : Nat) :
    (Scan.takeWhile p).Gives s i fun text j => ∃ xs, text = String.ofList xs ∧ s.Spans i xs j ∧
      (∀ x ∈ xs, x ≠ '\n' ∧ p x = true) ∧ ∀ c ∈ (s.ahead j).head?, c = '\n' ∨ p c = false := by
  obtain ⟨xs, same, run⟩ := spans_run p s i
  intro text j reply
  rw [takeWhile_eq, same] at reply
  obtain ⟨rfl, rfl⟩ : String.ofList xs = text ∧ i + xs.length = j := by simpa using reply
  exact ⟨xs, rfl, run⟩

theorem gives_skipWhile (p : Char → Bool) (s : Source) (i : Nat) :
    (Scan.skipWhile p).Gives s i fun _ j => ∃ xs, s.Spans i xs j ∧
      (∀ x ∈ xs, x ≠ '\n' ∧ p x = true) ∧ ∀ c ∈ (s.ahead j).head?, c = '\n' ∨ p c = false := by
  obtain ⟨xs, same, run⟩ := spans_run p s i
  intro _ j reply
  rw [skipWhile_eq, same] at reply
  obtain rfl : i + xs.length = j := by simpa using reply
  exact ⟨xs, run⟩

/-- The character at which a run of a class stops is not of the class. -/
theorem hasOpt_of_stop {k : CharClass} {cs : List Char} (stop : ∀ c ∈ cs.head?, c = '\n' ∨ k.has c = false) :
    k.hasOpt cs.head? = false := by
  cases front : cs.head? with
  | none => rfl
  | some c =>
    rcases stop c front with rfl | out
    · exact k.has_newline
    · exact out

theorem gives_skipWhite (s : Source) (i : Nat) :
    Scan.skipWhite.Gives s i fun _ j => ∃ xs, s.Spans i xs j ∧
      (∀ x ∈ xs, CharClass.white.has x = true) ∧ CharClass.white.hasOpt (s.ahead j).head? = false := by
  refine Gives.mono (x := Scan.skipWhile CharClass.white.has) (gives_skipWhile CharClass.white.has s i) ?_
  rintro _ j ⟨xs, spans, inside, stop⟩
  exact ⟨xs, spans, fun x place => (inside x place).2, hasOpt_of_stop stop⟩

theorem gives_takeClass (k : CharClass) (s : Source) (i : Nat) :
    (Scan.takeClass k).Gives s i fun text j => ∃ xs, text = String.ofList xs ∧ s.Spans i xs j ∧
      (∀ x ∈ xs, k.has x = true) ∧ k.hasOpt (s.ahead j).head? = false := by
  refine Gives.mono (x := Scan.takeWhile k.has) (gives_takeWhile k.has s i) ?_
  rintro text j ⟨xs, value, spans, inside, stop⟩
  exact ⟨xs, value, spans, fun x place => (inside x place).2, hasOpt_of_stop stop⟩

theorem takeLine_onward (s : Source) (i : Nat) : Scan.takeLine.Gives s i fun _ j => i ≤ j := by
  refine Gives.mono (x := Scan.takeWhile fun _ => true) (gives_takeWhile _ s i) ?_
  rintro _ j ⟨xs, -, spans, -⟩
  exact spans.cursor ▸ Nat.le_add_right i xs.length

theorem next_onward (s : Source) (i : Nat) : Scan.next.Gives s i fun _ j => i ≤ j := by
  intro c j run
  unfold Scan.next at run
  split at run
  · obtain ⟨-, rfl⟩ := Reply.ok.inj run
    exact Nat.le_succ i
  · obtain ⟨-, rfl⟩ := Reply.ok.inj run
    exact Nat.le_refl i

theorem readLine_onward (s : Source) (i : Nat) : Scan.readLine.Gives s i fun _ j => i ≤ j :=
  (takeLine_onward s i).bind fun _ j later => (next_onward s j).bind fun _ _ later' => .pure (Nat.le_trans later later')

/-- Fewer characters than were asked for are taken at the end of a line only. -/
theorem gives_take (n : Nat) (s : Source) (i : Nat) :
    (Scan.take n).Gives s i fun text j => ∃ xs, text = String.ofList xs ∧ s.Spans i xs j ∧ '\n' ∉ xs ∧
      xs.length ≤ n ∧ (xs.length < n → ∀ c ∈ (s.ahead j).head?, c = '\n') := by
  intro text j run
  rw [take_eq] at run
  obtain ⟨rfl, rfl⟩ : String.ofList ((Source.run (fun _ => true) (s.ahead i)).take n) = text ∧
      i + ((Source.run (fun _ => true) (s.ahead i)).take n).length = j := by
    simpa using run
  obtain ⟨rest, split⟩ : (Source.run (fun _ => true) (s.ahead i)).take n <+: s.ahead i :=
    (List.take_prefix n _).trans (List.takeWhile_prefix _)
  refine ⟨_, rfl, .of_append split.symm, ?_, List.length_take_le n _, ?_⟩
  · intro place
    have inside := List.mem_takeWhile_imp (List.mem_of_mem_take place)
    simp at inside
  · intro short c first
    have whole : (Source.run (fun _ => true) (s.ahead i)).take n = Source.run (fun _ => true) (s.ahead i) := by
      apply List.take_of_length_le
      simp only [List.length_take] at short
      omega
    have split' : s.ahead i =
        Source.run (fun _ => true) (s.ahead i) ++ (s.ahead i).dropWhile fun c => c != '\n' && true :=
      List.takeWhile_append_dropWhile.symm
    rw [whole, Source.ahead_of_append split'] at first
    have out := List.head?_dropWhile_not (fun c => c != '\n' && true) (s.ahead i)
    rw [first] at out
    simpa using out

end Scan

end VimScript
