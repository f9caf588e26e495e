import VimScript.Proofs.Token.Extent

/-!
A buffer that is cut off in the middle of a line. `cut.Holds i out lost x` says that what `x` gives at the cursor `i` of
the whole buffer, it also gives there in the buffer that was cut off, with an end no later than the cut; or else its end
is `lost`, and so it is wherever `out` holds. There is one rule for each operation that scans are built from.
-/

set_option autoImplicit false

namespace VimScript

/-- From the cut on the second buffer has line ends where the first one goes on. No name goes on there. -/
structure Source.Cut (s t : Source) (j : Nat) : Prop where
  bound : j ≤ s.size
  size : s.size ≤ t.size
  front : ∀ i ≤ j, t.ahead i = s.between i j ++ t.ahead j
  blank : ∃ n, t.ahead j = List.replicate (n + 1) '\n'
  places : ∀ i, t.position i = s.position i
  stop : CharClass.name.hasOpt (s.ahead j).head? = false

namespace Source.Cut

open Scan

variable {α β σ : Type} {s t : Source} {i j k n : Nat} {c : Char} {cs : List Char}

/-! ### Characters -/

theorem ahead_eq (s : Source) (h : i ≤ j) : s.ahead i = s.between i j ++ s.ahead j := by
  obtain ⟨n, rfl⟩ := Nat.exists_eq_add_of_le h
  rw [Source.between_add, Source.ahead_add, List.take_append_drop]

theorem length_between (cut : s.Cut t j) (h : i ≤ j) : (s.between i j).length = j - i := by
  have whole := congrArg List.length (ahead_eq s h)
  have bound := cut.bound
  rw [List.length_append, Source.length_ahead, Source.length_ahead] at whole
  omega

theorem newline (cut : s.Cut t j) : ∃ cs, t.ahead j = '\n' :: cs := by
  obtain ⟨n, blank⟩ := cut.blank
  exact ⟨_, blank.trans List.replicate_succ⟩

/-- Before the cut both buffers have the same character. -/
theorem exists_char (cut : s.Cut t j) (h : i < j) :
    ∃ c, s.ahead i = c :: s.ahead (i + 1) ∧ t.ahead i = c :: t.ahead (i + 1) := by
  have length := cut.length_between (Nat.le_of_lt h)
  obtain ⟨c, cs, text⟩ := List.exists_cons_of_length_pos (l := s.between i j) (by omega)
  have left := ahead_eq s (Nat.le_of_lt h)
  have right := cut.front i (Nat.le_of_lt h)
  rw [text, List.cons_append] at left right
  exact ⟨c, by rw [Source.ahead_of_cons left, left], by rw [Source.ahead_of_cons right, right]⟩

theorem text_eq (cut : s.Cut t j) (h : k ≤ j) (i : Nat) : t.text i k = s.text i k := by
  rcases Nat.le_total k i with empty | order
  · have none (u : Source) : u.between i k = [] := by
      simp only [Source.between, Array.toList_extract, List.extract_eq_take_drop, Nat.sub_eq_zero_of_le empty,
        List.take_zero]
    simp only [Source.text, none]
  · obtain ⟨n, rfl⟩ := Nat.exists_eq_add_of_le order
    have length := cut.length_between (i := i) (by omega)
    rw [Source.text, Source.text, Source.between_add, Source.between_add, ahead_eq s (by omega : i ≤ j),
      cut.front i (by omega), List.take_append_of_le_length (by omega), List.take_append_of_le_length (by omega)]

/-- A run of the text before the cut stays on it in the second buffer. In the first one it may go on behind the cut. -/
theorem run_eq (cut : s.Cut t j) (f : Char → Bool) (h : i ≤ j) :
    ∃ xs, Source.run f (t.ahead i) = xs ∧ i + xs.length ≤ j ∧
      (Source.run f (s.ahead i) = xs ∨
        i + xs.length = j ∧ ∃ c cs, c ≠ '\n' ∧ f c = true ∧ (s.ahead j).head? = some c ∧
          Source.run f (s.ahead i) = xs ++ c :: cs) := by
  obtain ⟨more, newline⟩ := cut.newline
  have length := cut.length_between h
  have right : Source.run f (t.ahead i) = Source.run f (s.between i j) := by
    rw [cut.front i h, newline, SharedText.run_newline]
  have short : (Source.run f (s.between i j)).length ≤ (s.between i j).length :=
    (List.takeWhile_prefix _).length_le
  refine ⟨_, right, by omega, ?_⟩
  rw [ahead_eq s h]
  by_cases all : ∀ x ∈ s.between i j, (x != '\n' && f x) = true
  · have whole : Source.run f (s.between i j) = s.between i j := List.takeWhile_eq_self_iff.mpr all
    have goesOn : Source.run f (s.between i j ++ s.ahead j) = s.between i j ++ Source.run f (s.ahead j) :=
      List.takeWhile_append_of_pos all
    rw [whole, goesOn]
    cases run : Source.run f (s.ahead j) with
    | nil => exact .inl (List.append_nil _)
    | cons c cs =>
      have inRun := List.mem_takeWhile_imp (l := s.ahead j) (run ▸ List.mem_cons_self)
      simp only [Bool.and_eq_true, bne_iff_ne] at inRun
      obtain ⟨rest, front⟩ : c :: cs <+: s.ahead j := run ▸ List.takeWhile_prefix _
      refine .inr ⟨by omega, c, cs, inRun.1, inRun.2, ?_, rfl⟩
      rw [← front]
      rfl
  · refine .inl ?_
    have stops : ∃ x ∈ s.between i j, ¬(x != '\n' && f x) = true := by simpa using all
    obtain ⟨x, place, out⟩ := stops
    rw [Source.run, Source.run, List.takeWhile_append, if_neg]
    intro same
    have whole : (s.between i j).takeWhile (fun c => c != '\n' && f c) = s.between i j :=
      (List.takeWhile_prefix _).eq_of_length same
    exact out (List.takeWhile_eq_self_iff.mp whole x place)

/-- A run of a class that the character at the cut is not in stays before the cut. -/
theorem takeWhile_within (cut : s.Cut t j) {f : Char → Bool} (h : i ≤ j)
    (stop : ∀ c ∈ (s.ahead j).head?, c = '\n' ∨ f c = false) :
    ∃ v k, i ≤ k ∧ k ≤ j ∧ Scan.takeWhile f s i = .ok v k ∧ Scan.takeWhile f t i = .ok v k := by
  obtain ⟨xs, right, bound, left | ⟨-, c, _, line, inside, head, -⟩⟩ := cut.run_eq f h
  · refine ⟨String.ofList xs, i + xs.length, by omega, bound, ?_, ?_⟩
    · rw [takeWhile_eq, left]
    · rw [takeWhile_eq, right]
  · rcases stop c head with rfl | out
    · exact absurd rfl line
    · simp [inside] at out

theorem stop_of_name (cut : s.Cut t j) {f : Char → Bool} (names : ∀ c, f c = true → CharClass.name.has c = true) :
    ∀ c ∈ (s.ahead j).head?, c = '\n' ∨ f c = false := by
  intro c head
  refine .inr (Bool.eq_false_iff.mpr fun inside => ?_)
  have stop := cut.stop
  rw [Option.mem_def.mp head, CharClass.hasOpt_some, names c inside] at stop
  cases stop

/-- A test that only characters of names meet comes out alike up to the cut. -/
theorem test_eq (cut : s.Cut t j) {f : Option Char → Bool} (names : ∀ c, f c = true → CharClass.name.hasOpt c = true)
    (n : Nat) (h : i + n ≤ j) : f (s.char? (i + n)) = f (t.char? (i + n)) := by
  rcases Nat.lt_or_eq_of_le h with less | rfl
  · obtain ⟨c, left, right⟩ := cut.exists_char less
    rw [Source.char?_of_cons left, Source.char?_of_cons right]
  · obtain ⟨more, newline⟩ := cut.newline
    have out (c : Option Char) (other : CharClass.name.hasOpt c = false) : f c = false :=
      Bool.eq_false_iff.mpr fun met => by simp [names c met] at other
    rw [out _ (Source.char?_eq s _ ▸ cut.stop), out _ (by rw [Source.char?_of_cons newline]; rfl)]

/-! ### Ends -/

/-- No token that could follow an operand ends before the cut. -/
def Shut (_ : s.Cut t j) (k : Nat) : Prop :=
  ∀ token l, Token.next s k = .ok token l → j < l ∨ token.kind = .identifier ∨ token.kind = .eof

/-- No token at all ends before the cut. -/
def Blind (_ : s.Cut t j) (k : Nat) : Prop :=
  ∀ token l, Token.next s k = .ok token l → j < l ∨ token.kind = .eof

/-- From here nothing that ends at the cut is read. -/
def Lost (cut : s.Cut t j) (k : Nat) : Prop :=
  k ≠ j ∧ cut.Shut k

variable {cut : s.Cut t j}

theorem Blind.shut (h : cut.Blind k) : cut.Shut k :=
  fun token l run => (h token l run).imp_right .inr

theorem blind_of_past (cut : s.Cut t j) (h : j < k) : cut.Blind k := by
  intro token l run
  have covers := Token.covers_of_next run
  by_cases ended : token.kind = .eof
  · exact .inr ended
  · have later := covers.lt_of_more ended
    exact .inl (by omega)

theorem lost_of_past (cut : s.Cut t j) (h : j < k) : cut.Lost k :=
  ⟨by omega, (cut.blind_of_past h).shut⟩

/-! ### What a scan gives in both buffers -/

def Holds (_ : s.Cut t j) (i : Nat) (out : Prop) (lost : α → Nat → Prop) (x : Scan α) : Prop :=
  ∀ v k, x s i = .ok v k → (i ≤ j ∧ ¬out ∧ k ≤ j ∧ x t i = .ok v k) ∨ lost v k

/-- The usual case: the scan ends where the expression is lost. -/
abbrev Keeps (cut : s.Cut t j) (i : Nat) (out : Prop) (x : Scan α) : Prop :=
  cut.Holds i out (fun _ => cut.Lost) x

variable {out out' : Prop} {lost lost' : α → Nat → Prop} {final : β → Nat → Prop} {x y : Scan α} {f : α → Scan β}

theorem Holds.mono (h : cut.Holds i out lost x) (weaken : ∀ v k, lost v k → lost' v k) : cut.Holds i out lost' x :=
  fun v k run => (h v k run).imp_right (weaken v k)

theorem Holds.unless (h : cut.Holds i out lost x) (fewer : out' → out) : cut.Holds i out' lost x :=
  fun v k run => (h v k run).imp_left fun ⟨bound, goes, within, right⟩ => ⟨bound, fun holds => goes (fewer holds), within, right⟩

theorem Holds.unlessNot (closed : ¬out) (h : cut.Holds i False lost x) : cut.Holds i out lost x :=
  h.unless closed

theorem Holds.pure {v : α} (h : (i ≤ j ∧ ¬out) ∨ lost v i) : cut.Holds i out lost (Pure.pure v) := by
  rintro _ _ ⟨⟩
  exact h.imp_left fun ⟨bound, goes⟩ => ⟨bound, goes, bound, rfl⟩

theorem Holds.stop {v : α} (past : j < i → lost v i) : cut.Holds i False lost (Pure.pure v) :=
  .pure ((Nat.lt_or_ge j i).symm.imp (fun bound => ⟨bound, id⟩) past)

theorem Holds.give {v : α} : cut.Keeps i False (Pure.pure v) :=
  .stop cut.lost_of_past

/-- What an expression gives where it ended is kept. -/
theorem keeps_pure (cut : s.Cut t j) (i : Nat) (v : α) : cut.Keeps i (cut.Lost i) (Pure.pure v) := by
  apply Holds.pure
  by_cases lost : cut.Lost i
  · exact .inr lost
  · refine .inl ⟨?_, lost⟩
    by_contra past
    exact lost (cut.lost_of_past (by omega))

theorem Holds.fail {cause : Cause} {position : Position} : cut.Holds i out lost (Scan.fail cause position) := by
  rintro _ _ ⟨⟩

theorem Holds.failHere {cause : Cause} : cut.Holds i out lost (Scan.failHere cause) := by
  rintro _ _ ⟨⟩

theorem Holds.ite {p : Prop} [Decidable p] (yes : p → cut.Holds i out lost x) (no : ¬p → cut.Holds i out lost y) :
    cut.Holds i out lost (if p then x else y) := by
  split
  · exact yes ‹_›
  · exact no ‹_›

/-- Where the first scan ends lost, the second one is past the cut or it ends lost as well. -/
theorem Holds.through {mid : α → Nat → Prop} (first : cut.Holds i out mid x) (goes : α → Nat → Prop)
    (lost : ∀ v k, mid v k → j < k ∨ goes v k)
    (second : ∀ v k, x s i = .ok v k → cut.Holds k (goes v k) final (f v)) : cut.Holds i out final (x >>= f) := by
  intro u l run
  obtain ⟨v, k, run, run'⟩ := bind_ok.mp run
  rcases second v k run u l run' with ⟨bound, here, within, right⟩ | ended
  · refine .inl ?_
    rcases first v k run with ⟨bound', start, -, right'⟩ | gone
    · exact ⟨bound', start, within, by rw [bind_of_ok right', right]⟩
    · rcases lost v k gone with past | there
      · omega
      · exact absurd there here
  · exact .inr ended

theorem Holds.bind (first : cut.Keeps i out x)
    (second : ∀ v k, x s i = .ok v k → cut.Holds k (cut.Lost k) final (f v)) : cut.Holds i out final (x >>= f) :=
  first.through (fun _ => cut.Lost) (fun _ _ gone => .inr gone) second

/-- A first scan that ends before the cut, or past it. -/
theorem Holds.beyond (first : cut.Holds i out (fun _ k => j < k) x)
    (second : ∀ v k, x s i = .ok v k → cut.Holds k False final (f v)) : cut.Holds i out final (x >>= f) :=
  first.through (fun _ _ => False) (fun _ _ => .inl) second

theorem Holds.map {g : α → β} (h : cut.Holds i out (fun v => final (g v)) x) : cut.Holds i out final (g <$> x) := by
  intro u l run
  obtain ⟨v, k, first, last⟩ := bind_ok.mp (show (x >>= fun v => Pure.pure (g v)) s i = _ from run)
  obtain ⟨rfl, rfl⟩ := Reply.ok.inj last
  exact (h v k first).imp_left fun ⟨bound, here, within, right⟩ => ⟨bound, here, within, map_of_ok right⟩

theorem Holds.tell {f : Nat → Scan β} (second : cut.Holds i out final (f i)) : cut.Holds i out final (Scan.tell >>= f) :=
  second

theorem Holds.here {f : Position → Scan β} (second : cut.Holds i out final (f (s.position i))) :
    cut.Holds i out final (Scan.here >>= f) := by
  intro u l run
  refine (second u l run).imp_left fun ⟨bound, here, within, right⟩ => ⟨bound, here, within, ?_⟩
  rw [bind_of_ok (here_apply t i), cut.places]
  exact right

/-- A first scan that gives the same in both buffers. -/
theorem Holds.after {v : α} (left : x s i = .ok v k) (right : i ≤ j → x t i = .ok v k) (later : i ≤ k)
    (second : cut.Holds k out final (f v)) : cut.Holds i out final (x >>= f) := by
  intro u l run
  rw [bind_of_ok left] at run
  refine (second u l run).imp_left fun ⟨bound, here, within, run'⟩ => ⟨by omega, here, within, ?_⟩
  rw [bind_of_ok (right (by omega)), run']

theorem Holds.move {f : Unit → Scan β} (n : Nat) (second : cut.Holds (i + n) out final (f ())) :
    cut.Holds i out final (Scan.skip n >>= f) :=
  .after (skip_apply n s i) (fun _ => skip_apply n t i) (Nat.le_add_right i n) second

theorem Holds.takeClass {f : String → Scan β} (c : CharClass) (names : ∀ d, c.has d = true → CharClass.name.has d = true)
    (second : ∀ v k, i ≤ k → Scan.takeClass c s i = .ok v k → cut.Holds k out final (f v)) :
    cut.Holds i out final (Scan.takeClass c >>= f) := by
  by_cases bound : i ≤ j
  · obtain ⟨v, k, later, -, left, right⟩ := cut.takeWhile_within (f := c.has) bound (cut.stop_of_name names)
    exact .after left (fun _ => right) later (second v k later left)
  · obtain ⟨xs, -, spans, -⟩ := (gives_takeClass c s i).of_ok (takeWhile_eq c.has s i)
    have later := spans.cursor
    exact .after (takeWhile_eq c.has s i) (fun within => absurd within bound) (by omega) (second _ _ (by omega) (takeWhile_eq c.has s i))

/-! ### Repetition -/

theorem repeatUpTo_more {body : σ → Scan (Turn σ α)} {state : σ} {v : α} {m : Nat} (more : n ≤ m)
    (run : repeatUpTo body n state s i = .ok v k) : repeatUpTo body m state s i = .ok v k := by
  induction n generalizing m state i with
  | zero => simp [Scan.repeatUpTo] at run
  | succ n ih =>
    obtain ⟨m, rfl⟩ : ∃ below, m = below + 1 := ⟨m - 1, by omega⟩
    simp only [Scan.repeatUpTo] at run ⊢
    split at run
    · exact ih (by omega) run
    · exact run
    · simp at run
    · simp at run

/-- Where a turn may end: lost for the next turn, or lost at last. -/
def Turned (_ : s.Cut t j) (goes : σ → Nat → Prop) (lost : α → Nat → Prop) : Turn σ α → Nat → Prop
  | .again state, k => j < k ∨ goes state k
  | .done v, k => lost v k

variable {body : σ → Scan (Turn σ α)} {state : σ}

theorem Holds.repeatUpTo (keeps goes : σ → Nat → Prop)
    (step : ∀ state k, keeps state k → cut.Holds k (goes state k) (cut.Turned goes lost) (body state))
    (kept : ∀ state k state' k', keeps state k → body state s k = .ok (.again state') k' → keeps state' k') (n : Nat) :
    ∀ state i, keeps state i → cut.Holds i (goes state i) lost (Scan.repeatUpTo body n state) := by
  induction n with
  | zero => rintro state i - v k ⟨⟩
  | succ n ih =>
    intro state i start v k run
    simp only [Scan.repeatUpTo] at run
    split at run
    · rename_i state' l turn
      rcases ih state' l (kept _ _ _ _ start turn) v k run with ⟨bound, here, within, right⟩ | ended
      · refine .inl ?_
        rcases step state i start _ _ turn with ⟨bound', here', -, right'⟩ | gone | gone
        · exact ⟨bound', here', within, by simp only [Scan.repeatUpTo, right', right]⟩
        · omega
        · exact absurd gone here
      · exact .inr ended
    · rename_i turn
      obtain ⟨rfl, rfl⟩ := Reply.ok.inj run
      rcases step state i start _ _ turn with ⟨bound, here, within, right⟩ | gone
      · exact .inl ⟨bound, here, within, by simp only [Scan.repeatUpTo, right]⟩
      · exact .inr gone
    · simp at run
    · simp at run

theorem Holds.loop (keeps goes : σ → Nat → Prop) (start : keeps state i)
    (step : ∀ state k, keeps state k → cut.Holds k (goes state k) (cut.Turned goes lost) (body state))
    (kept : ∀ state k state' k', keeps state k → body state s k = .ok (.again state') k' → keeps state' k') :
    cut.Holds i (goes state i) lost (Scan.loop state body) := by
  intro v k run
  have held := Holds.repeatUpTo keeps goes step kept (s.size + 2) state i start v k run
  refine held.imp_left fun ⟨bound, here, within, right⟩ => ⟨bound, here, within, ?_⟩
  have size := cut.size
  exact repeatUpTo_more (by omega) right

theorem Holds.again {goes : σ → Nat → Prop} {final : α → Nat → Prop} (state : σ) :
    cut.Holds i False (cut.Turned goes final) (Pure.pure (Turn.again state)) :=
  .stop Or.inl

theorem Holds.done {goes : σ → Nat → Prop} {final : α → Nat → Prop} {v : α} (past : j < i → final v i) :
    cut.Holds i False (cut.Turned goes final) (Pure.pure (Turn.done v)) :=
  .stop past

/-- A repetition of which every turn holds. -/
theorem Holds.loop_of_all (goes : σ → Nat → Prop)
    (step : ∀ state k, cut.Holds k (goes state k) (cut.Turned goes lost) (body state)) :
    cut.Holds i (goes state i) lost (Scan.loop state body) :=
  .loop (fun _ _ => True) goes trivial (fun state k _ => step state k) fun _ _ _ _ _ _ => trivial

end Source.Cut

end VimScript
