import VimScript.Scan

/-!
What is known of a scan whatever the buffer and the cursor: `x.Delivers good bad` says that every value of `x`
satisfies `good` and the cause of every fault of `x` satisfies `bad`. There is one rule for each operation that
scans are built from.
-/

set_option autoImplicit false

namespace VimScript.Scan

variable {α β σ : Type} {x : Scan α} {f : α → Scan β} {good mid : α → Prop} {final : β → Prop}
  {bad : Cause → Prop}

def Delivers (x : Scan α) (good : α → Prop) (bad : Cause → Prop) : Prop :=
  ∀ s i, match x s i with
    | .ok a _ => good a
    | .fail fault _ => bad fault.cause
    | .spent => True

theorem Delivers.of_ok {s : Source} {i j : Nat} {a : α} (h : x.Delivers good bad) (run : x s i = .ok a j) :
    good a := by
  simpa [run] using h s i

theorem Delivers.of_fail {s : Source} {i j : Nat} {e : Fault} (h : x.Delivers good bad)
    (run : x s i = .fail e j) : bad e.cause := by
  simpa [run] using h s i

theorem Delivers.of_runs (value : ∀ s i a j, x s i = .ok a j → good a) (cause : ∀ s i e j, x s i = .fail e j → bad e.cause) :
    x.Delivers good bad := by
  intro s i
  cases run : x s i with
  | ok a j => exact value s i a j run
  | fail e j => exact cause s i e j run
  | spent => trivial

theorem Delivers.mono {worse : Cause → Prop} (h : x.Delivers mid bad) (value : ∀ a, mid a → good a)
    (cause : ∀ c, bad c → worse c) : x.Delivers good worse :=
  .of_runs (fun _ _ a _ run => value a (h.of_ok run)) fun _ _ _ _ run => cause _ (h.of_fail run)

theorem Delivers.weaken (h : x.Delivers mid bad) (value : ∀ a, mid a → good a) : x.Delivers good bad :=
  h.mono value fun _ kept => kept

theorem Delivers.any (x : Scan α) : x.Delivers (fun _ => True) (fun _ => True) := by
  intro s i
  cases x s i <;> trivial

theorem Delivers.pure {a : α} (h : good a) : (Pure.pure a : Scan α).Delivers good bad :=
  fun _ _ => h

theorem Delivers.spent : Delivers (fun _ _ => .spent : Scan α) good bad :=
  fun _ _ => trivial

/-- For a scan whose bound comes from the buffer. -/
theorem Delivers.withSource (x : Source → Scan α) (h : ∀ s, (x s).Delivers good bad) :
    Delivers (fun s i => x s s i) good bad :=
  fun s i => h s s i

theorem Delivers.bind (first : x.Delivers mid bad) (second : ∀ a, mid a → (f a).Delivers final bad) :
    (x >>= f).Delivers final bad := by
  intro s i
  rw [bind_apply]
  cases run : x s i with
  | ok a j => exact second a (first.of_ok run) s j
  | fail e j => exact first.of_fail run
  | spent => trivial

theorem Delivers.through (mid : α → Prop) (first : x.Delivers mid bad)
    (second : ∀ a, mid a → (f a).Delivers final bad) : (x >>= f).Delivers final bad :=
  first.bind second

/-- The value of the first scan may be anything. -/
theorem Delivers.andThen (first : x.Delivers (fun _ => True) bad) (second : ∀ a, (f a).Delivers final bad) :
    (x >>= f).Delivers final bad :=
  first.bind fun a _ => second a

/-- Where any fault will do, nothing need be known of the first scan. -/
theorem Delivers.past (second : ∀ a, (f a).Delivers final (fun _ => True)) : (x >>= f).Delivers final (fun _ => True) :=
  (Delivers.any x).andThen second

/-- After a scan that always fails nothing is run. -/
theorem Delivers.stop (first : x.Delivers (fun _ => False) bad) : (x >>= f).Delivers final bad :=
  first.bind fun _ never => never.elim

theorem Delivers.map {g : α → β} (h : x.Delivers (fun a => final (g a)) bad) :
    (g <$> x).Delivers final bad :=
  h.bind fun _ kept => .pure kept

theorem Delivers.ite {p : Prop} [Decidable p] {y : Scan α} (yes : p → x.Delivers good bad)
    (no : ¬p → y.Delivers good bad) : (if p then x else y).Delivers good bad := by
  split
  · exact yes ‹_›
  · exact no ‹_›

theorem Delivers.fail {cause : Cause} (h : bad cause) (position : Position) :
    (Scan.fail cause position : Scan α).Delivers good bad :=
  fun _ _ => h

theorem Delivers.failHere {cause : Cause} (h : bad cause) :
    (Scan.failHere cause : Scan α).Delivers good bad :=
  fun _ _ => h

theorem Delivers.peeking (h : x.Delivers good bad) : (Scan.peeking x).Delivers good bad := by
  intro s i
  simp only [Scan.peeking]
  cases run : x s i with
  | ok a j => exact h.of_ok run
  | fail e j => exact h.of_fail run
  | spent => trivial

/-- What is known of one turn of a repetition: a predicate of the state if it goes round again, one of the value
if it stops. -/
def Turn.Meets (keeps : σ → Prop) (good : α → Prop) : Turn σ α → Prop
  | .again state => keeps state
  | .done a => good a

@[simp] theorem Turn.meets_again {keeps : σ → Prop} {state : σ} :
    (Turn.again state).Meets keeps good ↔ keeps state := Iff.rfl

@[simp] theorem Turn.meets_done {keeps : σ → Prop} {a : α} :
    (Turn.done a).Meets keeps good ↔ good a := Iff.rfl

/-- A predicate of the state that every turn keeps holds up to the last turn. -/
theorem Delivers.loop {body : σ → Scan (Turn σ α)} {state : σ} (keeps : σ → Prop) (start : keeps state)
    (step : ∀ state, keeps state → (body state).Delivers (Turn.Meets keeps good) bad) :
    (Scan.loop state body).Delivers good bad := by
  intro s i
  simp only [Scan.loop]
  generalize s.size + 2 = n
  induction n generalizing state i with
  | zero => trivial
  | succ n ih =>
    simp only [repeatUpTo]
    cases run : body state s i with
    | ok turn j =>
      have met := (step state start).of_ok run
      cases turn with
      | again next => exact ih met j
      | done a => exact met
    | fail e j => exact (step state start).of_fail run
    | spent => trivial

/-! ### Scans without faults -/

/-- A scan that raises no fault. -/
class Faultless (x : Scan α) : Prop where
  delivers : x.Delivers (fun _ => True) (fun _ => False)

/-- A scan without faults says nothing about what comes after it. -/
theorem Delivers.skip [quiet : Faultless x] (second : ∀ a, (f a).Delivers final bad) :
    (x >>= f).Delivers final bad :=
  (quiet.delivers.mono (fun _ _ => trivial) fun _ never => never.elim).andThen second

theorem Delivers.of_faultless [quiet : Faultless x] : x.Delivers (fun _ => True) bad :=
  quiet.delivers.mono (fun _ _ => trivial) fun _ never => never.elim

theorem Faultless.of_ok (h : ∀ s i, ∃ a j, x s i = .ok a j) : Faultless x where
  delivers s i := by
    obtain ⟨a, j, run⟩ := h s i
    simp [run]

instance (a : α) : Faultless (Pure.pure a : Scan α) := .of_ok fun _ _ => ⟨_, _, rfl⟩
instance : Faultless tell := .of_ok fun _ _ => ⟨_, _, rfl⟩
instance (j : Nat) : Faultless (seek j) := .of_ok fun _ _ => ⟨_, _, rfl⟩
instance (n : Nat) : Faultless (skip n) := .of_ok fun _ _ => ⟨_, _, rfl⟩
instance : Faultless seekEnd := .of_ok fun _ _ => ⟨_, _, rfl⟩
instance : Faultless atEnd := .of_ok fun _ _ => ⟨_, _, rfl⟩
instance : Faultless here := .of_ok fun _ _ => ⟨_, _, rfl⟩
instance (n : Nat) : Faultless (peekAt n) := .of_ok fun _ _ => ⟨_, _, rfl⟩
instance : Faultless peek := .of_ok fun _ _ => ⟨_, _, rfl⟩
instance : Faultless peekInLine := .of_ok fun _ _ => ⟨_, _, rfl⟩
instance (word : String) : Faultless (lookingAt word) := .of_ok fun _ _ => ⟨_, _, rfl⟩
instance (n : Nat) : Faultless (take n) := .of_ok fun _ _ => ⟨_, _, rfl⟩
instance (p : Char → Bool) : Faultless (takeWhile p) := .of_ok fun _ _ => ⟨_, _, rfl⟩
instance (p : Char → Bool) : Faultless (skipWhile p) := .of_ok fun _ _ => ⟨_, _, rfl⟩
instance (k : CharClass) : Faultless (takeClass k) := .of_ok fun _ _ => ⟨_, _, rfl⟩
instance : Faultless takeLine := .of_ok fun _ _ => ⟨_, _, rfl⟩
instance : Faultless skipWhite := .of_ok fun _ _ => ⟨_, _, rfl⟩
instance : Faultless skipWhiteAndColons := .of_ok fun _ _ => ⟨_, _, rfl⟩
instance : Faultless takeNonWhite := .of_ok fun _ _ => ⟨_, _, rfl⟩
instance (n : Nat) : Faultless (peekRun n) := .of_ok fun _ _ => ⟨_, _, rfl⟩
instance : Faultless peekLine := .of_ok fun _ _ => ⟨_, _, rfl⟩
instance (i : Nat) : Faultless (textSince i) := .of_ok fun _ _ => ⟨_, _, rfl⟩
instance (i j : Nat) : Faultless (textBetween i j) := .of_ok fun _ _ => ⟨_, _, rfl⟩

instance : Faultless next :=
  .of_ok fun s i => by
    unfold next
    split <;> exact ⟨_, _, rfl⟩

instance : Faultless readLine where
  delivers := .skip fun _ => .skip fun _ => .pure trivial

instance : Faultless takeInteger where
  delivers := by
    refine .andThen (.skip fun sign => ?_) fun sign => .skip fun digits => .pure trivial
    split <;> exact .of_faultless

-- Readers are taken apart with the rules above from here on.
attribute [irreducible] Delivers

end VimScript.Scan
