import VimScript.Proofs.Scan.Delivers
import VimScript.Proofs.Script.Initials
import VimScript.Proofs.Script.Structure
import VimScript.Proofs.Statement.UserCommand

/-!
Sessions. The record of user commands is all that passes from one script to the next, and it is consulted in one
place, before the digits of a name are read. So a script is read as it would be alone unless a name in it is one met
before with digits added.
-/

set_option autoImplicit false

namespace VimScript.Statement

variable {α β : Type} {neovim : Bool} {s : Source} {i : Nat} {earlier fresh reused : UserNames}

/-! ### Two runs over the same text -/

/-- Replies that differ at most in their values. -/
inductive Agree (r : α → β → Prop) : Reply α → Reply β → Prop where
  | ok {a : α} {b : β} {j : Nat} (related : r a b) : Agree r (.ok a j) (.ok b j)
  | fail (e : Fault) (j : Nat) : Agree r (.fail e j) (.fail e j)
  | spent : Agree r .spent .spent

theorem Agree.bind {γ δ : Type} {r : α → β → Prop} {r' : γ → δ → Prop} {x : Scan α} {y : Scan β} {f : α → Scan γ}
    {g : β → Scan δ} (first : Agree r (x s i) (y s i))
    (second : ∀ a b j, x s i = .ok a j → r a b → Agree r' (f a s j) (g b s j)) :
    Agree r' ((x >>= f) s i) ((y >>= g) s i) := by
  rw [Scan.bind_apply, Scan.bind_apply]
  cases left : x s i <;> cases right : y s i <;> rw [left, right] at first <;> cases first
  case ok.ok related => exact second _ _ _ left related
  case fail.fail => exact .fail _ _
  case spent.spent => exact .spent

theorem Agree.after {γ δ : Type} {r : γ → δ → Prop} {x : Scan α} {f : α → Scan γ} {g : α → Scan δ}
    (second : ∀ a j, x s i = .ok a j → Agree r (f a s j) (g a s j)) :
    Agree r ((x >>= f) s i) ((x >>= g) s i) := by
  rw [Scan.bind_apply, Scan.bind_apply]
  cases run : x s i with
  | ok a j => exact second a j run
  | fail e j => exact .fail e j
  | spent => exact .spent

/-! ### The record -/

/-- A record that holds what was met before and what a fresh one holds. -/
def Recalls (earlier fresh reused : UserNames) : Prop :=
  ∀ name, name ∈ reused ↔ name ∈ earlier ∨ name ∈ fresh

/-- No name of the second record starts with all letters of a name of the first, unless it is the same. -/
def Apart (earlier names : UserNames) : Prop :=
  ∀ n ∈ earlier, ∀ m ∈ names, letters m = n.toList → m = n

instance (earlier names : UserNames) : Decidable (Apart earlier names) :=
  inferInstanceAs (Decidable (∀ n ∈ earlier, ∀ m ∈ names, letters m = n.toList → m = n))

theorem Recalls.insert (h : Recalls earlier fresh reused) (name : String) :
    Recalls earlier (if fresh.contains name then fresh else name :: fresh)
      (if reused.contains name then reused else name :: reused) := by
  intro other
  have same := h other
  have here := h name
  by_cases inFresh : name ∈ fresh <;> by_cases inReused : name ∈ reused <;> simp [inFresh, inReused] <;> grind

theorem takeWhile_takeWhile_dropWhile (p q : Char → Bool) (cs : List Char) :
    ((cs.dropWhile p).takeWhile q).takeWhile p = [] := by
  have stop := List.head?_dropWhile_not p cs
  cases rest : cs.dropWhile p with
  | nil => rfl
  | cons c rest =>
    have out : p c = false := by simpa [rest] using stop
    by_cases inside : q c = true
    · simp [inside, out]
    · simp [inside]

/-- The digits are read where the letters have ended. -/
theorem letters_append {typed digits : String} {j k : Nat}
    (whole : typed.toList = (s.ahead i).takeWhile CharClass.alpha.has ∧ j = i + typed.toList.length)
    (read : Scan.takeClass .alnum s j = .ok digits k) : letters (typed ++ digits) = typed.toList := by
  obtain ⟨rfl, -⟩ := Reply.ok.inj ((takeClass_eq .alnum s j).symm.trans read)
  have rest : s.ahead j = (s.ahead i).dropWhile CharClass.alpha.has := by
    rw [whole.2, whole.1]
    exact Source.ahead_of_append List.takeWhile_append_dropWhile.symm
  have inside : ∀ c ∈ typed.toList, CharClass.alpha.has c = true := by
    rw [whole.1]
    exact fun c => List.mem_takeWhile_imp
  rw [letters, String.toList_append, String.toList_ofList, rest, List.takeWhile_append_of_pos inside,
    takeWhile_takeWhile_dropWhile, List.append_nil]

/-- The record makes a difference only where a recorded name has digits after it. -/
theorem command_agree (recalls : Recalls earlier fresh reused)
    (after : ∀ found names j, command neovim fresh s i = .ok (found, names) j → Apart earlier names) :
    Agree (fun a b => a.1 = b.1 ∧ Recalls earlier a.2 b.2) (command neovim fresh s i) (command neovim reused s i) := by
  rw [command] at after
  apply Agree.after
  intro typed j named
  rw [Scan.bind_of_ok named] at after
  by_cases empty : typed.isEmpty = true
  · rw [if_pos empty, if_pos empty]
    exact .ok ⟨rfl, recalls⟩
  by_cases user : Command.isUserName neovim typed.toList = true
  · simp only [empty, user, if_true, Bool.false_eq_true, if_false, List.contains_eq_mem, decide_eq_true_eq] at after ⊢
    have capital := (Bool.and_eq_true_iff.mp user).1
    have whole := typedName_of_capital named capital
    have known := recalls typed
    by_cases old : typed ∈ fresh
    · have both : typed ∈ reused := known.mpr (.inr old)
      rw [if_pos old, if_pos both]
      exact .ok ⟨rfl, recalls⟩
    obtain ⟨digits, k, taken⟩ : ∃ digits k, Scan.takeClass .alnum s j = .ok digits k := ⟨_, _, takeClass_eq .alnum s j⟩
    have stem := letters_append whole taken
    rw [if_neg old, Scan.bind_of_ok taken] at after ⊢
    have grown := recalls.insert (typed ++ digits)
    simp only [List.contains_eq_mem, decide_eq_true_eq] at grown
    by_cases met : typed ∈ earlier
    · have both : typed ∈ reused := known.mpr (.inl met)
      have added : typed ++ digits ∈ if typed ++ digits ∈ fresh then fresh else (typed ++ digits) :: fresh := by
        split <;> simp_all
      -- The name is recalled by its letters, so they have to be all of it.
      have alone : typed ++ digits = typed := after _ _ _ rfl typed met _ added stem
      obtain rfl : digits = "" := by simpa using alone
      have still : k = j := by
        obtain ⟨none, rfl⟩ := Reply.ok.inj ((takeClass_eq .alnum s j).symm.trans taken)
        rw [String.ofList_eq_empty_iff.mp none]
        rfl
      rw [alone, if_pos both] at grown
      rw [if_pos both, still, alone]
      exact .ok ⟨rfl, grown⟩
    · have both : typed ∉ reused := by simp [known, met, old]
      rw [if_neg both, Scan.bind_of_ok taken]
      exact .ok ⟨rfl, grown⟩
  · rw [if_neg empty, if_neg empty, if_neg user, if_neg user]
    exact .ok ⟨rfl, recalls⟩

/-- Where the record grows, it grows by the name that is given back. -/
theorem command_record {known names : UserNames} {found : Option Command} {j : Nat}
    (h : command neovim known s i = .ok (found, names) j) :
    names = known ∨ ∃ name : String, found = some (.user name) ∧ name.toList.head?.any Char.isUpper = true ∧ known ⊆ names := by
  rw [command] at h
  obtain ⟨typed, k, named, h⟩ := Scan.bind_ok.mp h
  by_cases empty : typed.isEmpty = true
  · rw [if_pos empty] at h
    exact .inl (Prod.mk.inj (Reply.ok.inj h).1).2.symm
  rw [if_neg empty] at h
  by_cases user : Command.isUserName neovim typed.toList = true
  · have capital := (Bool.and_eq_true_iff.mp user).1
    rw [if_pos user] at h
    by_cases old : known.contains typed = true
    · rw [if_pos old] at h
      exact .inl (Prod.mk.inj (Reply.ok.inj h).1).2.symm
    rw [if_neg old] at h
    obtain ⟨digits, l, -, h⟩ := Scan.bind_ok.mp h
    obtain ⟨rfl, rfl⟩ := Prod.mk.inj (Reply.ok.inj h).1
    refine .inr ⟨typed ++ digits, rfl, ?_, ?_⟩
    · cases front : typed.toList <;> simp_all
    · split <;> simp
  · rw [if_neg user] at h
    exact .inl (Prod.mk.inj (Reply.ok.inj h).1).2.symm

/-! ### Statements -/

/-- A line on which the record grows is read to its end. -/
theorem commandPart_agree (blocks : Blocks) (inv : Invocation) (recalls : Recalls earlier fresh reused)
    (now : Apart earlier fresh)
    (after : ∀ effect k j edits, commandPart ⟨neovim, fresh, blocks⟩ inv s i = .ok effect k → trail s k = .ok edits j →
      Apart earlier effect.known) :
    Agree (fun a b => a.edits = b.edits ∧ Recalls earlier a.known b.known)
      (commandPart ⟨neovim, fresh, blocks⟩ inv s i) (commandPart ⟨neovim, reused, blocks⟩ inv s i) := by
  rw [commandPart] at after
  apply Agree.after
  intro _ j skipped
  apply Agree.after
  intro position k here
  apply Agree.after
  intro c l peeked
  simp only [Scan.bind_of_ok skipped, Scan.bind_of_ok here, Scan.bind_of_ok peeked] at after
  by_cases blank : (c.isNone || c == some '"') = true
  · rw [if_pos blank, if_pos blank]
    by_cases bare : (inv.modifiers.isEmpty && inv.range.isEmpty) = true
    · rw [if_pos bare, if_pos bare]
      exact .ok ⟨rfl, recalls⟩
    · rw [if_neg bare, if_neg bare]
      exact .after fun _ _ _ => .ok ⟨rfl, recalls⟩
  · rw [if_neg blank, if_neg blank]
    rw [if_neg blank] at after
    have kept : ∀ found names j, command neovim fresh s l = .ok (found, names) j → Apart earlier names := by
      intro found names m read
      rcases command_record read with rfl | ⟨name, rfl, capital, -⟩
      · exact now
      · obtain ⟨inv', whole⟩ := invoked_of_user blocks { inv with commandPos := position } capital s m
        have trailing := trail_of_lineEnd (head_ahead_lineEnd s m)
        exact after ⟨_, names⟩ _ _ _ ((Scan.bind_of_ok read).trans (Scan.bind_of_ok whole)) trailing
    apply Agree.bind (command_agree recalls kept)
    rintro ⟨found, names⟩ ⟨_, others⟩ m - ⟨rfl, grown⟩
    cases found with
    | none => exact .after fun _ _ _ => .after fun _ _ _ => .fail _ _
    | some command => exact .after fun _ _ _ => .ok ⟨rfl, grown⟩

theorem read_agree (blocks : Blocks) (recalls : Recalls earlier fresh reused) (now : Apart earlier fresh)
    (after : ∀ effect j, read ⟨neovim, fresh, blocks⟩ s i = .ok effect j → Apart earlier effect.known) :
    Agree (fun a b => a.edits = b.edits ∧ Recalls earlier a.known b.known)
      (read ⟨neovim, fresh, blocks⟩ s i) (read ⟨neovim, reused, blocks⟩ s i) := by
  rw [read] at after
  apply Agree.after
  intro two j peeked
  rw [Scan.bind_of_ok peeked] at after
  by_cases mark : (two == "#!") = true
  · rw [if_pos mark, if_pos mark]
    exact .after fun _ _ _ => .ok ⟨rfl, recalls⟩
  rw [if_neg mark, if_neg mark]
  rw [if_neg mark] at after
  apply Agree.after
  intro _ k skipped
  apply Agree.after
  intro c l first
  rw [Scan.bind_of_ok skipped, Scan.bind_of_ok first] at after
  cases c with
  | none => exact .after fun _ _ _ => .ok ⟨rfl, recalls⟩
  | some c =>
    by_cases comment : c = '"'
    · subst comment
      exact .after fun _ _ _ => .after fun _ _ _ => .ok ⟨rfl, recalls⟩
    simp only [Option.some.injEq, comment, imp_self, commandLine] at after ⊢
    apply Agree.after
    intro position m here
    apply Agree.after
    intro modifiers n listed
    apply Agree.after
    intro range o ranged
    rw [Scan.bind_of_ok here, Scan.bind_of_ok listed, Scan.bind_of_ok ranged] at after
    apply Agree.bind
    · apply commandPart_agree blocks _ recalls now
      intro effect p q edits part trailing
      refine after { effect with edits := effect.edits ++ edits } q ?_
      rw [Scan.bind_of_ok part, Scan.bind_of_ok trailing]
      rfl
    · rintro a b p - ⟨same, grown⟩
      exact .after fun _ _ _ => .ok ⟨by simp only [same], grown⟩

theorem command_grows (neovim : Bool) (known : UserNames) :
    (command neovim known).Delivers (fun found => known ⊆ found.2) (fun _ => True) := by
  refine .of_runs (fun s i found j run => ?_) fun _ _ _ _ _ => trivial
  rcases command_record run with same | ⟨_, _, _, grown⟩
  · simp [same]
  · exact grown

/-- Nothing is taken off the record. -/
theorem read_grows (setting : Setting) :
    (read setting).Delivers (fun effect => setting.known ⊆ effect.known) (fun _ => True) := by
  have part (inv : Invocation) :
      (commandPart setting inv).Delivers (fun effect => setting.known ⊆ effect.known) (fun _ => True) := by
    refine .past fun _ => .past fun position => .past fun c => ?_
    apply Scan.Delivers.ite
    · intro _
      apply Scan.Delivers.ite
      · exact fun _ => .pure (List.Subset.refl _)
      · exact fun _ => .past fun _ => .pure (List.Subset.refl _)
    · intro _
      apply (command_grows setting.neovim setting.known).bind
      rintro ⟨found, names⟩ grown
      cases found with
      | none => exact .past fun _ => .past fun _ => .fail trivial _
      | some command => exact .past fun _ => .pure grown
  refine .past fun two => .ite (fun _ => ?_) fun _ => ?_
  · exact .past fun _ => .pure (List.Subset.refl _)
  refine .past fun _ => .past fun c => ?_
  split
  · exact .past fun _ => .pure (List.Subset.refl _)
  · exact .past fun _ => .past fun _ => .pure (List.Subset.refl _)
  · refine .past fun _ => .past fun _ => .past fun _ => ?_
    exact (part _).bind fun effect grown => .past fun _ => .pure grown

end VimScript.Statement

namespace VimScript.Script

open Statement (UserNames Recalls Apart)

variable {neovim : Bool} {s : Source} {earlier fresh reused : UserNames}

theorem statements_grows (n : Nat) (known : UserNames) (blocks : Blocks) (i : Nat) :
    known ⊆ (statements neovim s n known blocks i).2 := by
  induction n generalizing known blocks i with
  | zero => exact List.Subset.refl _
  | succ n ih =>
    rw [statements]
    split
    · exact List.Subset.refl _
    · cases read : Statement.read ⟨neovim, known, blocks⟩ s i with
      | ok effect j => exact List.Subset.trans ((Statement.read_grows _).of_ok read) (ih _ _ _)
      | fail e j => exact List.Subset.refl _
      | spent => exact List.Subset.refl _

theorem statements_agree (n : Nat) (blocks : Blocks) (i : Nat) (recalls : Recalls earlier fresh reused)
    (apart : Apart earlier (statements neovim s n fresh blocks i).2) :
    (statements neovim s n reused blocks i).1 = (statements neovim s n fresh blocks i).1 ∧
      Recalls earlier (statements neovim s n fresh blocks i).2 (statements neovim s n reused blocks i).2 := by
  induction n generalizing fresh reused blocks i with
  | zero => exact ⟨rfl, recalls⟩
  | succ n ih =>
    have now : Apart earlier fresh := fun a inside b known => apart a inside b (statements_grows _ _ _ _ known)
    rw [statements] at apart
    simp only [statements]
    by_cases last : s.size ≤ i
    · rw [if_pos last, if_pos last]
      exact ⟨rfl, recalls⟩
    rw [if_neg last, if_neg last]
    rw [if_neg last] at apart
    have after : ∀ effect j, Statement.read ⟨neovim, fresh, blocks⟩ s i = .ok effect j → Apart earlier effect.known := by
      intro effect j read
      rw [read] at apart
      exact fun a inside b known => apart a inside b (statements_grows _ _ _ _ known)
    have step := Statement.read_agree blocks recalls now after
    cases left : Statement.read ⟨neovim, fresh, blocks⟩ s i <;>
      cases right : Statement.read ⟨neovim, reused, blocks⟩ s i <;> rw [left, right] at step <;> cases step
    case ok.ok related =>
      rw [left] at apart
      dsimp only at apart ⊢
      rw [← related.1]
      exact ih _ _ related.2 apart
    case fail.fail => exact ⟨rfl, recalls⟩
    case spent.spent => exact ⟨rfl, recalls⟩

/-- The user commands a script puts on record when it is read alone. -/
def userNames (neovim : Bool) (s : Source) : UserNames :=
  (readWith neovim [] s).2

/-- What is on record does not matter to a script whose names are apart from it. -/
theorem readWith_of_apart (known : UserNames) (apart : Apart known (userNames neovim s)) :
    (readWith neovim known s).1 = read neovim s ∧ Recalls known (userNames neovim s) (readWith neovim known s).2 :=
  statements_agree _ _ _ (fun name => by simp) apart

end VimScript.Script

namespace VimScript.Session

open Statement (UserNames Apart)
open Script (userNames)

variable {neovim : Bool}

theorem readAll_cons (known : UserNames) (s : Source) (rest : List Source) :
    readAll ⟨neovim, known⟩ (s :: rest) =
      (Script.readWith neovim known s).1 :: readAll ⟨neovim, (Script.readWith neovim known s).2⟩ rest :=
  rfl

theorem readAll_of_apart (known : UserNames) (sources : List Source) (now : ∀ s ∈ sources, Apart known (userNames neovim s))
    (apart : sources.Pairwise fun s t => Apart (userNames neovim s) (userNames neovim t)) :
    readAll ⟨neovim, known⟩ sources = sources.map (Script.read neovim) := by
  induction sources generalizing known with
  | nil => rfl
  | cons s rest ih =>
    obtain ⟨first, later⟩ := List.pairwise_cons.mp apart
    obtain ⟨same, recalls⟩ := Script.readWith_of_apart known (now s (by simp))
    have following : ∀ t ∈ rest, Apart (Script.readWith neovim known s).2 (userNames neovim t) := by
      intro t place n recorded
      rcases (recalls n).mp recorded with old | new
      · exact now t (by simp [place]) n old
      · exact first t place n new
    rw [List.map_cons, ← same, ← ih _ following later]
    rfl

/-- Scripts read in turn give what each gives alone, unless a name in one is a name of an earlier one with digits
added. -/
theorem readAll_eq_map_read (neovim : Bool) (sources : List Source)
    (apart : sources.Pairwise fun s t => Apart (userNames neovim s) (userNames neovim t)) :
    readAll ⟨neovim, []⟩ sources = sources.map (Script.read neovim) :=
  readAll_of_apart [] sources (by simp [Apart]) apart

theorem readAll_eq_map_read_three :
    let sources := [.ofLines ["MyCmd1 x"], .ofLines ["MyCmd", "endif"], .ofLines ["MyCmd y"]]
    sources.Pairwise (fun s t => Apart (userNames false s) (userNames false t)) ∧
      readAll ⟨false, []⟩ sources = sources.map (Script.read false) := by
  intro sources
  have apart : sources.Pairwise fun s t => Apart (userNames false s) (userNames false t) := by
    simp only [sources, userNames, Script.readWith_eq_byInitial, Source.ofLines_eq_ofChars]
    decide +kernel
  exact ⟨apart, readAll_eq_map_read false sources apart⟩

/-- After `MyCmd` the name `MyCmd1` is read as `MyCmd` with an argument. -/
theorem readAll_ne_map_read :
    readAll ⟨false, []⟩ [.ofLines ["MyCmd"], .ofLines ["MyCmd1"]] ≠
      [Source.ofLines ["MyCmd"], .ofLines ["MyCmd1"]].map (Script.read false) := by
  intro same
  have named := congrArg (List.map (Reply.passes fun root =>
    root.children.all fun n => n.invocation?.any fun inv => inv.name == "MyCmd")) same
  revert named
  rw [readAll_cons, readAll_cons, Script.readWith_eq_byInitial, Script.read_eq_byInitial, Source.ofLines_eq_ofChars]
  decide +kernel

end VimScript.Session
