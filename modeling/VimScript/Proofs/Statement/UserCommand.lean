import VimScript.Proofs.Statement.Text

/-!
Lines with a user command. The typed name is the longest run of letters at the cursor, the command takes the rest of
its line whatever stands there, and so such a line is always read.
-/

set_option autoImplicit false

namespace VimScript.Statement

variable {s : Source} {i j : Nat} {c : Char} {cs : List Char} {typed digits : String}

/-! ### The end of the line -/

def lineEnd (s : Source) (i : Nat) : Nat :=
  i + (Source.run (fun _ => true) (s.ahead i)).length

theorem lineEnd_succ (h : s.ahead i = c :: cs) (line : c ≠ '\n') : lineEnd s (i + 1) = lineEnd s i := by
  simp only [lineEnd, Source.ahead_of_cons h, h, Source.run, List.takeWhile_cons]
  simp [line]
  omega

/-- A run does not leave its line. -/
theorem lineEnd_of_run (p : Char → Bool) (s : Source) (i : Nat) :
    lineEnd s (i + (Source.run p (s.ahead i)).length) = lineEnd s i := by
  generalize run : Source.run p (s.ahead i) = xs
  induction xs generalizing i with
  | nil => rfl
  | cons x xs ih =>
    cases front : s.ahead i with
    | nil => simp [front, Source.run] at run
    | cons c cs =>
      rw [front, Source.run, List.takeWhile_cons] at run
      split at run
      next inside =>
        obtain ⟨rfl, rest⟩ := List.cons.inj run
        have line : c ≠ '\n' := by
          rintro rfl
          simp at inside
        have next := ih (i + 1) (by rw [Source.ahead_of_cons front]; exact rest)
        rw [List.length_cons, Nat.add_comm xs.length 1, ← Nat.add_assoc, next, lineEnd_succ front line]
      next => simp at run

theorem head_ahead_lineEnd (s : Source) (i : Nat) : ∀ c ∈ (s.ahead (lineEnd s i)).head?, c = '\n' := by
  intro c first
  have rest : s.ahead (lineEnd s i) = (s.ahead i).dropWhile fun c => c != '\n' && true :=
    Source.ahead_of_append List.takeWhile_append_dropWhile.symm
  rw [rest] at first
  have stop := List.head?_dropWhile_not (fun c => c != '\n' && true) (s.ahead i)
  rw [first] at stop
  simpa using stop

theorem takeLine_eq (s : Source) (i : Nat) : ∃ text, Scan.takeLine s i = .ok text (lineEnd s i) :=
  ⟨_, Scan.takeWhile_eq _ s i⟩

theorem skipWhite_lineEnd (s : Source) (i : Nat) : ∃ j, Scan.skipWhite s i = .ok () j ∧ lineEnd s j = lineEnd s i :=
  ⟨_, Scan.skipWhile_eq _ s i, lineEnd_of_run _ s i⟩

/-! ### The name -/

/-- The letters a name starts with. -/
def letters (name : String) : List Char :=
  name.toList.takeWhile CharClass.alpha.has

theorem run_of_class (k : CharClass) (cs : List Char) : Source.run k.has cs = cs.takeWhile k.has := by
  have same : (fun c => c != '\n' && k.has c) = k.has := by
    funext c
    cases inside : k.has c with
    | false => simp
    | true => simp [Scan.ne_newline_of_has inside]
  rw [Source.run, same]

theorem takeClass_eq (k : CharClass) (s : Source) (i : Nat) :
    Scan.takeClass k s i =
      .ok (String.ofList ((s.ahead i).takeWhile k.has)) (i + ((s.ahead i).takeWhile k.has).length) := by
  rw [Scan.takeClass, Scan.takeWhile_eq, run_of_class]

theorem peekInLine_eq (s : Source) (i : Nat) :
    Scan.peekInLine s i = .ok ((s.ahead i).head?.filter (· != '\n')) i :=
  Scan.peekInLine_of_ahead rfl

theorem head_of_flaggedDelete {name : String} (h : isFlaggedDelete name = true) : name.toList.head? = some 'd' := by
  have first : name.toList.dropLast.head? = some 'd' := by
    simp only [isFlaggedDelete, Bool.and_eq_true, List.contains_eq_mem, List.mem_cons, List.not_mem_nil, or_false,
      decide_eq_true_eq] at h
    rcases h.2 with same | same | same | same | same | same <;> simpa using congrArg (·.toList.head?) same
  obtain ⟨rest, front⟩ := List.head?_eq_some_iff.mp first
  have starts := List.dropLast_prefix name.toList
  rw [front] at starts
  obtain ⟨more, whole⟩ := starts
  simp [← whole]

theorem isUpper_of_prefix (ahead : s.ahead i = c :: cs) (starts : typed.toList <+: s.ahead i)
    (capital : typed.toList.head?.any Char.isUpper = true) : c.isUpper = true := by
  cases front : typed.toList with
  | nil => simp [front] at capital
  | cons d ds =>
    obtain ⟨rest, whole⟩ := starts
    rw [front, ahead] at whole
    obtain ⟨rfl, -⟩ := List.cons.inj whole
    simpa [front] using capital

theorem prefix_of_take {n : Nat} (h : Scan.take n s i = .ok typed j) : typed.toList <+: s.ahead i := by
  have peeked := Scan.peeking_of_ok h
  obtain ⟨rfl, -⟩ := Reply.ok.inj ((Scan.peekRun_of_ahead n rfl).symm.trans peeked)
  rw [String.toList_ofList]
  exact (List.takeWhile_prefix _).trans (List.take_prefix n _)

theorem prefix_of_takeClass {k : CharClass} (h : Scan.takeClass k s i = .ok typed j) : typed.toList <+: s.ahead i := by
  obtain ⟨rfl, -⟩ := Reply.ok.inj ((takeClass_eq k s i).symm.trans h)
  rw [String.toList_ofList]
  exact List.takeWhile_prefix _

/-- A name that starts with a capital is none of those that are cut short. -/
theorem typedName_of_capital (h : typedName s i = .ok typed j) (capital : typed.toList.head?.any Char.isUpper = true) :
    typed.toList = (s.ahead i).takeWhile CharClass.alpha.has ∧ j = i + typed.toList.length := by
  rw [typedName, Scan.bind_of_ok (peekInLine_eq s i)] at h
  cases inLine : (s.ahead i).head?.filter (· != '\n') with
  | none =>
    rw [inLine] at h
    obtain ⟨rfl, -⟩ := Reply.ok.inj h
    simp at capital
  | some c =>
    rw [inLine] at h
    obtain ⟨front, line⟩ := Option.filter_eq_some_iff.mp inLine
    obtain ⟨cs, ahead⟩ := List.head?_eq_some_iff.mp front
    dsimp only at h
    by_cases mark : (c == 'k') = true
    · rw [if_pos mark] at h
      obtain ⟨_, _, -, h⟩ := Scan.bind_ok.mp h
      obtain ⟨rfl, -⟩ := Reply.ok.inj h
      simp at capital
    rw [if_neg mark] at h
    obtain ⟨five, k, peeked, h⟩ := Scan.bind_ok.mp h
    obtain ⟨-, rfl⟩ := Reply.ok.inj ((Scan.peekRun_of_ahead 5 rfl).symm.trans peeked)
    by_cases short : isShortSubstitute five.toList = true
    · rw [if_pos short] at h
      obtain ⟨_, _, -, h⟩ := Scan.bind_ok.mp h
      obtain ⟨rfl, -⟩ := Reply.ok.inj h
      simp at capital
    rw [if_neg short] at h
    -- From here on the name is written at the cursor, so the first character ahead is its capital.
    by_cases sign : "@*!=><&~#".toList.contains c = true
    · rw [if_pos sign] at h
      have upper := isUpper_of_prefix ahead (prefix_of_take h) capital
      have small : "@*!=><&~#".toList.all (!·.isUpper) = true := by decide
      have lower := List.all_eq_true.mp small c (by simpa using sign)
      simp [upper] at lower
    rw [if_neg sign] at h
    obtain ⟨two, k, peeked, h⟩ := Scan.bind_ok.mp h
    obtain ⟨same, rfl⟩ := Reply.ok.inj ((Scan.peekRun_of_ahead 2 ahead).symm.trans peeked)
    by_cases python : (two == "py") = true
    · rw [if_pos python] at h
      have upper := isUpper_of_prefix ahead (prefix_of_takeClass h) capital
      have first := congrArg (·.toList.head?) (same.trans (beq_iff_eq.mp python))
      obtain rfl : c = 'p' := by simpa [List.takeWhile_cons, line] using first
      simp at upper
    rw [if_neg python, Scan.bind_of_ok (Scan.tell_apply s i)] at h
    obtain ⟨name, k, taken, h⟩ := Scan.bind_ok.mp h
    by_cases flagged : isFlaggedDelete name = true
    · rw [if_pos flagged, Scan.bind_of_ok (Scan.seek_apply i s k)] at h
      have upper := isUpper_of_prefix ahead (prefix_of_take h) capital
      obtain ⟨rest, written⟩ := List.head?_eq_some_iff.mp (head_of_flaggedDelete flagged)
      obtain ⟨more, whole⟩ := prefix_of_takeClass taken
      rw [written, ahead] at whole
      obtain ⟨rfl, -⟩ := List.cons.inj whole
      simp at upper
    rw [if_neg flagged] at h
    obtain ⟨rfl, rfl⟩ := Reply.ok.inj h
    obtain ⟨rfl, rfl⟩ := Reply.ok.inj ((takeClass_eq .alpha s i).symm.trans taken)
    simp

/-! ### The line -/

variable {name : String}

theorem isPlainCommand_user (capital : name.toList.head?.any Char.isUpper = true) :
    IsPlainCommand (.user name) where
  noShell := by
    rw [bne_iff_ne]
    rintro rfl
    simp at capital
  noOptions := by simp
  noStart := by simp
  noLeadIn := by
    intro found
    simp only [Command.user, List.mem_cons, List.not_mem_nil, or_false] at found
    rcases found with rfl | rfl | rfl | rfl | rfl <;> simp at capital

theorem bang_of_user (name : String) (position : Position) (s : Source) (i : Nat) :
    ∃ found j, bang (.user name) position s i = .ok found j ∧ lineEnd s j = lineEnd s i := by
  rw [bang, Scan.bind_of_ok (peekInLine_eq s i)]
  by_cases mark : ((s.ahead i).head?.filter (· != '\n') == some '!' &&
      !(["substitute", "smagic", "snomagic"].contains (Command.user name).name)) = true
  · have first := beq_iff_eq.mp (Bool.and_eq_true_iff.mp mark).1
    obtain ⟨cs, ahead⟩ := List.head?_eq_some_iff.mp (Option.filter_eq_some_iff.mp first).1
    have taken : Scan.take 1 s i = .ok "!" (i + 1) := Scan.take_of_ahead ['!'] ahead (by decide)
    rw [if_pos mark, Scan.bind_of_ok taken]
    exact ⟨true, i + 1, by simp [Scan.pure_apply], lineEnd_succ ahead (by decide)⟩
  · rw [if_neg mark]
    exact ⟨false, i, rfl, rfl⟩

/-- A user command takes the rest of its line. -/
theorem invoked_of_user (blocks : Blocks) (inv : Invocation) (capital : name.toList.head?.any Char.isUpper = true)
    (s : Source) (i : Nat) :
    ∃ inv', invoked blocks inv (.user name) s i =
      .ok [.add (.command inv' (s.text inv.linePos.cursor (lineEnd s i)))] (lineEnd s i) := by
  have plain := isPlainCommand_user capital
  obtain ⟨mark, j, noted, onLine⟩ := bang_of_user name inv.commandPos s i
  obtain ⟨k, skipped, within⟩ := skipWhite_lineEnd s j
  obtain ⟨text, taken⟩ := takeLine_eq s k
  let inv' : Invocation :=
    { inv with bang := mark, argumentPos := s.position k, command := some (.user name) }
  have noLeadIn : leadIn inv' s k = .ok inv' k := leadIn_of_plain inv' plain rfl
  have noBar : inv'.has .trlbar = false := by simp [inv', Invocation.has]
  have noNeed : inv'.has .needarg = false := by simp [inv', Invocation.has]
  refine ⟨inv', ?_⟩
  simp only [invoked, Scan.bind_of_ok noted, plain.noShell, if_true, Scan.bind_of_ok skipped,
    Scan.bind_of_ok (Scan.here_apply s k), plain.noOptions, plain.noStart, Bool.false_and, Bool.false_eq_true,
    if_false, pure_bind]
  rw [Scan.bind_of_ok noLeadIn]
  simp only [Command.user, body, raw, noBar, noNeed, Bool.false_and, Bool.false_eq_true, if_false, bind_assoc,
    Scan.bind_of_ok taken, Scan.bind_of_ok (Scan.tell_apply s _)]
  rw [within, onLine]
  rfl

end VimScript.Statement
