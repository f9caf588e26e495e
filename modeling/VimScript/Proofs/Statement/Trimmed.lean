import VimScript.Proofs.Statement.ArgumentEnd

/-!
The blanks at the end of an argument. They are left out of the text that is kept, but not the blanks before an argument
that is empty, and an escaped blank is left out with the others.
-/

set_option autoImplicit false

namespace VimScript.Statement

open Scan

variable {inv : Invocation} {command : Command} {s : Source} {state : ArgumentScan} {edits : List Edit} {q i j stop e : Nat}

def IsBlank (s : Source) (k : Nat) : Prop :=
  CharClass.white.hasOpt (s.char? k) = true

instance (s : Source) (k : Nat) : Decidable (IsBlank s k) :=
  inferInstanceAs (Decidable (_ = true))

/-- An argument from `start` on is solid up to a place behind which there are only blanks. -/
structure SolidUpTo (s : Source) (start e i : Nat) : Prop where
  later : start ≤ e
  within : e ≤ i
  blanks : ∀ k, e ≤ k → k < i → IsBlank s k
  solid : e = start ∨ ¬IsBlank s (e - 1)

theorem SolidUpTo.refl (s : Source) (start : Nat) : SolidUpTo s start start start :=
  ⟨Nat.le_refl _, Nat.le_refl _, by omega, .inl rfl⟩

/-- A place without a blank before it is solid. -/
theorem SolidUpTo.here (later : q ≤ i) (solid : ¬IsBlank s (i - 1)) : SolidUpTo s q i i :=
  ⟨later, Nat.le_refl i, by omega, .inr solid⟩

theorem SolidUpTo.succ (h : SolidUpTo s q e i) (blank : IsBlank s i) : SolidUpTo s q e (i + 1) := by
  refine ⟨h.later, Nat.le_succ_of_le h.within, fun k start less => ?_, h.solid⟩
  rcases Nat.lt_or_eq_of_le (Nat.le_of_lt_succ less) with less | rfl
  · exact h.blanks k start less
  · exact blank

theorem SolidUpTo.isLeast (h : SolidUpTo s q e stop) : IsLeast {e | q ≤ e ∧ ∀ k, e ≤ k → k < stop → IsBlank s k} e := by
  refine ⟨⟨h.later, h.blanks⟩, fun k met => Nat.le_of_not_lt fun less => ?_⟩
  obtain ⟨start, blanks⟩ := met
  have within := h.within
  rcases h.solid with rfl | solid
  · omega
  · exact solid (blanks (e - 1) (by omega) (by omega))

/-! ### The turns -/

theorem not_isBlank_of_char {c : Char} {k : Nat} (char : s.char? k = some c) (solid : CharClass.white.has c = false) :
    ¬IsBlank s k := by
  simp [IsBlank, char, solid]

theorem solidAt_again {c : Char} {solid k : Nat} (char : s.char? k = some c) (later : q ≤ k) (held : SolidUpTo s q solid k) :
    SolidUpTo s q ((⟨some c, solid⟩ : ArgumentScan).solidAt (k + 1)) (k + 1) := by
  unfold ArgumentScan.solidAt
  split
  · rename_i blank
    exact held.succ (by rwa [IsBlank, char])
  · rename_i solid
    exact .here (by omega) (not_isBlank_of_char char (by simpa using solid))

theorem argumentLoop_solid (inv : Invocation) (s : Source) (q : Nat) :
    (Scan.loop ⟨none, q⟩ (argumentStep inv)).Gives s q fun found j => found.1 = j ∧ SolidUpTo s q found.2 j := by
  refine .loop (fun state i => SolidUpTo s q (state.solidAt i) i) (.refl s q) fun state i held => ?_
  refine (argumentStep_gives inv s state i).mono fun turn j made => ?_
  have later := Nat.le_trans held.later held.within
  have mark (char : s.char? i = some '\x16') : SolidUpTo s q (i + 1) (i + 1) :=
    .here (by omega) (not_isBlank_of_char char (by decide))
  cases made with
  | stop stops => exact ⟨rfl, held⟩
  | openEscape char last => exact ⟨rfl, mark char⟩
  | escaped char next line => exact solidAt_again next (by omega) (mark char)
  | character char plain goes => exact solidAt_again char later held
  | expression files more close =>
    show SolidUpTo s q j j
    exact .here (by omega) (not_isBlank_of_char close (by decide))

theorem noGrep_of_listed (listed : command ∈ Command.builtin ++ Command.neovimAdded)
    (comments : command.has .notrlcom = false) :
    ["vimgrep", "vimgrepadd", "lvimgrep", "lvimgrepadd"].contains command.name = false := by
  have table : ∀ command ∈ Command.builtin ++ Command.neovimAdded, command.has .notrlcom = false →
      ["vimgrep", "vimgrepadd", "lvimgrep", "lvimgrepadd"].contains command.name = false := by decide +kernel
  exact table command listed comments

theorem raw_solid (listed : command ∈ Command.builtin ++ Command.neovimAdded) (known : inv.command = some command)
    (bar : command.has .trlbar = true) (comments : command.has .notrlcom = false) (noFilter : inv.filter = false) :
    (raw inv).Gives s q fun edits stop =>
      ∃ e, edits = [.add (.command inv (s.text inv.linePos.cursor e))] ∧ SolidUpTo s q e stop := by
  have hasBar : inv.has .trlbar = true := by rwa [Invocation.has, known]
  have hasComments : inv.has .notrlcom = false := by rwa [Invocation.has, known]
  have plain : ["vimgrep", "vimgrepadd", "lvimgrep", "lvimgrepadd"].contains inv.name = false := by
    rw [Invocation.name, known]
    exact noGrep_of_listed listed comments
  have followed : (argumentEnd inv).Gives s q fun e stop => SolidUpTo s q e stop := by
    rw [argumentEnd, plain]
    refine .after (tell_apply s q) ((argumentLoop_solid inv s q).bind ?_)
    rintro ⟨_, e⟩ stop ⟨rfl, solid⟩
    rw [hasComments]
    exact .pure solid
  rw [raw_eq, hasBar, noFilter]
  refine Gives.bind (x := argumentEnd inv) followed fun e stop solid => ?_
  refine (recordUpTo_gives inv s e stop).mono ?_
  rintro edits _ ⟨rfl, rfl⟩
  exact ⟨e, rfl, solid⟩

/-! ### The text -/

/-- Whether a text ends without its trailing blanks, of which those that are escaped belong to it. -/
def TrimmedAt (inv : Invocation) (s : Source) (start stop e : Nat) : Prop :=
  IsLeast {e | inv.linePos.cursor ≤ e ∧
    ∀ k, e ≤ k → k < stop → IsBlank s k ∧ isEscaped '\x16' (s.ahead start) (k - start) = false} e

/-- Behind a blank nothing is escaped. -/
theorem isEscaped_of_blank {k : Nat} (later : q ≤ k) (blank : IsBlank s k) :
    isEscaped '\x16' (s.ahead q) (k + 1 - q) = false := by
  rw [isEscaped_ahead later]
  cases char : s.char? k with
  | none => rfl
  | some c =>
    have other : c ≠ '\x16' := by
      rintro rfl
      exact not_isBlank_of_char char (by decide) blank
    simp [other]

theorem SolidUpTo.trimmedAt (h : SolidUpTo s q e stop) (start : inv.linePos.cursor ≤ q)
    (argument : q < e ∨ ¬IsBlank s (q - 1)) (plain : e < stop → isEscaped '\x16' (s.ahead q) (e - q) = false) :
    TrimmedAt inv s q stop e := by
  have later := h.later
  refine ⟨⟨by omega, fun k here less => ⟨h.blanks k here less, ?_⟩⟩, fun k met => Nat.le_of_not_lt fun less => ?_⟩
  · rcases Nat.lt_or_eq_of_le here with above | rfl
    · obtain ⟨l, rfl⟩ := Nat.exists_eq_add_of_lt above
      exact isEscaped_of_blank (by omega) (h.blanks _ (by omega) (by omega))
    · exact plain less
  · have within := h.within
    have blank := (met.2 (e - 1) (by omega) (by omega)).1
    rcases h.solid with rfl | solid
    · exact argument.elim (by omega) fun solid => solid blank
    · exact solid blank

/-- The character before the end of a trimmed text is no blank, or it is an escaped one. -/
theorem TrimmedAt.last (h : TrimmedAt inv s q stop e) (more : inv.linePos.cursor < e) (blank : IsBlank s (e - 1)) :
    isEscaped '\x16' (s.ahead q) (e - 1 - q) = true := by
  by_contra plain
  have lower : e ≤ e - 1 := by
    refine h.2 ⟨by omega, fun k here less => ?_⟩
    obtain rfl | above : k = e - 1 ∨ e ≤ k := by omega
    · exact ⟨blank, by simpa using plain⟩
    · exact h.1.2 k above less
  omega

/-- The text of a command ends before the blanks at the end of its argument. Where there is an argument, and it does not
end in an escaped blank, exactly the blanks at the end that are not escaped are left out. -/
theorem raw_trimmed (listed : command ∈ Command.builtin ++ Command.neovimAdded) (known : inv.command = some command)
    (bar : command.has .trlbar = true) (comments : command.has .notrlcom = false) (noFilter : inv.filter = false)
    (start : inv.linePos.cursor ≤ q) (ok : raw inv s q = .ok edits stop) :
    ∃ e, edits = [.add (.command inv (s.text inv.linePos.cursor e))] ∧
      IsLeast {e | q ≤ e ∧ ∀ k, e ≤ k → k < stop → IsBlank s k} e ∧
      ((q < e ∨ ¬IsBlank s (q - 1)) → (e < stop → isEscaped '\x16' (s.ahead q) (e - q) = false) →
        TrimmedAt inv s q stop e ∧
          (inv.linePos.cursor < e → IsBlank s (e - 1) → isEscaped '\x16' (s.ahead q) (e - 1 - q) = true)) := by
  obtain ⟨e, rfl, solid⟩ := (raw_solid listed known bar comments noFilter).of_ok ok
  refine ⟨e, rfl, solid.isLeast, fun argument plain => ?_⟩
  have trimmed := solid.trimmedAt start argument plain
  exact ⟨trimmed, trimmed.last⟩

def setCommand : Command :=
  ⟨"set", 2, [.trlbar, .extra, .cmdwin, .sboxok], .common⟩

/-- A `:set` at the start of a buffer. -/
def setAtStart (s : Source) : Invocation :=
  { command := some setCommand, linePos := s.position 0, argumentPos := s.position 4 }

theorem raw_setAtStart {e stop : Nat} (ended : argumentEnd (setAtStart s) s 4 = .ok e stop) :
    raw (setAtStart s) s 4 = .ok [.add (.command (setAtStart s) (s.text 0 e))] stop := by
  rw [raw_eq]
  exact bind_of_ok (x := argumentEnd (setAtStart s)) ended

/-- An escaped blank inside the argument, and a blank and a tab at its end. -/
theorem raw_trimmed_set :
    let s := Source.ofLines ["set a \x16 b \t| c"]
    setCommand ∈ Command.builtin ++ Command.neovimAdded ∧ (setAtStart s).command = some setCommand ∧
      setCommand.has .trlbar = true ∧ setCommand.has .notrlcom = false ∧ (setAtStart s).filter = false ∧
      (setAtStart s).linePos.cursor ≤ 4 ∧
      raw (setAtStart s) s 4 = .ok [.add (.command (setAtStart s) "set a \x16 b")] 11 ∧
      TrimmedAt (setAtStart s) s 4 11 9 := by
  intro s
  have listed : setCommand ∈ Command.builtin ++ Command.neovimAdded := by decide +kernel
  have known : (setAtStart s).command = some setCommand := rfl
  have ended : argumentEnd (setAtStart s) s 4 = .ok 9 11 := by decide +kernel
  have ok := raw_setAtStart ended
  obtain ⟨e, -, least, trimmed⟩ := raw_trimmed listed known rfl rfl rfl (Nat.zero_le 4) ok
  have atMost : e ≤ 9 := by
    refine least.2 ⟨by decide, fun k here less => ?_⟩
    obtain rfl | rfl : k = 9 ∨ k = 10 := by omega
    all_goals decide +kernel
  have atLeast : 9 ≤ e := by
    by_contra below
    have blank : IsBlank s 8 := least.1.2 8 (by omega) (by decide)
    exact absurd blank (by decide +kernel)
  obtain rfl := Nat.le_antisymm atMost atLeast
  have plain : isEscaped '\x16' (s.ahead 4) (9 - 4) = false := by decide +kernel
  have text : s.text 0 9 = "set a \x16 b" := by decide +kernel
  rw [text] at ok
  exact ⟨listed, known, rfl, rfl, rfl, Nat.zero_le 4, ok, (trimmed (.inl (by decide)) fun _ => plain).1⟩

/-- Whether the text of a `:set` at the start of a buffer is trimmed. -/
def TrimsSet (s : Source) : Prop :=
  ∀ edits stop, raw (setAtStart s) s 4 = .ok edits stop →
    ∃ e, edits = [.add (.command (setAtStart s) (s.text 0 e))] ∧ TrimmedAt (setAtStart s) s 4 stop e

/-- The blank after the name stays where there is no argument, and an escaped blank at the end does not. -/
theorem not_trimsSet : ¬TrimsSet (.ofLines ["set "]) ∧ ¬TrimsSet (.ofLines ["set x\x16 "]) := by
  have text {s : Source} {i j : Nat} (same : [Edit.add (.command (setAtStart s) (s.text 0 i))] =
      [.add (.command (setAtStart s) (s.text 0 j))]) : s.text 0 i = s.text 0 j := by
    simpa [Node.command] using same
  refine ⟨fun trims => ?_, fun trims => ?_⟩
  · obtain ⟨e, same, trimmed⟩ := trims _ 4 (raw_setAtStart (e := 4) (by decide +kernel))
    have atMost : e ≤ 3 := by
      refine trimmed.2 ⟨by decide, fun k here less => ?_⟩
      obtain rfl : k = 3 := by omega
      decide +kernel
    have other : ∀ e ≤ 3, (Source.ofLines ["set "]).text 0 4 ≠ (Source.ofLines ["set "]).text 0 e := by decide +kernel
    exact other e atMost (text same)
  · obtain ⟨e, same, trimmed⟩ := trims _ 7 (raw_setAtStart (e := 6) (by decide +kernel))
    have atMost : e ≤ 7 := trimmed.2 ⟨by decide, by omega⟩
    have atLeast : 7 ≤ e := by
      by_contra below
      have plain := (trimmed.1.2 6 (by omega) (by decide)).2
      exact absurd plain (by decide +kernel)
    obtain rfl := Nat.le_antisymm atMost atLeast
    exact absurd (text same) (by decide +kernel)

end VimScript.Statement
