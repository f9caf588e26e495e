import VimScript.CharClass

/-!
Character classes hold ASCII characters only, so what is true of all characters of a class can be looked up.
-/

set_option autoImplicit false

namespace VimScript.CharClass

theorem lt_of_has {k : CharClass} {c : Char} (h : k.has c = true) : c.toNat < 128 := by
  have order (b : Char) : c ≤ b ↔ c.toNat ≤ b.toNat := Iff.rfl
  have same (b : Char) : c = b ↔ c.toNat = b.toNat := Char.toNat_inj.symm
  have letter : c.isAlpha = (c.isUpper || c.isLower) := rfl
  have upper : c.isUpper = decide (c.val ≥ 'A'.val ∧ c.val ≤ 'Z'.val) := rfl
  have lower : c.isLower = (decide (c.val ≥ 'a'.val) && decide (c.val ≤ 'z'.val)) := rfl
  cases k <;>
    simp only [has, Char.isAlphanum, letter, upper, lower, Char.isDigit, Bool.or_eq_true,
      Bool.and_eq_true, decide_eq_true_eq, beq_iff_eq, order, same, ge_iff_le, UInt32.le_iff_toNat_le] at h <;>
    grind [Char.toNat]

theorem forall_of_table {k : CharClass} {p : Char → Prop}
    (table : ∀ n < 128, k.has (Char.ofNat n) = true → p (Char.ofNat n)) {c : Char} (h : k.has c = true) : p c := by
  have found := table c.toNat (lt_of_has h)
  rw [Char.ofNat_toNat] at found
  exact found h

theorem forall_of_listed {p : Char → Prop} [DecidablePred p] {marks : List Char}
    (table : marks.all (fun c => decide (p c)) = true) {c : Char} (h : c ∈ marks) : p c :=
  of_decide_eq_true (List.all_eq_true.mp table c h)

theorem has_newline (k : CharClass) : k.has '\n' = false := by
  cases k <;> decide

theorem not_digit_of_nameStart {c : Char} (h : nameStart.has c = true) : digit.has c = false :=
  forall_of_table (p := fun c => digit.has c = false) (by decide) h

theorem not_white_of_nameStart {c : Char} (h : nameStart.has c = true) : white.has c = false :=
  forall_of_table (p := fun c => white.has c = false) (by decide) h

end VimScript.CharClass
