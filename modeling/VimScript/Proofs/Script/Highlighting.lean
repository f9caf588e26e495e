import VimScript.Proofs.Script.Heredoc
import VimScript.Proofs.Script.Initials
import VimScript.Proofs.Statement.Highlighting

/-!
The end of `:syntax` in scripts. Its text goes up to the first bar or end of a line outside of the patterns and values of
its argument, and the next statement is read from behind that bar; but a bar right behind a pattern or a value does not
count.
-/

set_option autoImplicit false

namespace VimScript

open Statement

theorem Statement.HighlightsUpTo.type {past : Nat → Nat} {s : Source} {n : Node} {k : Nat}
    (h : HighlightsUpTo past s n k) : n.type = .command := by
  cases h with
  | intro => rfl

theorem Statement.HighlightsUpTo.of_apart {s : Source} {n : Node} {k : Nat} (h : HighlightsUpTo s.behind s n k)
    (apart : ∀ inv, n.invocation? = some inv → UnitsApart s inv.argumentPos.cursor k) : HighlightsUpTo id s n k := by
  cases h with
  | intro first => exact .intro (isLeast_of_apart (apart _ rfl) first)

namespace Script

variable {neovim : Bool} {s : Source} {known : UserNames} {j : Nat} {root n : Node} {above : List Node}

/-- The nodes of `:syntax` keep its text. -/
theorem readWith_highlighting_type (ok : (readWith neovim known s).1 = .ok root j) (place : root.Occurs above n)
    (form : n.form? = some .highlighting) : n.type = .command := by
  let L (label : Label) : Prop := label.2.2.bind (fun inv => inv.command.map Command.form) = some .highlighting →
    label.2.1 = .command
  have all : ∀ label ∈ root.labels, L label := by
    refine readWith_labels (fun label unnamed form => ?_) (fun _ _ blocks _ _ _ reached read e handed form => ?_) ok
    · rw [unnamed] at form
      cases form
    · obtain ⟨-, k, upTo, -⟩ := ((accounts_highlighting s blocks).read reached.bound).of_ok read e handed form
      exact upTo.type
  exact all n.label (place.labels n.label_mem_labels) form

theorem readWith_highlightsUpTo (ok : (readWith neovim known s).1 = .ok root j) (place : root.Occurs above n)
    (form : n.form? = some .highlighting) :
    ∃ k, HighlightsUpTo s.behind s n k ∧ ReadsUpTo neovim s known n (if k < s.size then k + 1 else k) := by
  let P (n : Node) : Prop := n.type = .command → n.form? = some .highlighting →
    ∃ k, HighlightsUpTo s.behind s n k ∧ ReadsUpTo neovim s known n (if k < s.size then k + 1 else k)
  have all : root.Throughout P := by
    refine readWith_throughout ?_ ?_ ?_ ok
    · intro n body type
      obtain ⟨position, kind⟩ := n
      cases kind <;> simp_all [Node.type, Kind.nodeType, Kind.body?]
    · intro n expression type
      rw [type] at expression
      cases expression
    · intro edits names blocks i effect j reached read e handed _ form
      obtain ⟨later, k, upTo, rfl⟩ := ((accounts_highlighting s blocks).read reached.bound).of_ok read e handed form
      exact ⟨k, upTo, edits, names, blocks, i, effect, reached, later, ⟨e, handed, rfl⟩, read⟩
  exact (place.throughout all).own (readWith_highlighting_type ok place form) form

/-- The argument of a `:syntax` is followed over its patterns and values, each with the character behind it. The command
ends at the first bar or end of a line that is left, unless a pattern is refused before, and the next statement is read
from behind it. Where no pattern or value is followed by a bar or by another, nothing is passed over in this way. -/
theorem readWith_highlights (neovim : Bool) (known : UserNames) (s : Source) :
    (∀ (inv : Invocation) (q : Nat),
      Highlights s.behind s q (fun stop => [.add (.command inv (s.text inv.linePos.cursor stop))])
        (highlighting inv s q)) ∧
    ∀ (root : Node) (j : Nat) (above : List Node) (n : Node),
      (readWith neovim known s).1 = .ok root j → root.Occurs above n → n.form? = some .highlighting →
        ∃ k, HighlightsUpTo s.behind s n k ∧ ReadsUpTo neovim s known n (if k < s.size then k + 1 else k) ∧
          ((∀ inv, n.invocation? = some inv → UnitsApart s inv.argumentPos.cursor k) → HighlightsUpTo id s n k) := by
  refine ⟨fun inv q => highlighting_highlights inv s q, fun root j above n ok place form => ?_⟩
  obtain ⟨k, upTo, reads⟩ := readWith_highlightsUpTo ok place form
  exact ⟨k, upTo, reads, upTo.of_apart⟩

/-- The text of a command. -/
def commandText? (n : Node) : Option String :=
  match n.kind with
  | .command _ text => some text
  | _ => none

/-- Bars in a pattern and in a value, and a bar behind a second blank. -/
theorem readWith_highlights_patterns :
    let s := Source.ofLines ["syn match Foo /a|b/ contains=A|/  | echo 1"]
    ∃ root j n k, (readWith false [] s).1 = .ok root j ∧ root.Occurs [root] n ∧ n.form? = some .highlighting ∧
      commandText? n = some "syn match Foo /a|b/ contains=A|/  " ∧ HighlightsUpTo s.behind s n k := by
  intro s
  have kept : (readWith false [] s).1.passes (fun root => root.children.any fun n => n.form? == some .highlighting &&
      commandText? n == some "syn match Foo /a|b/ contains=A|/  ") = true := by
    have laid : s = .ofChars (List.map charsOf _) := congrFun Source.ofLines_eq_ofChars _
    rw [readWith_eq_byInitial, laid]
    decide +kernel
  obtain ⟨root, j, ok, found⟩ := Reply.exists_of_passes _ kept
  obtain ⟨n, below, found⟩ := List.any_eq_true.mp found
  simp only [Bool.and_eq_true, beq_iff_eq] at found
  obtain ⟨form, text⟩ := found
  obtain ⟨k, upTo, -⟩ := (readWith_highlights false [] s).2 root j _ n ok (.child .root below) form
  exact ⟨root, j, n, k, ok, .child .root below, form, text, upTo⟩

/-- A bar right behind a pattern ends nothing. -/
theorem not_forall_highlightsUpTo :
    ¬∀ (lines : List String) (root : Node) (j : Nat) (above : List Node) (n : Node),
      ofLines false lines = .ok root j → root.Occurs above n → n.form? = some .highlighting →
        ∃ k, HighlightsUpTo id (.ofLines lines) n k := by
  intro all
  let s : Source := .ofLines ["syntax match Foo /a/|echo 1"]
  have kept : (ofLines false ["syntax match Foo /a/|echo 1"]).passes
      (fun root => root.children.any fun n => n.form? == some .highlighting &&
        commandText? n == some "syntax match Foo /a/|echo 1" &&
        n.invocation?.any fun inv => inv.linePos.cursor == 0 && inv.argumentPos.cursor == 7) = true := by
    rw [ofLines_eq_byInitial]
    decide +kernel
  obtain ⟨root, j, ok, found⟩ := Reply.exists_of_passes _ kept
  obtain ⟨n, below, found⟩ := List.any_eq_true.mp found
  simp only [Bool.and_eq_true, beq_iff_eq] at found
  obtain ⟨⟨form, text⟩, places⟩ := found
  obtain ⟨k, upTo⟩ := all _ root j _ n ok (.child .root below) form
  cases upTo with
  | @intro inv k first =>
    obtain ⟨start, argument⟩ : inv.linePos.cursor = 0 ∧ inv.argumentPos.cursor = 7 := by
      simpa [Node.command, Node.invocation?, Kind.invocation?] using places
    -- The bar is the character behind the pattern.
    have plain : ∀ k < 10, ((s.char? (7 + k)).any fun c => c != '\n' && (closing? c).isNone) = true := by decide +kernel
    have unit : IsUnit s 17 20 := ⟨'/', '/', ("a", some '/'), by decide +kernel, rfl, by decide +kernel⟩
    have outside : Outside id s 7 20 := by
      refine .tail (Outside.characters (by decide) fun k later less => ?_) (.unit unit)
      have inside := plain (k - 7) (by omega)
      rwa [Nat.add_sub_cancel' later] at inside
    have bar : EndsHighlighting s 20 := .inr (.inr (by decide +kernel))
    have le : k ≤ 20 := first.2 ⟨argument ▸ outside, bar⟩
    have kept : s.text 0 (0 + k) = "syntax match Foo /a/|echo 1" := by
      simpa [commandText?, Node.command, start] using text
    have count := congrArg (fun text : String => text.toList.length) kept
    rw [Source.text, Source.between_add, String.toList_ofList, List.length_take] at count
    have long : "syntax match Foo /a/|echo 1".toList.length = 27 := by decide
    omega

end Script

end VimScript
