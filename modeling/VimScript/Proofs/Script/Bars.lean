import VimScript.Proofs.Overlap.Mirror
import VimScript.Proofs.Script.Continuation
import VimScript.Proofs.Script.Initials
import VimScript.Proofs.Script.Structure
import VimScript.Proofs.Statement.Bare

/-!
Bars between commands. After a command of a block that stands alone on its line the next line may as well follow a bar:
the script is read as before, up to positions. The end of a function is the exception, since it takes its whole line.
-/

set_option autoImplicit false

namespace VimScript

/-- Nothing is seen of positions. -/
def Sight.unplaced : Sight :=
  .through fun _ => .unset

namespace SharedText

variable {s t : Source} {text rest rest' before before' : List Char}

def unplaced (w : SharedText s t) : Overlap s t :=
  w.seen .unplaced .unplaced (fun _ _ => rfl) fun _ _ same => same

theorem not_blind_unplaced (w : SharedText s t) : ¬w.unplaced.Blind := by
  intro blind
  have bang : false = true := congrArg Invocation.bang (blind.invocation {} { bang := true })
  exact absurd bang (by decide)

/-- A text that stands after a text of its own in either buffer. -/
def amid (left : s.chars.toList = before ++ (text ++ rest)) (right : t.chars.toList = before' ++ (text ++ rest'))
    (closed : rest = [] ∧ rest' = [] ∨ ∃ lines, text = lines ++ ['\n']) : SharedText s t where
  text := text
  left := before.length
  right := before'.length
  leftRest := rest
  rightRest := rest'
  leftAhead := by simp [Source.ahead, left]
  rightAhead := by simp [Source.ahead, right]
  leftBound := by
    rw [Source.size, ← Array.length_toList, left, List.length_append]
    exact Nat.le_add_right ..
  rightBound := by
    rw [Source.size, ← Array.length_toList, right, List.length_append]
    exact Nat.le_add_right ..
  closed := closed

end SharedText

namespace Source

variable {x y : List Char}

theorem joined_line (first : opensAsContinuation x = false) (second : opensAsContinuation y = false)
    (before after : List (List Char)) :
    joined (before ++ x :: y :: after) = joined before ++ (x ++ '\n' :: joined (y :: after)) := by
  rw [joined_append (by simpa using first), joined, joinedAfter, second]
  rfl

theorem joined_bar (solid : ∃ c ∈ x, isAsciiSpace c = false) (first : opensAsContinuation x = false)
    (before after : List (List Char)) :
    joined (before ++ (x ++ ' ' :: '|' :: ' ' :: y) :: after) =
      joined before ++ (x ++ ' ' :: '|' :: ' ' :: joined (y :: after)) := by
  have whole := (opensAsContinuation_append solid (' ' :: '|' :: ' ' :: y)).trans first
  rw [joined_append (by simpa using whole), joined, joined]
  simp

end Source

namespace BareCommand

variable {neovim : Bool} (x : BareCommand neovim)

theorem solid : ∃ c ∈ x.text, isAsciiSpace c = false := by
  obtain ⟨w, rest, same, letter, -⟩ := x.plain.2.cons
  refine ⟨w, by simp [text, same], ?_⟩
  exact CharClass.forall_of_table (p := fun c => isAsciiSpace c = false) (by decide) letter

/-- A line with a bare command on it does not continue another. -/
theorem opensAsContinuation_text : opensAsContinuation x.text = false := by
  have plain : ∀ c ∈ x.text, c ≠ '\\' := by
    rintro _ place rfl
    rw [text, List.mem_append, List.mem_append] at place
    rcases place with lead | name | blank
    · rcases x.opens _ lead with white | colon
      · exact absurd white (by decide)
      · exact absurd colon (by decide)
    · exact absurd (x.plain.2.letters _ name) (by decide)
    · exact absurd (x.ends _ blank) (by decide)
  rw [opensAsContinuation, beq_eq_false_iff_ne]
  intro opens
  exact plain _ ((List.dropWhile_sublist _).mem (List.mem_of_head? opens)) rfl

end BareCommand

namespace Statement

open Overlap

/-- Bare commands hand over the same, up to positions. -/
theorem bareEdit_seen {inv inv' : Invocation} (same : inv.placed (fun _ => .unset) = inv'.placed fun _ => .unset)
    (form : CommandForm) : (bareEdit inv form).seen .unplaced = (bareEdit inv' form).seen .unplaced := by
  have seen : Sight.unplaced.invocation inv = Sight.unplaced.invocation inv' := same
  have places : Sight.unplaced.position inv.commandPos = Sight.unplaced.position inv'.commandPos := rfl
  unfold bareEdit
  split <;> simp only [Edit.seen, Node.seen_mk, Kind.map, Kind.mapInvocation, seen, places]

end Statement

namespace Script

open Overlap
open Statement (UserNames bareEdit)

variable {neovim : Bool} {known names : UserNames} {s t : Source} {edits edits' : List Edit} {b c : Blocks} {i j : Nat}
  {root : Node} {text rest rest' front front' after : List Char}

/-- A statement of the script starts at the cursor. -/
def Starts (neovim : Bool) (s : Source) (i : Nat) : Prop :=
  ∃ edits names blocks, Reaches neovim s [] edits names blocks i

/-- Buffers that open with the same lines are read in the same way up to there. -/
theorem Reaches.shares (left : s.chars.toList = text ++ rest) (right : t.chars.toList = text ++ rest')
    (closed : text = [] ∨ ∃ lines, text = lines ++ ['\n']) (goes : rest ≠ [])
    (h : Reaches neovim s known edits names b text.length) :
    ∃ edits' c, Reaches neovim t known edits' names c text.length ∧ b.seenOver .unplaced [] = c.seenOver .unplaced [] := by
  rcases closed with rfl | closed
  -- An empty text does not end with a line, but no statement has been read there.
  · generalize place : ([] : List Char).length = k at h
    cases h with
    | start => exact ⟨[], _, .start, rfl⟩
    | step before more read =>
      have moved := (Statement.read_moves more read).1
      rw [List.length_nil] at place
      omega
  · have left' : s.chars.toList = [] ++ (text ++ rest) := left
    have right' : t.chars.toList = [] ++ (text ++ rest') := right
    let w := (SharedText.amid left' right' (.inr closed)).unplaced
    obtain ⟨edits', names', c, reached, alike, records⟩ :=
      h.follows (w := w) rfl rfl rfl rfl (.inr ⟨goes, Nat.le_refl _⟩)
    obtain rfl := records.resolve_right (SharedText.not_blind_unplaced _)
    exact ⟨edits', c, reached, alike⟩

/-- In a script that is read, so is each of its statements. -/
theorem Reaches.read_of_ok (h : Reaches neovim s known edits names b i) (more : i < s.size)
    (ok : (readWith neovim known s).1 = .ok root j) :
    ∃ effect k, Statement.read ⟨neovim, names, b⟩ s i = .ok effect k := by
  obtain ⟨n, enough, goes⟩ := h.readWith_eq
  -- A run whose bound is spent here would not have come to a script.
  obtain ⟨n, rfl⟩ : ∃ m, n = m + 1 := by
    cases n with
    | zero => rw [goes] at ok; cases ok
    | succ n => exact ⟨n, rfl⟩
  rw [goes, statements, if_neg (by omega)] at ok
  cases read : Statement.read ⟨neovim, names, b⟩ s i with
  | ok effect k => exact ⟨effect, k, rfl⟩
  | fail e k => rw [read] at ok; cases ok
  | spent => rw [read] at ok; cases ok

theorem statements_of_read_eq (left : i < s.size) (right : j < s.size)
    (same : Statement.read ⟨neovim, names, b⟩ s i = Statement.read ⟨neovim, names, b⟩ s j) (n : Nat) :
    statements neovim s n names b i = statements neovim s n names b j := by
  cases n with
  | zero => rfl
  | succ n => rw [statements, statements, if_neg (by omega), if_neg (by omega), same]

/-- The line after `x` may follow it on the same line after a bar. -/
def BarSeparates (neovim : Bool) (before : List String) (x y : String) (after : List String) : Prop :=
  ∀ root i, ofLines neovim (before ++ x :: y :: after) = .ok root i →
    ∃ root' j, ofLines neovim (before ++ (x ++ " | " ++ y) :: after) = .ok root' j ∧
      root.seen .unplaced = root'.seen .unplaced

/-- From open blocks that look the same runs end alike, where what is left is the same but for a blank. -/
theorem alike_of_rest (left : s.chars.toList = front ++ after) (right : t.chars.toList = front' ++ ' ' :: after)
    (some : after ≠ []) (noShebang : ¬['#', '!'] <+: after) (h : Reaches neovim s known edits names b front.length)
    (h' : Reaches neovim t known edits' names c front'.length) (alike : b.seenOver .unplaced [] = c.seenOver .unplaced []) :
    Reply.Alike .unplaced (readWith neovim known s).1 (readWith neovim known t).1 := by
  have alone : s.chars.toList = front ++ (after ++ []) := by simpa using left
  have past : t.chars.toList = (front' ++ [' ']) ++ (after ++ []) := by simpa using right
  let w := (SharedText.amid alone past (.inl ⟨rfl, rfl⟩)).unplaced
  have rest : 0 < w.text.length := List.length_pos_iff.mpr some
  have size : s.size = front.length + w.text.length := SharedText.leftSize (w := w.toSharedText) rfl
  have size' : t.size = (front' ++ [' ']).length + w.text.length := SharedText.rightSize (w := w.toSharedText) ⟨rfl, rfl⟩
  rw [List.length_append, List.length_singleton] at size'
  obtain ⟨n, enough, goes⟩ := h.readWith_eq
  obtain ⟨m, enough', goes'⟩ := h'.readWith_eq
  -- The second run stands before the blank and goes on as from behind it.
  have blank : t.ahead front'.length = [' '] ++ after := by simp [Source.ahead, right]
  have opens : ∀ c ∈ [' '], CharClass.white.has c = true ∨ c = ':' := List.forall_mem_singleton.mpr (.inl rfl)
  have skip := Statement.read_skip ⟨neovim, names, c⟩ opens blank noShebang
  rw [List.length_singleton] at skip
  rw [statements_of_read_eq (by omega) (by omega) skip] at goes'
  have records : w.Records names names := .inl rfl
  have concur := statements_concur (w := w) (p := 0) neovim ⟨rfl, rfl⟩ ⟨rfl, rfl⟩ rfl n m h.stands h'.stands alike records
    (Nat.zero_le _) (by omega) (by omega)
  have here : w.left + 0 = front.length := rfl
  have there : w.right + 0 = front'.length + 1 := List.length_append
  rw [here, there] at concur
  apply alike_of_concurs (w := w) rfl rfl
  rw [goes, goes']
  exact concur

/-- The line after a bare command may as well follow a bar. -/
theorem readWith_bar {x : BareCommand neovim} (other : x.command.form ≠ .closer .function)
    (left : s.chars.toList = front ++ (x.text ++ '\n' :: after))
    (right : t.chars.toList = front ++ (x.text ++ ' ' :: '|' :: ' ' :: after))
    (closed : front = [] ∨ ∃ lines, front = lines ++ ['\n']) (some : after ≠ []) (noShebang : ¬['#', '!'] <+: after)
    (starts : Starts neovim s front.length) (ok : (readWith neovim [] s).1 = .ok root i) :
    Reply.Alike .unplaced (readWith neovim [] s).1 (readWith neovim [] t).1 := by
  obtain ⟨edits, names, b, reached⟩ := starts
  -- Up to the line both runs read the same text; the line hands over the same; what is left is the same text again.
  obtain ⟨edits', c, reached', alike⟩ := reached.shares left right closed (by simp)
  have ahead : s.ahead front.length = x.text ++ '\n' :: after := by simp [Source.ahead, left]
  have ahead' : t.ahead front.length = x.text ++ ' ' :: '|' :: ' ' :: after := by simp [Source.ahead, right]
  have size : s.size = front.length + (x.text.length + (after.length + 1)) := by
    rw [Source.size, ← Array.length_toList, left, List.length_append, List.length_append, List.length_cons]
  have size' : t.size = front.length + (x.text.length + (after.length + 3)) := by
    rw [Source.size, ← Array.length_toList, right]
    simp only [List.length_append, List.length_cons]
  obtain ⟨effect, j, read⟩ := reached.read_of_ok (by omega) ok
  obtain ⟨inv, inv', placed, rfl, rfl, read'⟩ := x.read_bar other (sameTypes_of_seenOver alike) ahead ahead' read
  have grown : (b.editAll [bareEdit inv x.command.form]).seenOver .unplaced [] =
      (c.editAll [bareEdit inv' x.command.form]).seenOver .unplaced [] := by
    have admitted := (Statement.read_delivers _).of_ok read
    have admitted' := (Statement.read_delivers _).of_ok read'
    rw [Blocks.editAll_seenOver _ _ reached.stands admitted, Blocks.editAll_seenOver _ _ reached'.stands admitted', alike,
      List.map_singleton, List.map_singleton, Statement.bareEdit_seen placed]
  have next := reached.step (by omega) read
  have next' := reached'.step (by omega) read'
  have line : (front ++ (x.text ++ ['\n'])).length = front.length + x.text.length + 1 := by simp [Nat.add_assoc]
  have bar : (front ++ (x.text ++ [' ', '|'])).length = front.length + x.text.length + 2 := by simp [Nat.add_assoc]
  rw [← line] at next
  rw [← bar] at next'
  exact alike_of_rest (by simp [left]) (by simp [right]) some noShebang next next' grown

/-- After a bare command other than the end of a function a bar separates commands as the end of the line does. -/
theorem barSeparates_of_bare (neovim : Bool) (before after : List String) (x : BareCommand neovim) (y : String)
    (other : x.command.form ≠ .closer .function)
    (starts : Starts neovim (.ofLines (before ++ x.line :: y :: after)) (Source.joined (before.map String.toList)).length)
    (whole : opensAsContinuation y.toList = false)
    (noShebang : ¬['#', '!'] <+: Source.joined ((y :: after).map String.toList)) :
    BarSeparates neovim before x.line y after := by
  intro root i ok
  have text : x.line.toList = x.text := String.toList_ofList
  have left := Source.joined_line x.opensAsContinuation_text whole (before.map String.toList) (after.map String.toList)
  have right := Source.joined_bar (y := y.toList) x.solid x.opensAsContinuation_text (before.map String.toList)
    (after.map String.toList)
  have closed : Source.joined (before.map String.toList) = [] ∨
      ∃ lines, Source.joined (before.map String.toList) = lines ++ ['\n'] := by
    by_cases none : before = []
    · exact .inl (by simp [none, Source.joined])
    · exact .inr (Source.joined_closed (by simpa using none))
  have some : Source.joined ((y :: after).map String.toList) ≠ [] := by
    obtain ⟨lines, same⟩ := Source.joined_closed (List.cons_ne_nil y.toList (after.map String.toList))
    rw [List.map_cons, same]
    simp
  have chars : (Source.ofLines (before ++ x.line :: y :: after)).chars.toList =
      Source.joined (before.map String.toList) ++ (x.text ++ '\n' :: Source.joined ((y :: after).map String.toList)) := by
    rw [Source.ofLines, Source.chars_ofChars]
    simpa [text] using left
  have chars' : (Source.ofLines (before ++ (x.line ++ " | " ++ y) :: after)).chars.toList =
      Source.joined (before.map String.toList) ++
        (x.text ++ ' ' :: '|' :: ' ' :: Source.joined ((y :: after).map String.toList)) := by
    rw [Source.ofLines, Source.chars_ofChars]
    simpa [text] using right
  have alike := readWith_bar other chars chars' closed some noShebang starts ok
  change Reply.Alike .unplaced (ofLines neovim (before ++ x.line :: y :: after)) (ofLines neovim _) at alike
  rw [ok] at alike
  generalize ofLines neovim (before ++ (x.line ++ " | " ++ y) :: after) = reply at alike
  cases alike with
  | tree seen => exact ⟨_, _, rfl, seen⟩

/-- After the first statement of a script the next one starts. -/
theorem starts_of_tells (more : 0 < s.size)
    (tells : ((do
      let _ ← Statement.readByInitial ⟨neovim, [], .start (s.position 0)⟩
      Scan.tell : Scan Nat) s 0).passes (· == i) = true) : Starts neovim s i := by
  rw [← Statement.read_eq_byInitial] at tells
  obtain ⟨k, l, told, same⟩ := Reply.exists_of_passes _ tells
  obtain ⟨effect, j, read, here⟩ := Scan.bind_ok.mp told
  obtain ⟨rfl, -⟩ := Reply.ok.inj here
  obtain rfl : j = i := by simpa using same
  exact ⟨_, _, _, .step .start more read⟩

def shortElse : BareCommand false where
  lead := ['\t', ':']
  name := ['e', 'l']
  blanks := [' ']
  command := ⟨"else", 2, [.trlbar, .sboxok, .cmdwin], .elseBranch⟩
  opens := List.forall_mem_cons.mpr ⟨.inl rfl, List.forall_mem_singleton.mpr (.inr rfl)⟩
  ends := List.forall_mem_singleton.mpr rfl
  found := by
    rw [Command.lookup_eq_byInitial]
    decide +kernel
  bare := rfl

/-- Lines that a command of another line takes are taken as well when it follows a bar. -/
theorem barSeparates_else :
    shortElse.command.form ≠ .closer .function ∧
      Starts false (.ofLines (["if 1"] ++ shortElse.line :: "append" :: ["endif", ".", "endif"]))
        (Source.joined (["if 1"].map String.toList)).length ∧
      opensAsContinuation "append".toList = false ∧
      ¬['#', '!'] <+: Source.joined (("append" :: ["endif", ".", "endif"]).map String.toList) ∧
      ∃ root i root' j,
        ofLines false (["if 1"] ++ shortElse.line :: "append" :: ["endif", ".", "endif"]) = .ok root i ∧
        ofLines false (["if 1"] ++ (shortElse.line ++ " | " ++ "append") :: ["endif", ".", "endif"]) = .ok root' j ∧
        root.seen .unplaced = root'.seen .unplaced := by
  have other : shortElse.command.form ≠ .closer .function := by decide
  have starts : Starts false (.ofLines (["if 1"] ++ shortElse.line :: "append" :: ["endif", ".", "endif"]))
      (Source.joined (["if 1"].map String.toList)).length := starts_of_tells (by decide +kernel) (by decide +kernel)
  have whole : opensAsContinuation "append".toList = false := by decide +kernel
  have noShebang : ¬['#', '!'] <+: Source.joined (("append" :: ["endif", ".", "endif"]).map String.toList) := by
    decide +kernel
  have taken : (ofLines false (["if 1"] ++ shortElse.line :: "append" :: ["endif", ".", "endif"])).passes
      (fun _ => true) = true := by
    rw [ofLines_eq_byInitial]
    decide +kernel
  obtain ⟨root, i, ok, -⟩ := Reply.exists_of_passes _ taken
  obtain ⟨root', j, ok', same⟩ :=
    barSeparates_of_bare false ["if 1"] ["endif", ".", "endif"] shortElse "append" other starts whole noShebang root i ok
  exact ⟨other, starts, whole, noShebang, root, i, root', j, ok, ok', same⟩

def endFunction : BareCommand false where
  lead := []
  name := "endfunction".toList
  blanks := []
  command := ⟨"endfunction", 4, [.trlbar, .cmdwin], .closer .function⟩
  opens := by simp
  ends := by simp
  found := by
    rw [Command.lookup_eq_byInitial]
    decide +kernel
  bare := rfl

/-- What follows the bar after the end of a function is lost. -/
theorem not_forall_barSeparates :
    ¬∀ (neovim : Bool) (before after : List String) (x : BareCommand neovim) (y : String),
      Starts neovim (.ofLines (before ++ x.line :: y :: after)) (Source.joined (before.map String.toList)).length →
        opensAsContinuation y.toList = false →
          ¬['#', '!'] <+: Source.joined ((y :: after).map String.toList) → BarSeparates neovim before x.line y after := by
  intro all
  have starts : Starts false (.ofLines (["function F()"] ++ endFunction.line :: "echo 1" :: []))
      (Source.joined (["function F()"].map String.toList)).length := starts_of_tells (by decide +kernel) (by decide +kernel)
  have taken : (ofLines false (["function F()"] ++ endFunction.line :: "echo 1" :: [])).passes
      (fun root => root.children.length == 2) = true := by
    rw [ofLines_eq_byInitial]
    decide +kernel
  have taken' : (ofLines false (["function F()"] ++ (endFunction.line ++ " | " ++ "echo 1") :: [])).passes
      (fun root => root.children.length == 1) = true := by
    rw [ofLines_eq_byInitial]
    decide +kernel
  obtain ⟨root, i, ok, two⟩ := Reply.exists_of_passes _ taken
  obtain ⟨root', j, ok', one⟩ := Reply.exists_of_passes _ taken'
  obtain ⟨found, k, read, same⟩ := all false ["function F()"] [] endFunction "echo 1" starts (by decide +kernel)
    (by decide +kernel) root i ok
  obtain ⟨rfl, rfl⟩ := Reply.ok.inj (ok'.symm.trans read)
  have counts := congrArg (fun n : Node => n.children.length) same
  simp only [beq_iff_eq, Node.children_seen, List.length_map] at one two counts
  omega

end Script

end VimScript
