import VimScript.Proofs.Overlap.Run
import VimScript.Proofs.Source.Joined

/-!
Line continuation. A script is read by its characters alone, and a line that is split in two by a continuation mark
leaves the characters of the buffer as they were. What changes is where they are: the lines, columns and offsets of
positions.
-/

set_option autoImplicit false

namespace VimScript

/-- Positions are seen by their cursors alone. -/
def Sight.cursors : Sight where
  position p := ⟨p.cursor, 0, 0, 0⟩
  invocation := .placed fun p => ⟨p.cursor, 0, 0, 0⟩

/-- Two replies that look the same: a tree and a tree, or a fault and a fault. -/
inductive Reply.Alike (v : Sight) : Reply Node → Reply Node → Prop where
  | tree {n m : Node} {i j : Nat} (seen : n.seen v = m.seen v) : Alike v (.ok n i) (.ok m j)
  | fault {e e' : Fault} {i j : Nat} (cause : e.cause = e'.cause)
      (position : v.position e.position = v.position e'.position) : Alike v (.fail e i) (.fail e' j)

namespace Overlap

variable {s t : Source}

/-- Two buffers of the same characters, seen without the places of these. -/
def sameChars (chars : s.chars = t.chars) : Overlap s t where
  text := s.chars.toList
  left := 0
  right := 0
  leftRest := []
  rightRest := []
  leftAhead := (whole s).leftAhead
  rightAhead := by
    rw [chars]
    exact (whole t).rightAhead
  leftBound := (whole s).leftBound
  rightBound := (whole t).rightBound
  closed := (whole s).closed
  leftSight := .cursors
  rightSight := .cursors
  places _ _ := rfl
  invocations _ _ same := same

end Overlap

namespace Script

open Overlap
open Statement (UserNames)

variable {neovim : Bool} {known : UserNames} {s t : Source}

/-- Runs that concur leave scripts that look the same, or faults that do. -/
theorem alike_of_concurs {w : Overlap s t} {v : Sight} (left : w.leftSight = v) (right : w.rightSight = v)
    (concur : w.Concurs (fun n m => n.kind.seenOver w.leftSight [] = m.kind.seenOver w.rightSight [])
      (readWith neovim known s).1 (readWith neovim known t).1) :
    Reply.Alike v (readWith neovim known s).1 (readWith neovim known t).1 := by
  subst left
  cases run : (readWith neovim known s).1 <;> cases run' : (readWith neovim known t).1 <;> rw [run, run'] at concur
  case ok.ok n i m j =>
    obtain ⟨_, _, _, _, root, _, _, _, _, _, rfl⟩ := readWith_ok run
    obtain ⟨_, _, _, _, root', _, _, _, _, _, rfl⟩ := readWith_ok run'
    have same : (Node.mk .origin root.kind).seenOver w.leftSight [] = (Node.mk .origin root'.kind).seenOver w.leftSight [] := by
      rw [right] at concur
      exact congrArg (Node.mk _) concur
    rw [Node.seenOver_nil, Node.seenOver_nil] at same
    exact .tree same
  case fail.fail e i e' j =>
    obtain ⟨cause, position⟩ := concur
    rw [SamePosition, right] at position
    exact .fault cause position
  all_goals exact concur.elim

/-- No decision is made on lines, columns and offsets. -/
theorem readWith_alike (neovim : Bool) (known : UserNames) (chars : s.chars = t.chars) :
    Reply.Alike .cursors (readWith neovim known s).1 (readWith neovim known t).1 := by
  let w := sameChars chars
  have size : t.size = s.size := by rw [Source.size, Source.size, chars]
  have length : w.text.length = s.size := Array.length_toList
  have starts : Reaches neovim s known [] known (.start (s.position 0)) 0 := .start
  have starts' : Reaches neovim t known [] known (.start (t.position 0)) 0 := .start
  have records : w.Records known known := .inl rfl
  have alike : w.AlikeBlocks [] (.start (s.position 0)) (.start (t.position 0)) := rfl
  have concur := statements_concur (w := w) (p := 0) neovim ⟨rfl, rfl⟩ ⟨rfl, rfl⟩ rfl (s.size + 2) (t.size + 2) starts.stands
    starts'.stands alike records (Nat.zero_le _) (by omega) (by omega)
  exact alike_of_concurs (w := w) rfl rfl concur

/-- A line may be continued from any place after its first word on: the script is read as before, up to the lines,
columns and offsets of positions. -/
theorem readWith_split_line (neovim : Bool) (known : UserNames) (before after : List String) (a b blanks : String)
    (solid : ∃ c ∈ a.toList, isAsciiSpace c = false) (blank : ∀ c ∈ blanks.toList, c = ' ' ∨ c = '\t') :
    Reply.Alike .cursors (readWith neovim known (.ofLines (before ++ (a ++ b) :: after))).1
      (readWith neovim known (.ofLines (before ++ a :: (blanks ++ "\\" ++ b) :: after))).1 := by
  have spaces : ∀ c ∈ blanks.toList, isAsciiSpace c = true := by
    intro c place
    rcases blank c place with rfl | rfl <;> decide
  apply readWith_alike
  apply Array.toList_inj.mp
  have split := Source.joined_split solid spaces b.toList (before.map String.toList) (after.map String.toList)
  rw [Source.ofLines, Source.ofLines, Source.chars_ofChars, Source.chars_ofChars]
  simpa using split.symm

/-- A continuation line is split as well, in a heredoc that is assigned to a name. -/
theorem readWith_split_line_continued :
    (∃ c ∈ "  \\ =<< E".toList, isAsciiSpace c = false) ∧ (∀ c ∈ " \t".toList, c = ' ' ∨ c = '\t') ∧
      Reply.Alike .cursors (readWith false [] (.ofLines (["let x"] ++ ("  \\ =<< E" ++ "ND") :: ["text", "END"]))).1
        (readWith false [] (.ofLines (["let x"] ++ "  \\ =<< E" :: (" \t" ++ "\\" ++ "ND") :: ["text", "END"]))).1 := by
  have solid : ∃ c ∈ "  \\ =<< E".toList, isAsciiSpace c = false := ⟨'E', by decide, by decide⟩
  have blank : ∀ c ∈ " \t".toList, c = ' ' ∨ c = '\t' := by simp
  exact ⟨solid, blank, readWith_split_line false [] ["let x"] ["text", "END"] "  \\ =<< E" "ND" " \t" solid blank⟩

end Script

end VimScript
