import VimScript.Proofs.Script.Order
import VimScript.Proofs.Statement.Reports

/-!
Positions of a script. All that a tree or a fault shows of positions is what the buffer has at their cursors, and a
command stands between the start of its line and its argument.
-/

set_option autoImplicit false

namespace VimScript

/-- A position of the buffer, or one that was never set. -/
def Position.IsOfOrUnset (s : Source) (p : Position) : Prop :=
  p = .unset ∨ p.IsOf s

/-- The positions of a node and of its command are those of the buffer, and the node stands where its command does. -/
structure Node.Coherent (s : Source) (n : Node) : Prop where
  position : n.position.IsOfOrUnset s
  invocation : ∀ inv, n.invocation? = some inv →
    inv.linePos.IsOfOrUnset s ∧ inv.commandPos.IsOfOrUnset s ∧ inv.argumentPos.IsOfOrUnset s
  headed : n.label.Headed

/-- A tree whose nodes below the root are coherent, or a fault at a position of the buffer. -/
inductive Reply.Coherent (s : Source) : Reply Node → Prop where
  | tree {root : Node} {j : Nat}
      (below : ∀ above n, root.Occurs above n → above ≠ [] → n.Coherent s) : Coherent s (.ok root j)
  | fault {e : Fault} {j : Nat} (position : e.position.IsOf s) : Coherent s (.fail e j)

/-- Moves a position to the buffer, unless it was never set. -/
def Source.settleSet (s : Source) (p : Position) : Position :=
  if p = .unset then .unset else s.settle p

theorem Source.settleSet_position {s : Source} {i : Nat} (bound : i ≤ s.size) :
    s.settleSet (s.position i) = s.position i := by
  unfold settleSet
  split
  · rename_i unset
    exact unset.symm
  · exact settle_position bound

theorem Position.isOfOrUnset_of_settleSet {s : Source} {p : Position} (settled : s.settleSet p = p) :
    p.IsOfOrUnset s := by
  unfold Source.settleSet at settled
  split at settled
  · exact .inl settled.symm
  · exact .inr (isOf_of_settle settled)

namespace Script

open Overlap
open Statement (UserNames)

variable {neovim : Bool} {s : Source} {known names : UserNames} {blocks : Blocks} {edits : List Edit} {i j : Nat}
  {root : Node}

/-! ### Places -/

/-- A run is the same beside itself, and so a tree is seen as it is where positions are moved to the buffer. -/
theorem readWith_seen (neovim : Bool) (known : UserNames) (s : Source) :
    (∃ root j, (readWith neovim known s).1 = .ok root j ∧ ∀ c ∈ root.children, c.seen (.through s.settleSet) = c) ∨
      ∃ e j, (readWith neovim known s).1 = .fail e j := by
  let w := mirror s s.settleSet fun _ => Source.settleSet_position
  have unset : w.SamePosition .unset .unset := (if_pos rfl : s.settleSet .unset = .unset).symm
  have starts : Reaches neovim s known [] known (.start (s.position 0)) 0 := .start
  have records : w.Records known known := .inl rfl
  have length : w.text.length = s.size := length_whole s
  have alike : w.AlikeBlocks [] (.start (s.position 0)) (.start (s.position 0)) := by
    have first : s.settleSet (s.position 0) = s.position 0 := Source.settleSet_position (Nat.zero_le _)
    show (Blocks.mk [Node.mk _ _]) = Blocks.mk [Node.mk (s.settleSet (s.position 0)) _]
    rw [first]
    rfl
  have concur := statements_concur (w := w) (p := 0) neovim ⟨rfl, rfl⟩ ⟨rfl, rfl⟩ unset (s.size + 2) (s.size + 2) starts.stands
    starts.stands alike records (Nat.zero_le _) (by omega) (by omega)
  change w.Concurs _ (readWith neovim known s).1 (readWith neovim known s).1 at concur
  cases run : (readWith neovim known s).1 with
  | ok root j =>
    rw [run] at concur
    -- Only the contents of the roots are compared: a script stands where it starts.
    refine .inl ⟨root, j, rfl, ?_⟩
    have kinds : root.kind.seenOver ⟨id, id⟩ [] = root.kind.seenOver (.through s.settleSet) [] := concur
    rw [Kind.seenOver, Kind.seenOver, Kind.onto_nil] at kinds
    exact Kind.seen_children (kinds.symm.trans (Node.kind_of_seen root.seen_id))
  | fail e j => exact .inr ⟨e, j, rfl⟩
  | spent =>
    rw [run] at concur
    exact concur.elim

/-! ### Heads -/

/-- All commands in a tree stand where they have to. -/
theorem readWith_headed (ok : (readWith neovim known s).1 = .ok root j) : ∀ label ∈ root.labels, label.Headed :=
  readWith_labels (fun label unnamed inv known => by simp [unnamed] at known)
    (fun _ _ _ _ _ _ reached read e now => ((Statement.read_gives reached.bound).of_ok read).2 e now) ok

/-! ### Faults -/

theorem readWith_reports {e : Fault} (fault : (readWith neovim known s).1 = .fail e j) : e.position.IsOf s := by
  obtain ⟨edits, names, blocks, i, reached, ends⟩ := readWith_ends neovim known s
  rw [fault] at ends
  generalize reply : (Reply.fail e j : Reply Node) = r at ends
  cases ends with
  | finish last =>
    rcases finish_of_stands (s := s) (i := i) reached.stands with ⟨missing, -, failed⟩ | ⟨n, -, -, -, ok⟩
    · rw [failed] at reply
      obtain ⟨rfl, -⟩ := Reply.fail.inj reply
      exact Source.position_isOf reached.bound
    · rw [ok] at reply
      simp at reply
  | fault more read =>
    obtain ⟨rfl, rfl⟩ := Reply.fail.inj reply
    exact Statement.read_reports reached.bound _ _ read
  | spent => simp at reply

/-- Whatever the script, read or not: its positions are those of the buffer. -/
theorem readWith_coherent (neovim : Bool) (known : UserNames) (s : Source) :
    Reply.Coherent s (readWith neovim known s).1 := by
  rcases readWith_seen neovim known s with ⟨root, j, ok, below⟩ | ⟨e, j, fault⟩
  · rw [ok]
    refine .tree fun above n place inner => ?_
    have same := place.seen below inner
    refine ⟨?_, fun inv known => ?_, readWith_headed ok _ (place.labels n.label_mem_labels)⟩
    · exact Position.isOfOrUnset_of_settleSet ((Node.position_seen _ n).symm.trans (congrArg Node.position same))
    · have placed := Node.placed_of_seen same known
      exact ⟨Position.isOfOrUnset_of_settleSet (congrArg Invocation.linePos placed),
        Position.isOfOrUnset_of_settleSet (congrArg Invocation.commandPos placed),
        Position.isOfOrUnset_of_settleSet (congrArg Invocation.argumentPos placed)⟩
  · rw [fault]
    exact .fault (readWith_reports fault)

end Script

end VimScript
