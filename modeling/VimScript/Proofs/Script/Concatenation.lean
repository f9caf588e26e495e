import VimScript.Proofs.Overlap.Run
import VimScript.Proofs.Script.Initials
import VimScript.Proofs.Script.Structure
import VimScript.Proofs.Source.Joined
import VimScript.Proofs.Tree.Fingerprint

/-!
Scripts one after the other. Nothing of a script but its user commands is left when its last line has been read, and
these leave no trace in what is printed. So the lines of two scripts are read as the two scripts are, unless a line is
continued across the cut or a command of the first script may go on past it.
-/

set_option autoImplicit false

namespace VimScript

namespace Node

variable {n m : Node} {above : List Node}

theorem Occurs.lift {root : Node} (place : n.Occurs above m) (child : n ∈ root.children) :
    root.Occurs (above ++ [root]) m := by
  induction place with
  | root => exact .child .root child
  | child _ inside ih => exact ih.child inside

/-- A label is that of a node in the tree. -/
theorem occurs_of_mem_labels {label : Label} (n : Node) (place : label ∈ n.labels) :
    ∃ above m, n.Occurs above m ∧ m.label = label := by
  rw [labels_eq] at place
  rcases List.mem_cons.mp place with rfl | below
  · exact ⟨[], n, .root, rfl⟩
  · obtain ⟨c, child, inside⟩ := List.mem_flatMap.mp below
    obtain ⟨above, m, occurs, same⟩ := occurs_of_mem_labels c inside
    exact ⟨above ++ [n], m, occurs.lift child, same⟩
termination_by sizeOf n
decreasing_by exact sizeOf_lt_of_mem_children child

end Node

/-- The form of the command that a label is about. -/
def Label.form? (label : Label) : Option CommandForm :=
  label.2.2.bind fun inv => inv.command.map Command.form

/-- Nothing is seen of positions and invocations. -/
def Sight.blind : Sight where
  position _ := .unset
  invocation _ := {}

namespace SharedText

variable {s t : Source}

def blindfold (w : SharedText s t) : Overlap s t :=
  w.seen .blind .blind (fun _ _ => rfl) fun _ _ _ => rfl

theorem blind_blindfold (w : SharedText s t) : w.blindfold.Blind where
  position _ _ := rfl
  invocation _ _ := rfl

end SharedText

namespace Source

/-- The first lines of a script are read as a script of their own. -/
def opening (xs ys : List (List Char)) (some : xs ≠ []) (cut : ∀ y ∈ ys.head?, opensAsContinuation y = false) :
    SharedText (ofChars xs) (ofChars (xs ++ ys)) where
  text := joined xs
  left := 0
  right := 0
  leftRest := []
  rightRest := joined ys
  leftAhead := by simp [ahead, chars_ofChars]
  rightAhead := by simp [ahead, chars_ofChars, joined_append cut]
  leftBound := Nat.zero_le _
  rightBound := Nat.zero_le _
  closed := .inr (joined_closed some)

/-- So are its last lines. -/
def closing (xs ys : List (List Char)) (cut : ∀ y ∈ ys.head?, opensAsContinuation y = false) :
    SharedText (ofChars ys) (ofChars (xs ++ ys)) where
  text := joined ys
  left := 0
  right := (joined xs).length
  leftRest := []
  rightRest := []
  leftAhead := by simp [ahead, chars_ofChars]
  rightAhead := by simp [ahead, chars_ofChars, joined_append cut]
  leftBound := Nat.zero_le _
  rightBound := by
    rw [size_ofChars, joined_append cut, List.length_append]
    exact Nat.le_add_right ..
  closed := .inl ⟨rfl, rfl⟩

end Source

namespace Script

open Overlap
open Statement (UserNames OpenEnded)

variable {neovim : Bool} {first : Node} {i : Nat}

/-- No command in the tree may read on past its line. -/
def LineBound (root : Node) : Prop :=
  ∀ above n form, root.Occurs above n → n.form? = some form → form.isOpenEnded = false

theorem lineBound_iff {root : Node} :
    LineBound root ↔ ∀ label ∈ root.labels, ∀ form ∈ label.form?, form.isOpenEnded = false := by
  constructor
  · intro bounded label place form found
    obtain ⟨above, n, occurs, rfl⟩ := root.occurs_of_mem_labels place
    exact bounded above n form occurs found
  · intro bounded above n form occurs found
    exact bounded n.label (occurs.labels n.label_mem_labels) form found

instance (root : Node) : Decidable (LineBound root) :=
  decidable_of_iff _ lineBound_iff.symm

/-- The statements handed over on the way to a script are in it, so they are bound to their lines as well. -/
theorem LineBound.edits {edits : List Edit} {n : Node} (bounded : LineBound (.mk .origin n.kind))
    (kept : (n.children.flatMap Node.labels).Perm (edits.flatMap fun e => e.node.labels)) : ¬OpenEnded edits := by
  rintro ⟨e, place, form, found, unbounded⟩
  have handed : e.node.label ∈ n.children.flatMap Node.labels :=
    kept.mem_iff.mpr (List.mem_flatMap.mpr ⟨e, place, e.node.label_mem_labels⟩)
  have inRoot : e.node.label ∈ (Node.mk .origin n.kind).labels := by
    rw [Node.labels_eq]
    exact List.mem_cons_of_mem _ handed
  have known := lineBound_iff.mp bounded _ inRoot form found
  rw [unbounded] at known
  exact absurd known (by decide)

/-- The run over a script is followed to its end in a buffer that goes on behind the same text. -/
theorem LineBound.follows {s t : Source} {w : Overlap s t} (bounded : LineBound first) (unset : w.SamePosition .unset .unset)
    (left : w.left = 0) (right : w.right = 0) (alone : w.Ends)
    (start : w.AlikeBlocks [] (.start (s.position 0)) (.start (t.position 0))) (ok : read neovim s = .ok first i) :
    ∃ blocks n edits names c, blocks.stack = [n] ∧ n.type = .script ∧ first = .mk .origin n.kind ∧
      Reaches neovim t [] edits names c s.size ∧ w.AlikeBlocks [] blocks c := by
  obtain ⟨edits, names, blocks, j, n, reached, last, stack, type, -, rfl⟩ := readWith_ok ok
  obtain rfl : j = s.size := Nat.le_antisymm reached.bound last
  have handed := bounded.edits (reached.labels_of_single stack)
  obtain ⟨edits', names', c, reached', alike, -⟩ := reached.follows unset left right start (.inl ⟨alone, handed⟩)
  exact ⟨blocks, n, edits', names', c, stack, type, rfl, reached', alike⟩

theorem script_of_read {s : Source} {root : Node} (ok : read neovim s = .ok root i) :
    ∃ body, root = .mk .origin (.script body) := by
  obtain ⟨_, _, _, _, n, _, _, _, type, _, rfl⟩ := readWith_ok ok
  obtain ⟨position, kind⟩ := n
  cases kind <;> simp [Node.type, Kind.nodeType] at type
  exact ⟨_, rfl⟩

section

variable {xs : List (List Char)}

/-- The run over both scripts stands after the first one as the run over that script alone does. -/
theorem opening_reaches (ys : List (List Char)) (some : xs ≠ []) (cut : ∀ y ∈ ys.head?, opensAsContinuation y = false)
    (ok : read neovim (.ofChars xs) = .ok first i) (bounded : LineBound first) :
    ∃ body edits names c position, first = .mk .origin (.script body) ∧
      Reaches neovim (.ofChars (xs ++ ys)) [] edits names c (Source.joined xs).length ∧
      c.seenOver .blind [] = (Blocks.start position).seenOver .blind body := by
  let w := (Source.opening xs ys some cut).blindfold
  obtain ⟨blocks, n, edits', names', c, stack, -, rfl, reached, alike⟩ :=
    bounded.follows (w := w) rfl rfl rfl ⟨rfl, id⟩ rfl ok
  obtain ⟨body, script⟩ := script_of_read ok
  obtain ⟨position, kind⟩ := n
  obtain ⟨-, rfl⟩ := Node.mk.inj script
  refine ⟨body, edits', names', c, position, rfl, Source.size_ofChars xs ▸ reached, ?_⟩
  have seen : blocks.seenOver .blind [] = c.seenOver .blind [] := alike
  rw [← seen]
  simp [Blocks.seenOver, stack, Blocks.start, Node.seenOver, Kind.seenOver, Kind.onto]

/-- The last lines are read as a script of their own, and come after the statements of the first. -/
theorem closing_concurs (ys : List (List Char)) (some : xs ≠ []) (cut : ∀ y ∈ ys.head?, opensAsContinuation y = false)
    (ok : read neovim (.ofChars xs) = .ok first i) (bounded : LineBound first) :
    ∃ body, first = .mk .origin (.script body) ∧
      (Source.closing xs ys cut).blindfold.Concurs (fun n m => n.kind.seenOver .blind body = m.kind.seenOver .blind [])
        (read neovim (.ofChars ys)) (read neovim (.ofChars (xs ++ ys))) := by
  obtain ⟨body, edits, names, c, position, rfl, reached, alike⟩ := opening_reaches ys some cut ok bounded
  have records : (Source.closing xs ys cut).blindfold.Records [] names := .inr (SharedText.blind_blindfold _)
  have concur := reached.concurs (w := (Source.closing xs ys cut).blindfold) ⟨rfl, rfl⟩ ⟨rfl, rfl⟩ rfl rfl alike.symm records
  exact ⟨body, rfl, concur⟩

end

/-- The lines of two scripts are read if the lines of the second one are, and its statements are printed after those of
the first. -/
theorem ofLines_append (neovim : Bool) (xs ys : List String) (ok : ofLines neovim xs = .ok first i)
    (bounded : LineBound first) (cut : ∀ y ∈ ys.head?, opensAsContinuation y.toList = false) :
    (∀ second j, ofLines neovim ys = .ok second j → ∃ whole k, ofLines neovim (xs ++ ys) = .ok whole k ∧
        whole.fingerprint = first.fingerprint ++ second.fingerprint) ∧
      ∀ whole k, ofLines neovim (xs ++ ys) = .ok whole k → ∃ second j, ofLines neovim ys = .ok second j := by
  by_cases none : xs = []
  · subst none
    obtain ⟨rfl, -⟩ := Reply.ok.inj ok
    exact ⟨fun second j run => ⟨second, j, run, rfl⟩, fun whole k run => ⟨whole, k, run⟩⟩
  have some : xs.map String.toList ≠ [] := by simpa using none
  have cut' : ∀ y ∈ (ys.map String.toList).head?, opensAsContinuation y = false := by simpa using cut
  obtain ⟨body, rfl, concur⟩ := closing_concurs _ some cut' ok bounded
  have texts : ofLines neovim (xs ++ ys) = read neovim (.ofChars (xs.map String.toList ++ ys.map String.toList)) := by
    rw [ofLines, Source.ofLines, List.map_append]
  rw [← texts] at concur
  change Concurs _ _ (ofLines neovim ys) _ at concur
  constructor
  · intro second j run
    obtain ⟨whole, k, run'⟩ := concur.ok_iff.mp ⟨second, j, run⟩
    rw [run, run'] at concur
    obtain ⟨found, rfl⟩ := script_of_read run
    obtain ⟨found', rfl⟩ := script_of_read run'
    refine ⟨_, k, run', ?_⟩
    have same : (body ++ found).map (Node.seen .blind) = found'.map (Node.seen .blind) := Kind.script.inj concur
    rw [← Node.fingerprint_script_of_seen .origin .origin same, Node.fingerprint_script_append .origin .origin .origin]
  · intro whole k run'
    exact concur.ok_iff.mpr ⟨whole, k, run'⟩

theorem ofLines_append_blocks :
    ∃ first i, ofLines false ["function F()", "  let x =<< END", "if", "END", "endfunction", "Foo"] = .ok first i ∧
      LineBound first ∧ (∀ y ∈ ["Foo1 bar", "while 1", "break", "endwhile"].head?, opensAsContinuation y.toList = false) ∧
      ∃ whole second j k, ofLines false ["Foo1 bar", "while 1", "break", "endwhile"] = .ok second j ∧
        ofLines false (["function F()", "  let x =<< END", "if", "END", "endfunction", "Foo"] ++
          ["Foo1 bar", "while 1", "break", "endwhile"]) = .ok whole k ∧
        whole.fingerprint = first.fingerprint ++ second.fingerprint := by
  have left : (ofLines false ["function F()", "  let x =<< END", "if", "END", "endfunction", "Foo"]).passes
      (fun root => decide (LineBound root)) = true := by
    rw [ofLines_eq_byInitial]
    decide +kernel
  have right : (ofLines false ["Foo1 bar", "while 1", "break", "endwhile"]).passes (fun _ => true) = true := by
    rw [ofLines_eq_byInitial]
    decide +kernel
  obtain ⟨first, i, ok, bound⟩ := Reply.exists_of_passes _ left
  obtain ⟨second, j, ok', -⟩ := Reply.exists_of_passes _ right
  have bounded : LineBound first := of_decide_eq_true bound
  have cut : ∀ y ∈ ["Foo1 bar", "while 1", "break", "endwhile"].head?, opensAsContinuation y.toList = false := by
    decide +kernel
  obtain ⟨whole, k, both, printed⟩ := (ofLines_append false _ _ ok bounded cut).1 second j ok'
  exact ⟨first, i, ok, bounded, cut, whole, second, j, k, ok', both, printed⟩

end Script

end VimScript
