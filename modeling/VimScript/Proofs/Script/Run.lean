import VimScript.Proofs.Blocks.Labels
import VimScript.Proofs.Statement.Edits
import VimScript.Script

/-!
Runs over a script. Between any two statements the open blocks stand as they have to, and no node handed to them is
ever lost.
-/

set_option autoImplicit false

namespace VimScript.Script

open Statement (UserNames)

/-- The points between statements: the edits made so far, the user commands on record, the open blocks and the
cursor. -/
inductive Reaches (neovim : Bool) (s : Source) (known : UserNames) :
    List Edit → UserNames → Blocks → Nat → Prop where
  | start : Reaches neovim s known [] known (.start (s.position 0)) 0
  | step {edits : List Edit} {names : UserNames} {blocks : Blocks} {i j : Nat} {effect : Statement.Effect}
      (before : Reaches neovim s known edits names blocks i) (more : i < s.size)
      (read : Statement.read ⟨neovim, names, blocks⟩ s i = .ok effect j) :
      Reaches neovim s known (edits ++ effect.edits) effect.known (blocks.editAll effect.edits) j

/-- How a run may end at a point it has reached. -/
inductive Ends (neovim : Bool) (s : Source) (names : UserNames) (blocks : Blocks) (i : Nat) :
    Reply Node → Prop where
  | finish (last : s.size ≤ i) : Ends neovim s names blocks i (finish blocks s i)
  | fault {e : Fault} {j : Nat} (more : i < s.size)
      (read : Statement.read ⟨neovim, names, blocks⟩ s i = .fail e j) : Ends neovim s names blocks i (.fail e j)
  | spent : Ends neovim s names blocks i .spent

variable {neovim : Bool} {s : Source} {known names : UserNames} {blocks : Blocks} {edits : List Edit}
  {i j : Nat} {root : Node}

theorem statements_ends (n : Nat) (h : Reaches neovim s known edits names blocks i) :
    ∃ edits' names' blocks' i', Reaches neovim s known edits' names' blocks' i' ∧
      Ends neovim s names' blocks' i' (statements neovim s n names blocks i).1 := by
  induction n generalizing edits names blocks i with
  | zero => exact ⟨edits, names, blocks, i, h, .spent⟩
  | succ n ih =>
    by_cases last : s.size ≤ i
    · exact ⟨edits, names, blocks, i, h, by simpa [statements, last] using .finish last⟩
    · have more : i < s.size := by omega
      cases read : Statement.read ⟨neovim, names, blocks⟩ s i with
      | ok effect j => simpa [statements, last, read] using ih (h.step more read)
      | fail e j => exact ⟨edits, names, blocks, i, h, by simpa [statements, last, read] using .fault more read⟩
      | spent => exact ⟨edits, names, blocks, i, h, by simpa [statements, last, read] using .spent⟩

theorem readWith_ends (neovim : Bool) (known : UserNames) (s : Source) :
    ∃ edits names blocks i, Reaches neovim s known edits names blocks i ∧
      Ends neovim s names blocks i (readWith neovim known s).1 :=
  statements_ends (s.size + 2) .start

/-! ### The open blocks of a run -/

theorem Reaches.stands (h : Reaches neovim s known edits names blocks i) : Blocks.Stands blocks.stack := by
  induction h with
  | start =>
    refine .script rfl { slots := .empty, close := rfl, otherwise := rfl, final := rfl, children := ?_ }
    simp [Node.children, Kind.children]
  | step before more read ih => exact (ih.editAll ((Statement.read_delivers _).of_ok read)).1

theorem Reaches.performsAll {effect : Statement.Effect} (h : Reaches neovim s known edits names blocks i)
    (read : Statement.read ⟨neovim, names, blocks⟩ s i = .ok effect j) : blocks.PerformsAll effect.edits :=
  (h.stands.editAll ((Statement.read_delivers _).of_ok read)).2

theorem Reaches.labels (h : Reaches neovim s known edits names blocks i) :
    blocks.labels.Perm (edits.flatMap (fun e => e.node.labels) ++ (Blocks.start (s.position 0)).labels) := by
  induction h with
  | start => exact .refl _
  | @step edits names blocks i j effect before more read ih =>
    have grown := (before.performsAll read).labels.trans (ih.append_left _)
    rw [List.flatMap_append, List.append_assoc]
    rw [← List.append_assoc] at grown ⊢
    exact grown.trans (List.perm_append_comm.append_right _)

theorem Reaches.bottom? (h : Reaches neovim s known edits names blocks i) :
    blocks.bottom? = some (s.position 0, .script, none) := by
  induction h with
  | start => rfl
  | step before more read ih => exact (before.performsAll read).bottom? ih

/-- Where the script is the only block left, it holds what was handed over. -/
theorem Reaches.labels_of_single {n : Node} (h : Reaches neovim s known edits names blocks i)
    (single : blocks.stack = [n]) :
    (n.children.flatMap Node.labels).Perm (edits.flatMap fun e => e.node.labels) := by
  have bottom : n.label = (s.position 0, .script, none) := by
    simpa [Blocks.bottom?, single] using h.bottom?
  have all := h.labels
  have start : (Blocks.start (s.position 0)).labels = [n.label] := by rw [bottom]; rfl
  rw [start, Blocks.labels, single, List.flatMap_singleton, Node.labels_eq] at all
  exact (all.trans List.perm_append_comm).cons_inv

/-! ### The end of a run -/

theorem finish_eq (blocks : Blocks) (s : Source) (i : Nat) :
    finish blocks s i =
      match blocks.missing? .script with
      | some missing => .fail ⟨.missingCloser missing .script, s.position i⟩ i
      | none =>
        match blocks.script? with
        | some node => .ok node i
        | none => .fail ⟨.stackUnderflow, s.position i⟩ i := by
  simp only [finish, Scan.bind_apply, Scan.here]
  cases blocks.missing? .script with
  | some missing => rfl
  | none => cases blocks.script? <;> rfl

theorem finish_of_stands (h : Blocks.Stands blocks.stack) :
    (∃ missing, blocks.innermost.block? = some missing ∧
        finish blocks s i = .fail ⟨.missingCloser missing .script, s.position i⟩ i) ∨
      ∃ n, blocks.stack = [n] ∧ n.type = .script ∧ n.Open [] ∧
        finish blocks s i = .ok (.mk .origin n.kind) i := by
  obtain ⟨stack⟩ := blocks
  rw [finish_eq]
  cases h with
  | @script n type grows =>
    refine .inr ⟨n, rfl, type, grows, ?_⟩
    simp [Blocks.missing?, Blocks.innermost, type, NodeType.block?, Blocks.script?]
  | @block n outer sort type grows below =>
    have inside : (Blocks.mk (n :: outer)).innermost.block? = some sort := by simp [Blocks.innermost, type]
    exact .inl ⟨sort, inside, by simp [Blocks.missing?, inside]⟩
  | @branch n host outer sort isBranch belongs type grows below =>
    have inside : (Blocks.mk (n :: host :: outer)).innermost.block? = some sort := belongs
    exact .inl ⟨sort, inside, by simp [Blocks.missing?, inside]⟩

/-- What a run that succeeds leaves: the script alone, with all else in it. -/
theorem readWith_ok (h : (readWith neovim known s).1 = .ok root j) :
    ∃ edits names blocks i n, Reaches neovim s known edits names blocks i ∧ s.size ≤ i ∧ blocks.stack = [n] ∧
      n.type = .script ∧ n.Open [] ∧ root = .mk .origin n.kind := by
  obtain ⟨edits, names, blocks, i, reached, ends⟩ := readWith_ends neovim known s
  rw [h] at ends
  generalize reply : (Reply.ok root j) = r at ends
  cases ends with
  | finish last =>
    rcases finish_of_stands (s := s) (i := i) reached.stands with ⟨missing, -, failed⟩ | ⟨n, stack, type, grows, ok⟩
    · simp [failed] at reply
    · rw [ok] at reply
      exact ⟨edits, names, blocks, i, n, reached, last, stack, type, grows, (Reply.ok.inj reply).1⟩
  | fault more read => simp at reply
  | spent => simp at reply

theorem readWith_fail {e : Fault} (h : (readWith neovim known s).1 = .fail e j) : e.cause ≠ .stackUnderflow := by
  obtain ⟨edits, names, blocks, i, reached, ends⟩ := readWith_ends neovim known s
  rw [h] at ends
  generalize reply : (Reply.fail e j : Reply Node) = r at ends
  cases ends with
  | finish last =>
    rcases finish_of_stands (s := s) (i := i) reached.stands with ⟨missing, -, failed⟩ | ⟨n, stack, type, grows, ok⟩
    · rw [failed] at reply
      simp [(Reply.fail.inj reply).1]
    · simp [ok] at reply
  | fault more read =>
    obtain ⟨rfl, -⟩ := Reply.fail.inj reply
    exact (Statement.read_delivers _).of_fail read
  | spent => simp at reply

/-! ### What labels say -/

/-- What is known of all labels without a command, and of those that statements hand over, is known of all in the tree:
below the node of an edit there are only expressions. -/
theorem readWith_labels {L : Label → Prop} (plain : ∀ label : Label, label.2.2 = none → L label)
    (handed : ∀ edits names blocks i effect j, Reaches neovim s known edits names blocks i →
      Statement.read ⟨neovim, names, blocks⟩ s i = .ok effect j → ∀ e ∈ effect.edits, L e.node.label)
    (ok : (readWith neovim known s).1 = .ok root j) : ∀ label ∈ root.labels, L label := by
  have made {edits : List Edit} {names : UserNames} {blocks : Blocks} {i : Nat}
      (reached : Reaches neovim s known edits names blocks i) : ∀ e ∈ edits, ∀ label ∈ e.node.labels, L label := by
    induction reached with
    | start => simp
    | step before more read ih =>
      refine List.forall_mem_append.mpr ⟨ih, fun e now label place => ?_⟩
      obtain ⟨b, ok⟩ := ((Statement.read_delivers _).of_ok read).admits e now
      rw [Node.labels_eq] at place
      rcases List.mem_cons.mp place with rfl | below
      · exact handed _ _ _ _ _ _ before read e now
      · obtain ⟨c, child, inside⟩ := List.mem_flatMap.mp below
        exact plain label ((ok.children c child).labels label inside)
  obtain ⟨edits, names, blocks, i, n, reached, -, single, type, -, rfl⟩ := readWith_ok ok
  intro label place
  rw [Node.labels_eq] at place
  rcases List.mem_cons.mp place with rfl | below
  · obtain ⟨position, kind⟩ := n
    cases kind <;> simp [Node.type, Kind.nodeType] at type
    exact plain _ rfl
  · obtain ⟨e, edit, inside⟩ := List.mem_flatMap.mp ((reached.labels_of_single single).mem_iff.mp below)
    exact made reached e edit label inside

end VimScript.Script
