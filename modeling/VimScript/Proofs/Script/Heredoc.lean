import VimScript.Proofs.Blocks.Takes
import VimScript.Proofs.Script.Initials
import VimScript.Proofs.Script.Order
import VimScript.Proofs.Statement.Heredoc

/-!
Heredocs in scripts. What the tree has for one are the whole lines of the buffer up to its marker, and nothing else is
read from these lines. They start on the line after the operator, unless a bar stands behind the marker's first mention.
-/

set_option autoImplicit false

namespace VimScript

namespace Node

variable {P : Node → Prop} {root n : Node} {above : List Node}

/-- All nodes of a tree have a property. -/
inductive Throughout (P : Node → Prop) : Node → Prop where
  | intro {n : Node} (own : P n) (children : ∀ c ∈ n.children, Throughout P c) : Throughout P n

theorem Throughout.own (h : n.Throughout P) : P n := by
  cases h with
  | intro own children => exact own

theorem Throughout.children (h : n.Throughout P) : ∀ c ∈ n.children, c.Throughout P := by
  cases h with
  | intro own children => exact children

theorem Occurs.throughout (place : root.Occurs above n) (h : root.Throughout P) : n.Throughout P := by
  induction place with
  | root => exact h
  | child place below ih => exact ih.children _ below

theorem IsExpression.throughout (expressions : ∀ n : Node, n.type.isExpression = true → P n) (h : n.IsExpression) :
    n.Throughout P := by
  induction h with
  | intro type children ih => exact .intro (expressions _ type) ih

theorem keptByTaking_throughout (blocks : ∀ n : Node, n.kind.body?.isSome = true → P n) :
    Blocks.KeptByTaking (Throughout P) := by
  intro position kind after new host taken takes
  refine .intro (blocks _ takes.remains) fun c below => ?_
  rcases takes.parts c below with rfl | old
  · exact taken
  · exact host.children c old

end Node

namespace Node

variable {n : Node}

/-- The options, the marker and the lines of a heredoc. -/
def heredoc? (n : Node) : Option (List String × String × List String) :=
  match n.kind with
  | .heredoc options marker lines => some (options, marker, lines)
  | _ => none

/-- Those of the heredoc that a `:let` assigns. -/
def assignedHeredoc? (n : Node) : Option (List String × String × List String) :=
  match n.kind with
  | .assign .letVar _ _ _ _ _ value => value.heredoc?
  | _ => none

theorem kind_of_heredoc? {options lines : List String} {marker : String} (h : n.heredoc? = some (options, marker, lines)) :
    n.kind = .heredoc options marker lines := by
  obtain ⟨position, kind⟩ := n
  cases kind <;> simp_all [heredoc?]

theorem assignsHeredoc_of_some {found : List String × String × List String} (h : n.assignedHeredoc? = some found) :
    n.AssignsHeredoc := by
  unfold assignedHeredoc? at h
  split at h
  · rename_i value assigns
    obtain ⟨options, marker, lines⟩ := found
    exact ⟨_, _, _, _, _, _, assigns, congrArg Kind.nodeType (kind_of_heredoc? h)⟩
  · cases h

end Node

namespace Script

open Statement (UserNames lineEnd)

variable {neovim : Bool} {s : Source} {known names : UserNames} {edits : List Edit} {blocks : Blocks} {i j : Nat}
  {root n : Node} {above : List Node} {P : Node → Prop}

/-- What holds of all blocks, all expressions and all that is handed over holds throughout the blocks. -/
theorem Reaches.throughout (bodies : ∀ n : Node, n.kind.body?.isSome = true → P n)
    (expressions : ∀ n : Node, n.type.isExpression = true → P n)
    (handed : ∀ edits names blocks i effect j, Reaches neovim s known edits names blocks i →
      Statement.read ⟨neovim, names, blocks⟩ s i = .ok effect j → ∀ e ∈ effect.edits, P e.node)
    (h : Reaches neovim s known edits names blocks i) : blocks.All (Node.Throughout P) := by
  induction h with
  | start =>
    refine List.forall_mem_singleton.mpr (.intro (bodies _ rfl) ?_)
    simp [Node.children, Kind.children]
  | step before more read ih =>
    refine ih.editAll (Node.keptByTaking_throughout bodies) fun e place => ?_
    obtain ⟨b, ok⟩ := ((Statement.read_delivers _).of_ok read).admits e place
    refine .intro (handed _ _ _ _ _ _ before read e place) fun c below => ?_
    exact (ok.children c below).throughout expressions

theorem readWith_throughout (bodies : ∀ n : Node, n.kind.body?.isSome = true → P n)
    (expressions : ∀ n : Node, n.type.isExpression = true → P n)
    (handed : ∀ edits names blocks i effect j, Reaches neovim s known edits names blocks i →
      Statement.read ⟨neovim, names, blocks⟩ s i = .ok effect j → ∀ e ∈ effect.edits, P e.node)
    (ok : (readWith neovim known s).1 = .ok root j) : root.Throughout P := by
  obtain ⟨_, _, _, _, n, reached, _, stack, type, _, rfl⟩ := readWith_ok ok
  have all := reached.throughout bodies expressions handed
  have whole : n.Throughout P := all n (by simp [stack])
  have script : n.kind.body?.isSome = true := by simp [Kind.isSome_body?, ← Node.type.eq_1, type]
  exact .intro (bodies _ script) whole.children

/-- A node that is handed over by a statement of the script which ends at a cursor. -/
def ReadsUpTo (neovim : Bool) (s : Source) (known : UserNames) (n : Node) (j : Nat) : Prop :=
  ∃ edits names blocks i effect, Reaches neovim s known edits names blocks i ∧ i ≤ n.position.cursor ∧
    (∃ e ∈ effect.edits, e.node = n) ∧ Statement.read ⟨neovim, names, blocks⟩ s i = .ok effect j

/-- A heredoc that is assigned is the one behind the operator on the line of its command. Its lines are those up to the
marker, and the statement that it is read with ends there, so that the next one is read from the line after it. -/
theorem readWith_assignsLines (ok : (readWith neovim known s).1 = .ok root j) (place : root.Occurs above n)
    (assigns : n.AssignsHeredoc) :
    ∃ k, s.AssignsLines n.position.cursor n k ∧ ReadsUpTo neovim s known n (if k < s.size then k + 1 else k) := by
  let P (n : Node) : Prop := n.AssignsHeredoc →
    ∃ k, s.AssignsLines n.position.cursor n k ∧ ReadsUpTo neovim s known n (if k < s.size then k + 1 else k)
  have all : root.Throughout P := by
    refine readWith_throughout ?_ ?_ ?_ ok
    · rintro n holds ⟨_, _, _, _, _, _, same, -⟩
      rw [same] at holds
      cases holds
    · rintro n expression ⟨_, _, _, _, _, _, same, -⟩
      rw [Node.type, same] at expression
      cases expression
    · intro edits names blocks i effect j reached read e handed assigns
      obtain ⟨later, k, lines, rfl⟩ := (Statement.read_handsLines reached.bound).of_ok read e handed assigns
      exact ⟨k, lines, edits, names, blocks, i, effect, reached, later, ⟨e, handed, rfl⟩, read⟩
  exact (place.throughout all).own assigns

theorem ofLines_assignsLines_options :
    ∃ root j n k, ofLines false ["let x =<< trim END \"c", " a", "END"] = .ok root j ∧ root.Occurs [root] n ∧
      n.assignedHeredoc? = some (["trim"], "END", [" a"]) ∧
      (Source.ofLines ["let x =<< trim END \"c", " a", "END"]).AssignsLines n.position.cursor n k := by
  have assigned : (ofLines false ["let x =<< trim END \"c", " a", "END"]).passes
      (fun root => root.children.any fun n => n.assignedHeredoc? == some (["trim"], "END", [" a"])) = true := by
    rw [ofLines_eq_byInitial]
    decide +kernel
  obtain ⟨root, j, ok, found⟩ := Reply.exists_of_passes _ assigned
  obtain ⟨n, below, found⟩ := List.any_eq_true.mp found
  have heredoc := eq_of_beq found
  obtain ⟨k, lines, -⟩ := readWith_assignsLines ((ofLines_eq ..).symm.trans ok) (.child .root below) (Node.assignsHeredoc_of_some heredoc)
  exact ⟨root, j, n, k, ok, .child .root below, heredoc, lines⟩

/-- Behind a bar the rest of the operator's line is the first line of the heredoc. -/
theorem not_forall_markedLines_after_line :
    ¬∀ (lines : List String) (root : Node) (j : Nat) (above : List Node) (n : Node) (options : List String)
        (marker : String) (body : List String),
      ofLines false lines = .ok root j → root.Occurs above n → n.assignedHeredoc? = some (options, marker, body) →
        ∃ k, (Source.ofLines lines).MarkedLines (lineEnd (.ofLines lines) n.position.cursor + 1) marker body k := by
  intro all
  let lines := ["let x =<< END | y", "a", "END"]
  have assigned : (ofLines false lines).passes (fun root => root.children.any fun n =>
      n.assignedHeredoc? == some ([], "END", [" y", "a"]) && n.position.cursor == 0) = true := by
    rw [ofLines_eq_byInitial]
    decide +kernel
  obtain ⟨root, j, ok, found⟩ := Reply.exists_of_passes _ assigned
  simp only [List.any_eq_true, Bool.and_eq_true, beq_iff_eq] at found
  obtain ⟨n, below, heredoc, first⟩ := found
  obtain ⟨k, marked⟩ := all lines root j _ n _ _ _ ok (.child .root below) heredoc
  have spans := marked.spans.ahead
  rw [first] at spans
  have ahead : ((Source.ofLines lines).ahead (lineEnd (.ofLines lines) 0 + 1)).head? = some 'a' := by decide +kernel
  rw [spans] at ahead
  cases ahead

end Script

end VimScript
