import VimScript.Proofs.Grammar.Derivation
import VimScript.Proofs.Tree.Finished

/-!
A machine that reads types of lines against a stack of open outlines. What it reads has a derivation, what has a
derivation is read, and whatever it has read can be completed by closing the blocks that are open.
-/

set_option autoImplicit false

namespace VimScript

/-- The outlines of the open blocks and branches, the innermost first; the script is the last. -/
abbrev Frames := List Outline

namespace Frames

def innermost : Frames → NodeType
  | [] => .script
  | top :: _ => top.type

def scope (frames : Frames) : Scope where
  inLoop := frames.any fun o => o.type == .whileLoop || o.type == .forLoop
  inFunction := frames.any fun o => o.type == .function

def add (o : Outline) : Frames → Frames
  | .node type inner :: outer => .node type (inner ++ [o]) :: outer
  | [] => []

def leaveBranch : Frames → Frames
  | top :: outer => if top.type.isBranch then add top outer else top :: outer
  | [] => []

def close (closer : Outline) : Frames → Frames
  | .node type inner :: outer => add (.node type (inner ++ [closer])) outer
  | [] => []

/-- Whether a line of a type may come next. -/
def admits (frames : Frames) : NodeType → Bool
  | .closer sort => frames.innermost.block? == some sort
  | .elseIf | .elseBranch => frames.innermost == .ifBlock || frames.innermost == .elseIf
  | .catchBranch | .finallyBranch => frames.innermost == .tryBlock || frames.innermost == .catchBranch
  | .jump _ => frames.scope.inLoop
  | .returnValue => frames.scope.inFunction
  | _ => true

def enter (frames : Frames) (type : NodeType) : Frames :=
  match type with
  | .closer _ => close (.node type []) frames.leaveBranch
  | .elseIf | .elseBranch | .catchBranch | .finallyBranch => .node type [] :: frames.leaveBranch
  | .function | .ifBlock | .whileLoop | .forLoop | .tryBlock => .node type [] :: frames
  | _ => frames.add (.node type [])

def run : Frames → List NodeType → Option Frames
  | frames, [] => some frames
  | frames, type :: types => if frames.admits type then run (frames.enter type) types else none

def start : Frames :=
  [.node .script []]

theorem run_append (frames : Frames) (xs ys : List NodeType) :
    frames.run (xs ++ ys) = (frames.run xs).bind fun middle => middle.run ys := by
  induction xs generalizing frames with
  | nil => rfl
  | cons x xs ih =>
    by_cases ok : frames.admits x = true
    · simp [run, ok, ih]
    · simp [run, ok]

end Frames

/-! ### Branches of blocks -/

namespace BlockSort

/-- The blocks that may have branches. -/
def Divides (sort : BlockSort) : Prop :=
  sort = .ifBlock ∨ sort = .tryBlock

/-- The type of the branches of a block: that of the last one, or that of those before it. -/
def branch (sort : BlockSort) (last : Bool) : NodeType :=
  match sort with
  | .tryBlock => if last then .finallyBranch else .catchBranch
  | _ => if last then .elseBranch else .elseIf

theorem isBranch_branch (sort : BlockSort) (last : Bool) : (sort.branch last).isBranch = true := by
  cases sort <;> cases last <;> rfl

theorem block?_branch {sort : BlockSort} (last : Bool) (divides : sort.Divides) :
    (sort.branch last).block? = some sort := by
  rcases divides with rfl | rfl <;> cases last <;> rfl

end BlockSort

/-- The scope of what a block holds. -/
def Scope.within (scope : Scope) : BlockSort → Scope
  | .whileLoop | .forLoop => { scope with inLoop := true }
  | .function => { scope with inFunction := true }
  | .ifBlock | .tryBlock => scope

section

variable {sort : BlockSort} {scope : Scope} {body : List Outline}

theorem Derives.block_of_parts (middle : List (List Outline)) (last : Option (List Outline)) (parts : sort.Divides ∨ middle = [] ∧ last = none)
    (inBody : ∀ o ∈ body, Derives (scope.within sort) o)
    (inMiddle : ∀ branch ∈ middle, ∀ o ∈ branch, Derives (scope.within sort) o)
    (inLast : ∀ branch ∈ last, ∀ o ∈ branch, Derives (scope.within sort) o) :
    Derives scope (.block sort
      (body ++ middle.map (.node (sort.branch false)) ++ last.toList.map (.node (sort.branch true)))) := by
  rcases parts with (rfl | rfl) | ⟨rfl, rfl⟩
  · exact .ifBlock inBody inMiddle inLast
  · exact .tryBlock inBody inMiddle inLast
  · have whole : body ++ ([] : List (List Outline)).map (.node (sort.branch false)) ++
        (none : Option (List Outline)).toList.map (.node (sort.branch true)) = body := by simp
    rw [whole]
    cases sort with
    | function => exact .function inBody
    | whileLoop => exact .whileLoop inBody
    | forLoop => exact .forLoop inBody
    | ifBlock => exact whole ▸ Derives.ifBlock inBody inMiddle inLast
    | tryBlock => exact whole ▸ Derives.tryBlock inBody inMiddle inLast

/-- What derives is a statement: neither a branch nor a closing command. -/
theorem Derives.isStatement {o : Outline} (h : Derives scope o) : o.type.isBranch = false := by
  cases h <;> rfl

end

namespace Frames

variable {frames outer : Frames} {o : Outline} {sort : BlockSort} {inner : List Outline}

theorem scope_block (sort : BlockSort) (inner : List Outline) (outer : Frames) :
    scope (.node (.ofBlock sort) inner :: outer) = (scope outer).within sort := by
  cases sort <;> simp [scope, Scope.within, NodeType.ofBlock]

theorem scope_branch (sort : BlockSort) (last : Bool) (inner : List Outline) (outer : Frames) :
    scope (.node (sort.branch last) inner :: outer) = scope outer := by
  cases sort <;> cases last <;> simp [scope, BlockSort.branch]

theorem scope_add (o : Outline) (frames : Frames) : scope (add o frames) = scope frames := by
  cases frames with
  | nil => rfl
  | cons top outer =>
    cases top
    simp [add, scope]

/-! ### The lines on the stack -/

/-- The types of the lines that the stack was built from. -/
def spread (frames : Frames) : List NodeType :=
  frames.reverse.flatMap Outline.types

theorem spread_cons (o : Outline) (outer : Frames) : spread (o :: outer) = spread outer ++ o.types := by
  simp [spread]

theorem spread_add (o : Outline) (some : frames ≠ []) : spread (add o frames) = spread frames ++ o.types := by
  cases frames with
  | nil => exact absurd rfl some
  | cons top outer =>
    cases top
    simp [add, spread_cons]

/-! ### Soundness -/

/-- Every frame holds derived statements, and below a branch a block holds its branches so far. -/
inductive Grows : Frames → Prop where
  | script {statements : List Outline} (inScript : ∀ o ∈ statements, Derives {} o) :
      Grows [.node .script statements]
  | block {sort : BlockSort} {body : List Outline} {outer : Frames}
      (inBody : ∀ o ∈ body, Derives ((scope outer).within sort) o) (below : Grows outer) :
      Grows (.node (.ofBlock sort) body :: outer)
  | branch {sort : BlockSort} {body : List Outline} (middle : List (List Outline)) (last : Bool)
      (inner : List Outline) {outer : Frames} (divides : sort.Divides) (inBody : ∀ o ∈ body, Derives ((scope outer).within sort) o)
      (inMiddle : ∀ branch ∈ middle, ∀ o ∈ branch, Derives ((scope outer).within sort) o)
      (inInner : ∀ o ∈ inner, Derives ((scope outer).within sort) o) (below : Grows outer) :
      Grows (.node (sort.branch last) inner ::
        .node (.ofBlock sort) (body ++ middle.map (.node (sort.branch false))) :: outer)

theorem Grows.ne_nil (h : Grows frames) : frames ≠ [] := by
  cases h <;> simp

theorem Grows.add (h : Grows frames) (derives : Derives (scope frames) o) : Grows (add o frames) := by
  cases h with
  | script inScript =>
    refine .script ?_
    simpa [or_imp, forall_and] using ⟨inScript, derives⟩
  | block inBody below =>
    rw [scope_block] at derives
    refine .block ?_ below
    simpa [or_imp, forall_and] using ⟨inBody, derives⟩
  | branch middle last inner divides inBody inMiddle inInner below =>
    rw [scope_branch, scope_block] at derives
    refine .branch middle last _ divides inBody inMiddle ?_ below
    simpa [or_imp, forall_and] using ⟨inInner, derives⟩

theorem leaveBranch_block (sort : BlockSort) (inner : List Outline) (outer : Frames) :
    leaveBranch (.node (.ofBlock sort) inner :: outer) = .node (.ofBlock sort) inner :: outer := by
  simp [leaveBranch]

theorem leaveBranch_branch (sort : BlockSort) (last : Bool) (inner : List Outline) (outer : Frames) :
    leaveBranch (.node (sort.branch last) inner :: outer) = add (.node (sort.branch last) inner) outer := by
  simp [leaveBranch, BlockSort.isBranch_branch]

/-- A block that may be closed derives once it is. -/
theorem Grows.leaveBranch (h : Grows frames) (inside : frames.innermost.block? = some sort) :
    ∃ inner outer, frames.leaveBranch = .node (.ofBlock sort) inner :: outer ∧ Grows outer ∧
      Derives (scope outer) (.block sort inner) ∧ spread frames.leaveBranch = spread frames := by
  cases h with
  | script inScript => simp [innermost, NodeType.block?] at inside
  | @block found body outer inBody below =>
    obtain rfl : found = sort := by simpa [innermost] using inside
    have derives : Derives (scope outer) (.block found body) := by
      have parts := Derives.block_of_parts [] none (.inr ⟨rfl, rfl⟩) inBody (by simp) (by simp)
      simpa using parts
    exact ⟨body, outer, leaveBranch_block found body outer, below, derives, by rw [leaveBranch_block]⟩
  | @branch found body middle last inner outer divides inBody inMiddle inInner below =>
    obtain rfl : found = sort := by
      simpa [innermost, BlockSort.block?_branch last divides] using inside
    refine ⟨_, outer, leaveBranch_branch found last inner _, below, ?_, ?_⟩
    · cases last with
      | false =>
        have parts := Derives.block_of_parts (middle ++ [inner]) none (.inl divides) inBody
          (by simpa [or_imp, forall_and] using ⟨inMiddle, inInner⟩) (by simp)
        simpa using parts
      | true =>
        have parts := Derives.block_of_parts middle (some inner) (.inl divides) inBody inMiddle
          (by simpa using inInner)
        simpa using parts
    · rw [leaveBranch_branch, spread_add _ (by simp), spread_cons (.node _ inner)]

/-- A branch may be added to a block whose last branch is still to come. -/
theorem Grows.openBranch (h : Grows frames) (last : Bool) (divides : sort.Divides)
    (inside : frames.innermost = .ofBlock sort ∨ frames.innermost = sort.branch false) :
    Grows (.node (sort.branch last) [] :: frames.leaveBranch) ∧ spread frames.leaveBranch = spread frames := by
  have sorts : ∀ found : BlockSort, .ofBlock found = NodeType.ofBlock sort ∨ .ofBlock found = sort.branch false →
      found = sort := by
    rcases divides with rfl | rfl <;> intro found <;> cases found <;>
      simp [NodeType.ofBlock, BlockSort.branch]
  cases h with
  | script inScript =>
    rcases divides with rfl | rfl <;> simp [innermost, NodeType.ofBlock, BlockSort.branch] at inside
  | @block found body outer inBody below =>
    obtain rfl : found = sort := sorts found (by simpa [innermost] using inside)
    rw [leaveBranch_block]
    have grows := Grows.branch [] last [] divides inBody (by simp) (by simp) below
    exact ⟨by simpa using grows, rfl⟩
  | @branch found body middle before inner outer divides' inBody inMiddle inInner below =>
    obtain ⟨rfl, rfl⟩ : found = sort ∧ before = false := by
      rcases divides with rfl | rfl <;> rcases divides' with rfl | rfl <;> cases before <;>
        simp [innermost, NodeType.ofBlock, BlockSort.branch] at inside ⊢
    rw [leaveBranch_branch]
    have grows := Grows.branch (middle ++ [inner]) last [] divides inBody
      (by simpa [or_imp, forall_and] using ⟨inMiddle, inInner⟩) (by simp) below
    refine ⟨by simpa [Frames.add] using grows, ?_⟩
    rw [spread_add _ (by simp), spread_cons (.node _ inner)]

theorem Grows.enter (line : Line) (h : Grows frames) (ok : frames.admits line.type = true) :
    Grows (frames.enter line.type) ∧ spread (frames.enter line.type) = spread frames ++ [line.type] := by
  have stays : ∀ {type : NodeType}, Derives (scope frames) (.node type []) →
      Grows (frames.add (.node type [])) ∧ spread (frames.add (.node type [])) = spread frames ++ [type] := by
    intro type derives
    exact ⟨h.add derives, by simp [spread_add _ h.ne_nil]⟩
  have opens : ∀ (sort : BlockSort) (last : Bool), sort.Divides →
      frames.innermost = .ofBlock sort ∨ frames.innermost = sort.branch false →
        Grows (.node (sort.branch last) [] :: frames.leaveBranch) ∧
          spread (.node (sort.branch last) [] :: frames.leaveBranch) = spread frames ++ [sort.branch last] := by
    intro sort last divides inside
    obtain ⟨grows, same⟩ := h.openBranch last divides inside
    exact ⟨grows, by rw [spread_cons, same]; simp⟩
  cases line with
  | opener sort =>
    have result : frames.enter (Line.opener sort).type = .node (.ofBlock sort) [] :: frames := by cases sort <;> rfl
    rw [result]
    exact ⟨.block (by simp) h, by simp [spread_cons, Line.type]⟩
  | closer sort =>
    obtain ⟨inner, outer, left, below, derives, same⟩ := h.leaveBranch (eq_of_beq ok)
    have result : frames.enter (Line.closer sort).type = Frames.add (.block sort inner) outer := by
      show close (.node (.closer sort) []) frames.leaveBranch = _
      rw [left]
      rfl
    rw [result]
    refine ⟨below.add derives, ?_⟩
    rw [left, spread_cons] at same
    rw [spread_add _ below.ne_nil, ← same]
    simp [Outline.block, Line.type]
  | elseIf => exact opens .ifBlock false (.inl rfl) (by simpa [admits, Line.type, NodeType.ofBlock, BlockSort.branch] using ok)
  | elseBranch => exact opens .ifBlock true (.inl rfl) (by simpa [admits, Line.type, NodeType.ofBlock, BlockSort.branch] using ok)
  | catchBranch => exact opens .tryBlock false (.inr rfl) (by simpa [admits, Line.type, NodeType.ofBlock, BlockSort.branch] using ok)
  | finallyBranch => exact opens .tryBlock true (.inr rfl) (by simpa [admits, Line.type, NodeType.ofBlock, BlockSort.branch] using ok)
  | jump verb => exact stays (.jump verb ok)
  | returnValue => exact stays (.returnValue ok)
  | echo => exact stays .echo

theorem Grows.run {last : Frames} (lines : List Line) (h : Grows frames)
    (ran : frames.run (lines.map Line.type) = some last) :
    Grows last ∧ spread last = spread frames ++ lines.map Line.type := by
  induction lines generalizing frames with
  | nil =>
    obtain rfl : frames = last := by simpa [Frames.run] using ran
    exact ⟨h, by simp⟩
  | cons line lines ih =>
    by_cases ok : frames.admits line.type = true
    · obtain ⟨grows, same⟩ := h.enter line ok
      obtain ⟨grows', same'⟩ := ih grows (by simpa [Frames.run, ok] using ran)
      exact ⟨grows', by simp [same', same]⟩
    · simp [Frames.run, ok] at ran

/-! ### Completeness -/

/-- A block on the stack with all its branches so far but for the innermost one, which may have others after it. -/
def Holds (frames : Frames) (sort : BlockSort) (inner : List Outline) (outer : Frames) : Prop :=
  frames.leaveBranch = .node (.ofBlock sort) inner :: outer ∧
    (frames.innermost = .ofBlock sort ∨ frames.innermost = sort.branch false)

/-- The machine reads an outline wherever its scope is that of the stack. -/
def Reads (scope : Scope) (o : Outline) : Prop :=
  ∀ frames : Frames, frames ≠ [] → frames.scope = scope → frames.run o.types = some (frames.add o)

theorem run_all {scope : Scope} {type : NodeType} (os : List Outline) (reads : ∀ o ∈ os, Reads scope o)
    (same : Frames.scope (.node type inner :: outer) = scope) :
    run (.node type inner :: outer) (os.flatMap Outline.types) = some (.node type (inner ++ os) :: outer) := by
  induction os generalizing inner with
  | nil => simp [run]
  | cons o os ih =>
    have first := reads o (by simp) (.node type inner :: outer) (by simp) same
    have scopes : Frames.scope (.node type (inner ++ [o]) :: outer) = scope :=
      (scope_add o (.node type inner :: outer)).trans same
    rw [List.flatMap_cons, run_append, first, Option.bind_some]
    simpa [add] using ih (fun other place => reads other (by simp [place])) scopes

theorem Holds.branch {scope : Scope} {branch : List Outline} (last : Bool) (divides : sort.Divides)
    (holds : Holds frames sort inner outer) (same : outer.scope.within sort = scope)
    (reads : ∀ o ∈ branch, Reads scope o) :
    frames.run (Outline.node (sort.branch last) branch).types =
      some (.node (sort.branch last) branch :: .node (.ofBlock sort) inner :: outer) := by
  obtain ⟨left, inside⟩ := holds
  have ok : frames.admits (sort.branch last) = true := by
    rcases divides with rfl | rfl <;> cases last <;> simpa [admits, BlockSort.branch, NodeType.ofBlock] using inside
  have result : frames.enter (sort.branch last) = .node (sort.branch last) [] :: .node (.ofBlock sort) inner :: outer := by
    rw [← left]
    cases sort <;> cases last <;> rfl
  have scopes : Frames.scope (.node (sort.branch last) [] :: .node (.ofBlock sort) inner :: outer) = scope := by
    rw [scope_branch, scope_block, same]
  simpa [run, ok, result] using run_all branch reads scopes

theorem leaveBranch_of_branch (sort : BlockSort) (last : Bool) (branch inner : List Outline) (outer : Frames) :
    leaveBranch (.node (sort.branch last) branch :: .node (.ofBlock sort) inner :: outer) =
      .node (.ofBlock sort) (inner ++ [Outline.node (sort.branch last) branch]) :: outer :=
  leaveBranch_branch sort last branch _

theorem holds_of_branch (sort : BlockSort) (branch inner : List Outline) (outer : Frames) :
    Holds (.node (sort.branch false) branch :: .node (.ofBlock sort) inner :: outer) sort
      (inner ++ [Outline.node (sort.branch false) branch]) outer :=
  ⟨leaveBranch_of_branch sort false branch inner outer, .inr rfl⟩

theorem Holds.run {scope : Scope} {middle : List (List Outline)} (divides : sort.Divides)
    (holds : Holds frames sort inner outer) (same : outer.scope.within sort = scope)
    (reads : ∀ branch ∈ middle, ∀ o ∈ branch, Reads scope o) :
    ∃ after, frames.run ((middle.map (Outline.node (sort.branch false))).flatMap Outline.types) = some after ∧
      Holds after sort (inner ++ middle.map (.node (sort.branch false))) outer := by
  induction middle generalizing frames inner with
  | nil => exact ⟨frames, rfl, by simpa using holds⟩
  | cons branch middle ih =>
    have first := holds.branch false divides same (reads branch (by simp))
    obtain ⟨after, ran, holds'⟩ :=
      ih (holds_of_branch sort branch inner outer) fun other place => reads other (by simp [place])
    refine ⟨after, ?_, by simpa using holds'⟩
    rw [List.map_cons, List.flatMap_cons, run_append, first, Option.bind_some, ran]

theorem run_closer (left : frames.leaveBranch = .node (.ofBlock sort) inner :: outer)
    (inside : frames.innermost.block? = some sort) :
    frames.run [.closer sort] = some (add (.block sort inner) outer) := by
  have ok : frames.admits (.closer sort) = true := by simpa [admits] using inside
  have result : frames.enter (.closer sort) = add (.block sort inner) outer := by
    show close (.node (.closer sort) []) frames.leaveBranch = _
    rw [left]
    rfl
  simp [run, ok, result]

theorem block?_of_inside (divides : sort.Divides)
    (inside : frames.innermost = .ofBlock sort ∨ frames.innermost = sort.branch false) :
    frames.innermost.block? = some sort := by
  rcases inside with inside | inside
  · simp [inside]
  · rw [inside, BlockSort.block?_branch false divides]

/-- A block is read from its opening command to its closing command. -/
theorem reads_block {scope : Scope} {body : List Outline} (middle : List (List Outline))
    (last : Option (List Outline)) (parts : sort.Divides ∨ middle = [] ∧ last = none)
    (inBody : ∀ o ∈ body, Reads (scope.within sort) o)
    (inMiddle : ∀ branch ∈ middle, ∀ o ∈ branch, Reads (scope.within sort) o)
    (inLast : ∀ branch ∈ last, ∀ o ∈ branch, Reads (scope.within sort) o) :
    Reads scope (.block sort
      (body ++ middle.map (.node (sort.branch false)) ++ last.toList.map (.node (sort.branch true)))) := by
  intro frames some same
  have within : (Frames.scope frames).within sort = scope.within sort := by rw [same]
  have opened : frames.run [.ofBlock sort] = Option.some (.node (.ofBlock sort) [] :: frames) := by cases sort <;> rfl
  have filled := run_all body inBody ((scope_block sort [] frames).trans within)
  rw [List.nil_append] at filled
  have holds : Holds (.node (.ofBlock sort) body :: frames) sort body frames :=
    ⟨leaveBranch_block sort body frames, .inl rfl⟩
  have lines : (Outline.block sort
      (body ++ middle.map (.node (sort.branch false)) ++ last.toList.map (.node (sort.branch true)))).types =
        [NodeType.ofBlock sort] ++ (body.flatMap Outline.types ++
          ((middle.map (Outline.node (sort.branch false))).flatMap Outline.types ++
            ((last.toList.map (Outline.node (sort.branch true))).flatMap Outline.types ++ [NodeType.closer sort]))) := by
    simp [Outline.block]
  rw [lines, run_append, opened, Option.bind_some, run_append, filled, Option.bind_some, run_append]
  rcases parts with divides | ⟨rfl, rfl⟩
  · obtain ⟨after, ran, holds'⟩ := holds.run divides within inMiddle
    rw [ran, Option.bind_some, run_append]
    cases last with
    | none =>
      have closed := run_closer holds'.1 (block?_of_inside divides holds'.2)
      simpa [run] using closed
    | some branch =>
      have finished := holds'.branch true divides within (inLast branch rfl)
      have left := leaveBranch_of_branch sort true branch (body ++ middle.map (.node (sort.branch false))) frames
      have closed := run_closer left (BlockSort.block?_branch true divides)
      have lines : [branch].map (Outline.node (sort.branch true)) = [.node (sort.branch true) branch] := rfl
      rw [Option.toList_some, lines, List.flatMap_singleton, finished, Option.bind_some, closed]
  · have closed := run_closer (leaveBranch_block sort body frames) (NodeType.block?_ofBlock sort)
    simpa [run] using closed

theorem reads_of_derives {scope : Scope} (h : Derives scope o) : Reads scope o := by
  induction h with
  | echo => exact fun frames _ _ => by simp [run, admits, enter]
  | returnValue inside =>
    intro frames _ same
    have ok : frames.admits .returnValue = true := by simpa [admits, same] using inside
    simp [run, ok, enter]
  | jump verb inside =>
    intro frames _ same
    have ok : frames.admits (.jump verb) = true := by simpa [admits, same] using inside
    simp [run, ok, enter]
  | @ifBlock scope body elseIfs otherwise _ _ _ inBody inElseIfs inElse =>
    exact reads_block elseIfs otherwise (.inl (.inl rfl)) inBody inElseIfs inElse
  | @tryBlock scope body catches final _ _ _ inBody inCatches inFinally =>
    exact reads_block catches final (.inl (.inr rfl)) inBody inCatches inFinally
  | @whileLoop scope body _ inBody => simpa using reads_block [] none (.inr ⟨rfl, rfl⟩) inBody (by simp) (by simp)
  | @forLoop scope body _ inBody => simpa using reads_block [] none (.inr ⟨rfl, rfl⟩) inBody (by simp) (by simp)
  | @function scope body _ inBody => simpa using reads_block [] none (.inr ⟨rfl, rfl⟩) inBody (by simp) (by simp)

/-! ### Scripts -/

theorem run_start_of_derivation {lines : List Line} {statements : List Outline} (h : Derivation lines statements) :
    start.run (lines.map Line.type) = some [.node .script statements] := by
  rw [← h.types]
  exact run_all statements (fun o place => reads_of_derives (h.derives o place)) rfl

theorem grows_start : Grows start :=
  .script (by simp)

theorem derivation_of_run_start {lines : List Line} {statements : List Outline}
    (ran : start.run (lines.map Line.type) = some [.node .script statements]) : Derivation lines statements := by
  obtain ⟨grows, same⟩ := grows_start.run lines ran
  generalize script : [Outline.node .script statements] = last at grows same
  cases grows with
  | script inScript =>
    obtain rfl : statements = _ := by simpa using script
    exact ⟨inScript, by simpa [spread, start] using same⟩
  | @block sort body outer inBody below =>
    obtain ⟨⟨type, -⟩, -⟩ : (NodeType.script = .ofBlock sort ∧ statements = body) ∧ outer = [] := by simpa using script
    exact absurd type.symm (NodeType.ofBlock_ne_script sort)
  | branch middle last inner divides inBody inMiddle inInner below => simp at script

theorem length_add (o : Outline) (frames : Frames) : (add o frames).length = frames.length := by
  cases frames with
  | nil => rfl
  | cons top outer => cases top; rfl

theorem length_leaveBranch (frames : Frames) : frames.leaveBranch.length ≤ frames.length := by
  cases frames with
  | nil => simp [leaveBranch]
  | cons top outer =>
    by_cases branch : top.type.isBranch = true
    · simp [leaveBranch, branch, length_add]
    · simp [leaveBranch, branch]

/-- Closing all open blocks completes a script. -/
theorem Grows.completes (h : Grows frames) :
    ∃ (rest : List Line) (statements : List Outline),
      frames.run (rest.map Line.type) = some [.node .script statements] := by
  -- the stack gets shorter with each block that is closed
  induction size : frames.length using Nat.strongRecOn generalizing frames with
  | ind n ih =>
    cases inside : frames.innermost.block? with
    | none =>
      cases h with
      | @script statements inScript => exact ⟨[], statements, rfl⟩
      | block inBody below => simp [innermost] at inside
      | branch middle last inner divides inBody inMiddle inInner below =>
        simp [innermost, BlockSort.block?_branch last divides] at inside
    | some sort =>
      obtain ⟨inner, outer, left, below, derives, -⟩ := h.leaveBranch inside
      have closed := run_closer left inside
      have shorter : (Frames.add (.block sort inner) outer).length < n := by
        have lengths := length_leaveBranch frames
        rw [left, List.length_cons] at lengths
        rw [length_add]
        omega
      obtain ⟨rest, statements, ran⟩ := ih _ shorter (below.add derives) rfl
      refine ⟨.closer sort :: rest, statements, ?_⟩
      rw [List.map_cons, ← List.singleton_append, run_append]
      simpa [Line.type, closed] using ran

theorem isSome_run_start_iff (lines : List Line) : (start.run (lines.map Line.type)).isSome = true ↔ Viable lines := by
  constructor
  · intro ran
    obtain ⟨frames, ran⟩ := Option.isSome_iff_exists.mp ran
    obtain ⟨rest, statements, completed⟩ := (grows_start.run lines ran).1.completes
    refine ⟨rest, statements, derivation_of_run_start ?_⟩
    rw [List.map_append, run_append, ran, Option.bind_some, completed]
  · rintro ⟨rest, statements, derivation⟩
    have ran := run_start_of_derivation derivation
    rw [List.map_append, run_append] at ran
    obtain ⟨frames, first, -⟩ := Option.bind_eq_some_iff.mp ran
    simp [first]

/-! ### The blocks on the stack -/

/-- The blocks on the stack, the innermost first; a branch is part of the block below it. -/
def blocks : Frames → List BlockSort
  | [] => []
  | o :: outer => if o.type.isBranch then blocks outer else o.type.block?.toList ++ blocks outer

theorem blocks_add (o : Outline) (frames : Frames) : blocks (add o frames) = blocks frames := by
  cases frames with
  | nil => rfl
  | cons top outer =>
    cases top
    rfl

theorem blocks_leaveBranch (frames : Frames) : blocks frames.leaveBranch = blocks frames := by
  cases frames with
  | nil => rfl
  | cons top outer =>
    by_cases branch : top.type.isBranch = true
    · simp [leaveBranch, blocks, branch, blocks_add]
    · simp [leaveBranch, branch]

theorem Grows.blocks_head (h : Grows frames) : (blocks frames).head? = frames.innermost.block? := by
  cases h with
  | script inScript => rfl
  | block inBody below => simp [blocks, innermost]
  | branch middle last inner divides inBody inMiddle inInner below =>
    simp [blocks, innermost, BlockSort.isBranch_branch, BlockSort.block?_branch last divides]

theorem Grows.blocks_enter (line : Line) (h : Grows frames) (ok : frames.admits line.type = true) :
    blocks (frames.enter line.type) = line.opened (blocks frames) := by
  have opened : ∀ branch : NodeType, branch.isBranch = true →
      blocks (.node branch [] :: frames.leaveBranch) = blocks frames := by
    intro branch isBranch
    rw [← blocks_leaveBranch frames]
    simp [blocks, isBranch]
  cases line with
  | opener sort => cases sort <;> rfl
  | closer sort =>
    obtain ⟨inner, outer, left, -⟩ := h.leaveBranch (eq_of_beq ok)
    have result : frames.enter (Line.closer sort).type = Frames.add (.block sort inner) outer := by
      show close (.node (.closer sort) []) frames.leaveBranch = _
      rw [left]
      rfl
    rw [result, blocks_add, ← blocks_leaveBranch frames, left]
    simp [blocks, Line.opened]
  | elseIf | elseBranch | catchBranch | finallyBranch => exact opened _ rfl
  | jump verb | returnValue | echo => exact blocks_add _ frames

theorem Grows.blocks_run {last : Frames} (lines : List Line) (h : Grows frames)
    (ran : frames.run (lines.map Line.type) = some last) :
    blocks last = lines.foldl Line.opened (blocks frames) := by
  induction lines generalizing frames with
  | nil =>
    obtain rfl : frames = last := by simpa [Frames.run] using ran
    rfl
  | cons line lines ih =>
    by_cases ok : frames.admits line.type = true
    · have grows := (h.enter line ok).1
      rw [ih grows (by simpa [Frames.run, ok] using ran), h.blocks_enter line ok, List.foldl_cons]
    · simp [Frames.run, ok] at ran

end Frames

end VimScript
