import VimScript.Proofs.Tree.Fingerprint
import VimScript.Proofs.Tree.Finished

/-!
Fingerprints without a page. The entries of a node are written out with no indent in mind: a block sets those of its
statements in by two blanks and the headings of its branches by one, and closes its last entry with a parenthesis. What
is put on a page is these entries, each after the indent of the page.
-/

set_option autoImplicit false

namespace VimScript

namespace Fingerprint

/-- The entry of a single statement, the first entry of a block, or the heading of a branch. -/
def heading : Kind Written → String
  | .comment text => ";" ++ text
  | .command _ text => "(excmd \"" ++ escapeText text ++ "\")"
  | .function _ name params defaults _ _ _ => "(function (" ++ functionHeader name params defaults ++ ")"
  | .operand verb _ value => "(" ++ verb.name ++ " " ++ value.inline ++ ")"
  | .returnValue _ none => "(return)"
  | .returnValue _ (some value) => "(return " ++ value.inline ++ ")"
  | .assign verb _ op single items rest value =>
    "(" ++ verb.name ++ " " ++ op ++ " " ++ targets single items rest ++ " " ++ value.inline ++ ")"
  | .unlet _ items => "(unlet " ++ join items ++ ")"
  | .lock verb _ none items => "(" ++ verb.name ++ " " ++ join items ++ ")"
  | .lock verb _ (some depth) items => "(" ++ verb.name ++ " " ++ toString depth ++ " " ++ join items ++ ")"
  | .ifBlock _ cond _ _ _ _ => "(if " ++ cond.inline
  | .elseIf _ cond _ => "elseif " ++ cond.inline
  | .elseBranch _ _ => "else"
  | .whileLoop _ cond _ _ => "(while " ++ cond.inline
  | .forLoop _ single items rest values _ _ => "(for " ++ targets single items rest ++ " " ++ values.inline
  | .jump verb _ => "(" ++ verb.name ++ ")"
  | .tryBlock _ _ _ _ _ => "(try"
  | .catchBranch _ (some pattern) _ => "catch /" ++ pattern ++ "/"
  | .catchBranch _ none _ => "catch"
  | .finallyBranch _ _ => "finally"
  | .echo verb _ values => "(" ++ verb.name ++ " " ++ join values ++ ")"
  | .echoHl _ text => "(echohl \"" ++ escapeText text ++ "\")"
  | kind => (expressionText kind).getD ""

/-- Entries of which the last one ends the form. -/
def closed : List String → List String
  | [] => []
  | [last] => [last ++ ")"]
  | entry :: rest => entry :: closed rest

def indented (entries : List String) : List String :=
  entries.map ("  " ++ ·)

end Fingerprint

namespace Node

open Fingerprint

def headingOf (kind : Kind Node) : String :=
  heading (kind.map ofNode)

mutual

/-- A script is its statements one after another. A block is its first entry, its body and its branches, closed at the
end. Anything else is a single entry. -/
def entries : Node → List String
  | .mk _ kind => kindEntries kind

def kindEntries : Kind Node → List String
  | .script body => bodyEntries body
  | kind@(.function _ _ _ _ _ body _) | kind@(.whileLoop _ _ body _) | kind@(.forLoop _ _ _ _ _ body _) =>
    closed (headingOf kind :: indented (bodyEntries body))
  | kind@(.ifBlock _ _ body elseIfs otherwise _) =>
    closed (headingOf kind :: indented (bodyEntries body) ++ branchesEntries elseIfs ++ lastEntries otherwise)
  | kind@(.tryBlock _ body catches final _) =>
    closed (headingOf kind :: indented (bodyEntries body) ++ branchesEntries catches ++ lastEntries final)
  | kind => [headingOf kind]

def bodyEntries : List Node → List String
  | [] => []
  | n :: ns => entries n ++ bodyEntries ns

def branchEntries : Node → List String
  | .mk _ kind => branchKindEntries kind

def branchKindEntries : Kind Node → List String
  | kind@(.elseIf _ _ body) | kind@(.elseBranch _ body) | kind@(.catchBranch _ _ body) | kind@(.finallyBranch _ body) =>
    (" " ++ headingOf kind) :: indented (bodyEntries body)
  | kind => [" " ++ headingOf kind]

def branchesEntries : List Node → List String
  | [] => []
  | n :: ns => branchEntries n ++ branchesEntries ns

def lastEntries : Option Node → List String
  | none => []
  | some n => branchEntries n

end

end Node

namespace Fingerprint

variable {f g : Page → Page} {is js ks : List String} {xs ys : List String}

/-- A step that puts the given lines on a page, whatever stands on it. -/
def Sets (f : Page → Page) (is js xs : List String) : Prop :=
  ∀ written, f ⟨is, written⟩ = ⟨js, xs.reverse ++ written⟩

/-- A step that puts the given entries on a page, each after the indent of the page, which stays as it is. -/
def Puts (f : Page → Page) (entries : List String) : Prop :=
  ∀ indent outer, Sets f (indent :: outer) (indent :: outer) (entries.map (indent ++ ·))

theorem Sets.andThen (first : Sets f is js xs) (second : Sets g js ks ys) :
    Sets (fun p => g (f p)) is ks (xs ++ ys) := by
  intro written
  simp only [first written, second _, List.reverse_append, List.append_assoc]

theorem Puts.andThen (first : Puts f xs) (second : Puts g ys) : Puts (fun p => g (f p)) (xs ++ ys) := by
  intro indent outer
  rw [List.map_append]
  exact (first indent outer).andThen (second indent outer)

theorem puts_line (text : String) : Puts (Page.line text) [text] :=
  fun _ _ _ => rfl

theorem sets_deeper (indent : String) (outer : List String) :
    Sets Page.deeper (indent :: outer) ((indent ++ "  ") :: indent :: outer) [] :=
  fun _ => rfl

theorem sets_shallower (inner indent : String) (outer : List String) :
    Sets Page.shallower (inner :: indent :: outer) (indent :: outer) [] :=
  fun _ => rfl

/-! ### Closing -/

theorem closed_concat (xs : List String) (last : String) : closed (xs ++ [last]) = xs ++ [last ++ ")"] := by
  induction xs with
  | nil => rfl
  | cons x xs ih =>
    cases xs with
    | nil => rfl
    | cons y ys => simpa [closed] using ih

/-- The parenthesis goes to the last of the lines, if there are any. -/
theorem Sets.close (h : Sets f is js xs) (some : xs ≠ []) : Sets (fun p => (f p).close) is js (closed xs) := by
  obtain ⟨front, last, rfl⟩ := List.eq_nil_or_concat xs |>.resolve_left some
  intro written
  rw [List.concat_eq_append] at h ⊢
  simp only [h written, closed_concat, List.reverse_append, List.reverse_singleton, List.cons_append,
    Page.close]

theorem closed_map (indent : String) (xs : List String) :
    closed (xs.map (indent ++ ·)) = (closed xs).map (indent ++ ·) := by
  rcases List.eq_nil_or_concat xs with rfl | ⟨front, last, rfl⟩
  · rfl
  · simp [closed_concat, String.append_assoc]

theorem Puts.close (h : Puts f xs) (some : xs ≠ []) : Puts (fun p => (f p).close) (closed xs) := by
  intro indent outer
  rw [← closed_map]
  exact (h indent outer).close (by simpa using some)

/-! ### Indenting -/

theorem map_indented (indent : String) (xs : List String) :
    (indented xs).map (indent ++ ·) = xs.map (indent ++ "  " ++ ·) := by
  simp [indented, String.append_assoc]

/-- What is put on a page at a deeper indent is set in. -/
theorem Puts.inside (h : Puts f xs) (indent : String) (outer : List String) :
    Sets f ((indent ++ "  ") :: indent :: outer) ((indent ++ "  ") :: indent :: outer)
      ((indented xs).map (indent ++ ·)) := by
  rw [map_indented]
  exact h (indent ++ "  ") (indent :: outer)

/-! ### Blocks -/

theorem writeAll_puts {ns : List Node} (each : ∀ n ∈ ns, Puts (ofNode n).write n.entries) :
    Puts (writeAll (ns.map ofNode)) (Node.bodyEntries ns) := by
  induction ns with
  | nil => exact fun _ _ _ => rfl
  | cons n ns ih =>
    have rest := ih fun m place => each m (List.mem_cons_of_mem n place)
    exact (each n List.mem_cons_self).andThen rest

theorem block_puts {ns : List Node} (body : Puts (writeAll (ns.map ofNode)) xs) (header : String) :
    Puts (fun p => block (ns.map ofNode) (p.line header)) (closed (header :: indented xs)) := by
  intro indent outer
  have opened := (puts_line header indent outer).andThen (sets_deeper indent outer)
  have filled := opened.andThen (body.inside indent outer)
  have ended := (filled.close (by simp)).andThen (sets_shallower (indent ++ "  ") indent outer)
  have lines : closed ((header :: indented xs).map (indent ++ ·)) =
      closed ([header].map (indent ++ ·) ++ [] ++ (indented xs).map (indent ++ ·)) ++ [] := by simp
  rw [← closed_map, lines]
  exact ended

/-- The header of a branch and the way its statements are written come to the entries of the branch. -/
def BranchPuts (found : Option Branch) (entries : List String) : Prop :=
  ∃ b ∈ found, ∃ body, entries = b.header :: indented body ∧ Puts b.body body

theorem branches_puts {pick : Written → Option Branch} {ns : List Node}
    (each : ∀ n ∈ ns, BranchPuts (pick (ofNode n)) n.branchEntries) :
    Puts (branches ((ns.map ofNode).map pick)) (Node.branchesEntries ns) := by
  induction ns with
  | nil => exact fun _ _ _ => rfl
  | cons n ns ih =>
    obtain ⟨b, found, body, same, puts⟩ := each n List.mem_cons_self
    have rest := ih fun m place => each m (List.mem_cons_of_mem n place)
    have first : Puts (fun p => (b.body (p.line b.header).deeper).shallower) n.branchEntries := by
      intro indent outer
      have opened := (puts_line b.header indent outer).andThen (sets_deeper indent outer)
      have filled := opened.andThen (puts.inside indent outer)
      have ended := filled.andThen (sets_shallower (indent ++ "  ") indent outer)
      rw [same]
      simpa using ended
    have split : branches (((n :: ns).map ofNode).map pick) =
        fun p => branches ((ns.map ofNode).map pick) (b.body (p.line b.header).deeper).shallower := by
      funext p
      simp [branches, Option.mem_def.mp found]
    rw [split]
    exact first.andThen rest

/-- Inside a block each branch steps out for its header. -/
theorem innerBranches_sets {pick : Written → Option Branch} {ns : List Node}
    (each : ∀ n ∈ ns, BranchPuts (pick (ofNode n)) n.branchEntries) (indent : String) (outer : List String) :
    Sets (innerBranches ((ns.map ofNode).map pick)) ((indent ++ "  ") :: indent :: outer)
      ((indent ++ "  ") :: indent :: outer) ((Node.branchesEntries ns).map (indent ++ ·)) := by
  induction ns with
  | nil => exact fun _ => rfl
  | cons n ns ih =>
    obtain ⟨b, found, body, same, puts⟩ := each n List.mem_cons_self
    have rest := ih fun m place => each m (List.mem_cons_of_mem n place)
    have header := (sets_shallower (indent ++ "  ") indent outer).andThen (puts_line b.header indent outer)
    have opened := header.andThen (sets_deeper indent outer)
    have first := opened.andThen (puts.inside indent outer)
    have split : innerBranches (((n :: ns).map ofNode).map pick) =
        fun p => innerBranches ((ns.map ofNode).map pick) (b.body (p.shallower.line b.header).deeper) := by
      funext p
      simp [innerBranches, Option.mem_def.mp found]
    rw [split, Node.branchesEntries, same]
    simpa using first.andThen rest

theorem ifBlock_puts {body elseIfs : List Node} {otherwise : Option Node}
    (inBody : Puts (writeAll (body.map ofNode)) xs)
    (inElseIfs : ∀ n ∈ elseIfs, BranchPuts (ofNode n).elseIf n.branchEntries)
    (inOtherwise : ∀ n ∈ otherwise, BranchPuts (ofNode n).otherwise n.branchEntries) (header : String) :
    Puts (fun p => (branches [(otherwise.map ofNode).bind Written.otherwise]
      (branches ((elseIfs.map ofNode).map Written.elseIf)
        (writeAll (body.map ofNode) (p.line header).deeper).shallower)).close)
      (closed (header :: indented xs ++ Node.branchesEntries elseIfs ++ Node.lastEntries otherwise)) := by
  have first : Puts (fun p => (writeAll (body.map ofNode) (p.line header).deeper).shallower)
      (header :: indented xs) := by
    intro indent outer
    have opened := (puts_line header indent outer).andThen (sets_deeper indent outer)
    have filled := opened.andThen (inBody.inside indent outer)
    simpa using filled.andThen (sets_shallower (indent ++ "  ") indent outer)
  have last : Puts (branches [(otherwise.map ofNode).bind Written.otherwise]) (Node.lastEntries otherwise) := by
    cases otherwise with
    | none => exact fun _ _ _ => rfl
    | some n =>
      have each : ∀ m ∈ [n], BranchPuts (ofNode m).otherwise m.branchEntries := by simpa using inOtherwise
      simpa [Node.branchesEntries, Node.lastEntries] using branches_puts each
  exact ((first.andThen (branches_puts inElseIfs)).andThen last).close (by simp)

theorem tryBlock_puts {body catches : List Node} {final : Option Node}
    (inBody : Puts (writeAll (body.map ofNode)) xs)
    (inCatches : ∀ n ∈ catches, BranchPuts (ofNode n).catching n.branchEntries)
    (inFinal : ∀ n ∈ final, BranchPuts (ofNode n).final n.branchEntries) (header : String) :
    Puts (fun p => (innerBranches [(final.map ofNode).bind Written.final]
      (innerBranches ((catches.map ofNode).map Written.catching)
        (writeAll (body.map ofNode) (p.line header).deeper))).close.shallower)
      (closed (header :: indented xs ++ Node.branchesEntries catches ++ Node.lastEntries final)) := by
  intro indent outer
  have opened := (puts_line header indent outer).andThen (sets_deeper indent outer)
  have filled := opened.andThen (inBody.inside indent outer)
  have caught := filled.andThen (innerBranches_sets inCatches indent outer)
  have last : Sets (innerBranches [(final.map ofNode).bind Written.final]) ((indent ++ "  ") :: indent :: outer)
      ((indent ++ "  ") :: indent :: outer) ((Node.lastEntries final).map (indent ++ ·)) := by
    cases final with
    | none => exact fun _ => rfl
    | some n =>
      have each : ∀ m ∈ [n], BranchPuts (ofNode m).final m.branchEntries := by simpa using inFinal
      simpa [Node.branchesEntries, Node.lastEntries] using innerBranches_sets each indent outer
  have ended := ((caught.andThen last).close (by simp)).andThen (sets_shallower (indent ++ "  ") indent outer)
  rw [List.append_nil] at ended
  rw [← closed_map]
  simpa using ended

end Fingerprint

namespace Node

open Fingerprint

/-! ### Trees -/

/-- What is written of a node by itself. Branches and closing commands are written by the block they belong to. -/
def ownEntries (n : Node) : List String :=
  if n.type.isBranch || n.type.isCloser then [] else n.entries

/-- What is written of a node, by itself and as a branch, comes to its entries. -/
structure WrittenByEntries (n : Node) : Prop where
  own : Puts (ofNode n).write n.ownEntries
  elseIf : n.type = .elseIf → BranchPuts (ofNode n).elseIf n.branchEntries
  otherwise : n.type = .elseBranch → BranchPuts (ofNode n).otherwise n.branchEntries
  catching : n.type = .catchBranch → BranchPuts (ofNode n).catching n.branchEntries
  final : n.type = .finallyBranch → BranchPuts (ofNode n).final n.branchEntries

variable {n : Node} {position : Position} {kind : Kind Node}

/-- A statement is written by itself. -/
theorem ownEntries_of_isStatement (type : n.type.isStatement = true) : n.ownEntries = n.entries := by
  rw [ownEntries, if_neg]
  intro other
  simp [NodeType.isStatement] at type
  simp [type] at other

theorem bodyEntries_puts (slots : kind.slots.Typed) (below : ∀ c ∈ kind.children, c.WrittenByEntries) :
    Puts (writeAll (kind.slots.body.map ofNode)) (bodyEntries kind.slots.body) := by
  apply writeAll_puts
  intro c place
  have own := (below c (by simp [Kind.children_eq, Slots.all, place])).own
  rwa [ownEntries_of_isStatement (slots.body c place)] at own

theorem write_mk (position : Position) (kind : Kind Node) :
    (ofNode (mk position kind)).write = Fingerprint.statement (kind.map ofNode) := by
  rw [ofNode, fold_mk]
  cases kind <;> rfl

theorem own_puts (slots : kind.slots.Typed) (below : ∀ c ∈ kind.children, c.WrittenByEntries) :
    Puts (Fingerprint.statement (kind.map ofNode)) (mk position kind).ownEntries := by
  have body := bodyEntries_puts slots below
  cases kind with
  | script ns => exact body
  | function inv name params defaults flags ns close => exact block_puts body _
  | whileLoop inv cond ns close => exact block_puts body _
  | forLoop inv one items rest values ns close => exact block_puts body _
  | ifBlock inv cond ns elseIfs otherwise close =>
    refine ifBlock_puts body (fun c place => ?_) (fun c place => ?_) _
    · exact (below c (by simp [Kind.children, place])).elseIf (slots.elseIfs c place)
    · exact (below c (by simp_all [Kind.children])).otherwise (slots.otherwise c place)
  | tryBlock inv ns catches final close =>
    refine tryBlock_puts body (fun c place => ?_) (fun c place => ?_) _
    · exact (below c (by simp [Kind.children, place])).catching (slots.catches c place)
    · exact (below c (by simp_all [Kind.children])).final (slots.final c place)
  | closer | elseIf | elseBranch | catchBranch | finallyBranch => exact fun _ _ _ => rfl
  | returnValue inv value => cases value <;> exact puts_line _
  | lock verb inv depth targets => cases depth <;> exact puts_line _
  | _ => exact puts_line _

theorem writtenByEntries_mk (slots : kind.slots.Typed) (below : ∀ c ∈ kind.children, c.WrittenByEntries) :
    (mk position kind).WrittenByEntries := by
  have body := bodyEntries_puts slots below
  refine ⟨?_, fun type => ?_, fun type => ?_, fun type => ?_, fun type => ?_⟩
  · rw [write_mk]
    exact own_puts slots below
  · cases kind <;> cases type
    exact ⟨_, by rw [ofNode, fold_mk]; rfl, _, rfl, body⟩
  · cases kind <;> cases type
    exact ⟨_, by rw [ofNode, fold_mk]; rfl, _, rfl, body⟩
  · cases kind <;> cases type
    rename_i pattern ns
    cases pattern <;> exact ⟨_, by rw [ofNode, fold_mk]; rfl, _, rfl, body⟩
  · cases kind <;> cases type
    exact ⟨_, by rw [ofNode, fold_mk]; rfl, _, rfl, body⟩

theorem Finished.writtenByEntries {above : List NodeType} (h : n.Finished above) : n.WrittenByEntries := by
  induction h with
  | @intro above n script closed slots jump returnValue children ih =>
    obtain ⟨position, kind⟩ := n
    exact writtenByEntries_mk slots ih

/-- On an empty page there is nothing but the entries. -/
theorem WrittenByEntries.fingerprint (h : n.WrittenByEntries) : n.fingerprint = n.ownEntries := by
  have page := h.own "" [] []
  have bare : n.ownEntries.map ("" ++ ·) = n.ownEntries := by simp
  rw [bare, List.append_nil] at page
  rw [Node.fingerprint, Page.lines]
  exact (congrArg (fun p => p.written.reverse) page).trans (List.reverse_reverse _)

end Node

end VimScript
