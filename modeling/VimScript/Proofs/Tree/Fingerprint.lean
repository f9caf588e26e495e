import VimScript.Fingerprint
import VimScript.Proofs.Tree.Fold

/-!
Fingerprints. A statement is written after the lines that stand on the page, whatever they are, so the fingerprint of a
script is that of its first statements followed by that of the others. Positions and invocations leave no trace in it.
-/

set_option autoImplicit false

namespace VimScript

namespace Fingerprint

variable {f g : Page → Page} {is js ks : List String}

/-- A step that puts lines on a page, the same whatever stands on it, and leaves the given indents. -/
def Writes (f : Page → Page) (is js : List String) : Prop :=
  ∃ lines, ∀ written, f ⟨is, written⟩ = ⟨js, lines ++ written⟩

/-- At least one line is written. -/
def Starts (f : Page → Page) (is js : List String) : Prop :=
  ∃ line lines, ∀ written, f ⟨is, written⟩ = ⟨js, line :: lines ++ written⟩

/-- A step that writes a whole form, at any indent. -/
def WritesForm (f : Page → Page) : Prop :=
  ∀ indent outer, Writes f (indent :: outer) (indent :: outer)

theorem Starts.writes (h : Starts f is js) : Writes f is js := by
  obtain ⟨line, lines, step⟩ := h
  exact ⟨line :: lines, step⟩

theorem Writes.andThen (first : Writes f is js) (second : Writes g js ks) : Writes (fun p => g (f p)) is ks := by
  obtain ⟨xs, one⟩ := first
  obtain ⟨ys, two⟩ := second
  exact ⟨ys ++ xs, fun written => by simp only [one, two, List.append_assoc]⟩

theorem Starts.andThen (first : Starts f is js) (second : Writes g js ks) : Starts (fun p => g (f p)) is ks := by
  obtain ⟨x, xs, one⟩ := first
  obtain ⟨ys, two⟩ := second
  cases ys with
  | nil => exact ⟨x, xs, fun written => by simp only [one, two, List.nil_append]⟩
  | cons y ys =>
    exact ⟨y, ys ++ x :: xs, fun written => by simp only [one, two, List.cons_append, List.append_assoc]⟩

/-- There is a line to put the parenthesis on. -/
theorem Starts.close (h : Starts f is js) : Starts (fun p => (f p).close) is js := by
  obtain ⟨line, lines, step⟩ := h
  exact ⟨line ++ ")", lines, fun written => by simp only [step]; rfl⟩

theorem starts_line (text indent : String) (outer : List String) :
    Starts (Page.line text) (indent :: outer) (indent :: outer) :=
  ⟨indent ++ text, [], fun _ => rfl⟩

theorem writes_deeper (indent : String) (outer : List String) :
    Writes Page.deeper (indent :: outer) ((indent ++ "  ") :: indent :: outer) :=
  ⟨[], fun _ => rfl⟩

theorem writes_shallower (inner indent : String) (outer : List String) :
    Writes Page.shallower (inner :: indent :: outer) (indent :: outer) :=
  ⟨[], fun _ => rfl⟩

theorem writes_foldl {α : Type} {step : Page → α → Page} (xs : List α) (each : ∀ x ∈ xs, Writes (step · x) is is) :
    Writes (fun p => xs.foldl step p) is is := by
  induction xs with
  | nil => exact ⟨[], fun _ => rfl⟩
  | cons x xs ih =>
    have rest := ih fun y place => each y (List.mem_cons_of_mem x place)
    exact (each x List.mem_cons_self).andThen rest

/-- Everything a node is written by writes whole forms. -/
structure Written.Sound (n : Written) : Prop where
  write : WritesForm n.write
  elseIf : ∀ b ∈ n.elseIf, WritesForm b.body
  otherwise : ∀ b ∈ n.otherwise, WritesForm b.body
  catching : ∀ b ∈ n.catching, WritesForm b.body
  final : ∀ b ∈ n.final, WritesForm b.body

/-- A node that is no branch is written by its own form alone. -/
theorem Written.Sound.of_form {n : Written} (write : WritesForm n.write) (elseIf : n.elseIf = none)
    (otherwise : n.otherwise = none) (catching : n.catching = none) (final : n.final = none) : n.Sound where
  write := write
  elseIf := by simp [elseIf]
  otherwise := by simp [otherwise]
  catching := by simp [catching]
  final := by simp [final]

theorem writeAll_writes {nodes : List Written} (sound : ∀ n ∈ nodes, n.Sound) : WritesForm (writeAll nodes) :=
  fun indent outer => writes_foldl nodes fun n place => (sound n place).write indent outer

/-- The body of a block under its first line. -/
theorem block_starts {body : List Written} (sound : ∀ n ∈ body, n.Sound) (header indent : String) (outer : List String) :
    Starts (fun p => block body (p.line header)) (indent :: outer) (indent :: outer) := by
  have opened := (starts_line header indent outer).andThen (writes_deeper indent outer)
  have filled := opened.andThen (writeAll_writes sound (indent ++ "  ") (indent :: outer))
  have closed := filled.close.andThen (writes_shallower (indent ++ "  ") indent outer)
  exact closed

theorem branches_writes {found : List (Option Branch)} (sound : ∀ b, some b ∈ found → WritesForm b.body) :
    WritesForm (branches found) := by
  intro indent outer
  apply writes_foldl
  intro b place
  have body := sound b (by simpa using place)
  have opened := (starts_line b.header indent outer).andThen (writes_deeper indent outer)
  have filled := opened.andThen (body (indent ++ "  ") (indent :: outer))
  exact (filled.andThen (writes_shallower (indent ++ "  ") indent outer)).writes

theorem innerBranches_writes {found : List (Option Branch)} (sound : ∀ b, some b ∈ found → WritesForm b.body)
    (indent : String) (outer : List String) :
    Writes (innerBranches found) ((indent ++ "  ") :: indent :: outer) ((indent ++ "  ") :: indent :: outer) := by
  apply writes_foldl
  intro b place
  have body := sound b (by simpa using place)
  have header := (writes_shallower (indent ++ "  ") indent outer).andThen (starts_line b.header indent outer).writes
  have opened := header.andThen (writes_deeper indent outer)
  exact opened.andThen (body (indent ++ "  ") (indent :: outer))

theorem ifBlock_starts {body elseIfs : List Written} {otherwise : Option Written} (inBody : ∀ n ∈ body, n.Sound)
    (inElseIfs : ∀ n ∈ elseIfs, n.Sound) (inOtherwise : ∀ n ∈ otherwise, n.Sound) (header indent : String)
    (outer : List String) :
    Starts (fun p => (branches [otherwise.bind Written.otherwise] (branches (elseIfs.map Written.elseIf)
      (writeAll body (p.line header).deeper).shallower)).close) (indent :: outer) (indent :: outer) := by
  have opened := (starts_line header indent outer).andThen (writes_deeper indent outer)
  have filled := opened.andThen (writeAll_writes inBody (indent ++ "  ") (indent :: outer))
  have first := filled.andThen (writes_shallower (indent ++ "  ") indent outer)
  have middle : WritesForm (branches (elseIfs.map Written.elseIf)) := by
    apply branches_writes
    intro b place
    obtain ⟨n, inside, same⟩ := List.mem_map.mp place
    exact (inElseIfs n inside).elseIf b same
  have last : WritesForm (branches [otherwise.bind Written.otherwise]) := by
    apply branches_writes
    intro b place
    obtain ⟨n, inside, same⟩ := Option.bind_eq_some_iff.mp (List.mem_singleton.mp place).symm
    exact (inOtherwise n inside).otherwise b same
  exact ((first.andThen (middle indent outer)).andThen (last indent outer)).close

theorem tryBlock_starts {body catches : List Written} {final : Option Written} (inBody : ∀ n ∈ body, n.Sound)
    (inCatches : ∀ n ∈ catches, n.Sound) (inFinal : ∀ n ∈ final, n.Sound) (header indent : String)
    (outer : List String) :
    Starts (fun p => (innerBranches [final.bind Written.final] (innerBranches (catches.map Written.catching)
      (writeAll body (p.line header).deeper))).close.shallower) (indent :: outer) (indent :: outer) := by
  have opened := (starts_line header indent outer).andThen (writes_deeper indent outer)
  have filled := opened.andThen (writeAll_writes inBody (indent ++ "  ") (indent :: outer))
  have middle : ∀ b, some b ∈ catches.map Written.catching → WritesForm b.body := by
    intro b place
    obtain ⟨n, inside, same⟩ := List.mem_map.mp place
    exact (inCatches n inside).catching b same
  have last : ∀ b, some b ∈ [final.bind Written.final] → WritesForm b.body := by
    intro b place
    obtain ⟨n, inside, same⟩ := Option.bind_eq_some_iff.mp (List.mem_singleton.mp place).symm
    exact (inFinal n inside).final b same
  have caught := filled.andThen (innerBranches_writes middle indent outer)
  have ended := caught.andThen (innerBranches_writes last indent outer)
  exact ended.close.andThen (writes_shallower (indent ++ "  ") indent outer)

theorem statement_writes {kind : Kind Written} (sound : ∀ n ∈ kind.children, n.Sound) : WritesForm (statement kind) := by
  intro indent outer
  have line (text : String) : Writes (Page.line text) (indent :: outer) (indent :: outer) :=
    (starts_line text indent outer).writes
  have nothing : Writes (fun p => p) (indent :: outer) (indent :: outer) := ⟨[], fun _ => rfl⟩
  cases kind with
  | script body => exact writeAll_writes sound indent outer
  | function inv name params defaults flags body close =>
    have inBody : ∀ n ∈ body, n.Sound := fun n place => sound n (by simp [Kind.children, place])
    exact (block_starts inBody _ indent outer).writes
  | whileLoop inv cond body close =>
    have inBody : ∀ n ∈ body, n.Sound := fun n place => sound n (by simp [Kind.children, place])
    exact (block_starts inBody _ indent outer).writes
  | forLoop inv single items rest values body close =>
    have inBody : ∀ n ∈ body, n.Sound := fun n place => sound n (by simp [Kind.children, place])
    exact (block_starts inBody _ indent outer).writes
  | ifBlock inv cond body elseIfs otherwise close =>
    have inBody : ∀ n ∈ body, n.Sound := fun n place => sound n (by simp [Kind.children, place])
    have inElseIfs : ∀ n ∈ elseIfs, n.Sound := fun n place => sound n (by simp [Kind.children, place])
    have inOtherwise : ∀ n ∈ otherwise, n.Sound := fun n place => sound n (by simp_all [Kind.children])
    exact (ifBlock_starts inBody inElseIfs inOtherwise _ indent outer).writes
  | tryBlock inv body catches final close =>
    have inBody : ∀ n ∈ body, n.Sound := fun n place => sound n (by simp [Kind.children, place])
    have inCatches : ∀ n ∈ catches, n.Sound := fun n place => sound n (by simp [Kind.children, place])
    have inFinal : ∀ n ∈ final, n.Sound := fun n place => sound n (by simp_all [Kind.children])
    exact (tryBlock_starts inBody inCatches inFinal _ indent outer).writes
  | closer block inv => exact nothing
  | elseIf inv cond body => exact nothing
  | elseBranch inv body => exact nothing
  | catchBranch inv pattern body => exact nothing
  | finallyBranch inv body => exact nothing
  | returnValue inv value => cases value <;> exact line _
  | lock verb inv depth targets => cases depth <;> exact line _
  | _ => exact line _

theorem ofKind_sound {kind : Kind Written} (sound : ∀ n ∈ kind.children, n.Sound) : (ofKind kind).Sound := by
  have plain : WritesForm (statement kind) := statement_writes sound
  cases kind with
  | elseIf inv cond body =>
    have inBody : ∀ n ∈ body, n.Sound := fun n place => sound n (by simp [Kind.children, place])
    exact {
      write := plain
      elseIf := by rintro _ ⟨⟩; exact writeAll_writes inBody
      otherwise := by rintro _ ⟨⟩
      catching := by rintro _ ⟨⟩
      final := by rintro _ ⟨⟩ }
  | elseBranch inv body =>
    exact {
      write := plain
      elseIf := by rintro _ ⟨⟩
      otherwise := by rintro _ ⟨⟩; exact writeAll_writes sound
      catching := by rintro _ ⟨⟩
      final := by rintro _ ⟨⟩ }
  | catchBranch inv pattern body =>
    exact {
      write := plain
      elseIf := by rintro _ ⟨⟩
      otherwise := by rintro _ ⟨⟩
      catching := by rintro _ ⟨⟩; exact writeAll_writes sound
      final := by rintro _ ⟨⟩ }
  | finallyBranch inv body =>
    exact {
      write := plain
      elseIf := by rintro _ ⟨⟩
      otherwise := by rintro _ ⟨⟩
      catching := by rintro _ ⟨⟩
      final := by rintro _ ⟨⟩; exact writeAll_writes sound }
  | _ => exact .of_form plain rfl rfl rfl rfl

theorem ofNode_sound (n : Node) : (ofNode n).Sound :=
  Node.fold_induction (fun _ _ sound => ofKind_sound sound) n

theorem statement_mapInvocation (g : Invocation → Invocation) (kind : Kind Written) :
    statement (kind.mapInvocation g) = statement kind := by
  funext p
  cases kind with
  | returnValue inv value => cases value <;> rfl
  | lock verb inv depth targets => cases depth <;> rfl
  | _ => rfl

theorem expressionText_mapInvocation (g : Invocation → Invocation) (kind : Kind Written) :
    expressionText (kind.mapInvocation g) = expressionText kind := by
  cases kind <;> rfl

theorem ofKind_mapInvocation (g : Invocation → Invocation) (kind : Kind Written) :
    ofKind (kind.mapInvocation g) = ofKind kind := by
  simp only [ofKind, statement_mapInvocation, expressionText_mapInvocation]
  cases kind <;> rfl

/-- A tree is written as it is seen. -/
theorem ofNode_seen (v : Sight) (n : Node) : ofNode (n.seen v) = ofNode n :=
  Node.fold_seen (fun _ _ g kind => ofKind_mapInvocation g kind) v n

end Fingerprint

namespace Node

open Fingerprint

variable {p : Position} {xs ys : List Node}

theorem fingerprint_script (position : Position) (body : List Node) :
    (mk position (.script body)).fingerprint = (writeAll (body.map ofNode) {}).lines := by
  rw [fingerprint, ofNode, fold_mk]
  rfl

theorem fingerprint_script_append (position position' position'' : Position) (xs ys : List Node) :
    (mk position (.script (xs ++ ys))).fingerprint =
      (mk position' (.script xs)).fingerprint ++ (mk position'' (.script ys)).fingerprint := by
  have sound (body : List Node) : ∀ n ∈ body.map ofNode, n.Sound := by
    intro n place
    obtain ⟨m, -, rfl⟩ := List.mem_map.mp place
    exact ofNode_sound m
  obtain ⟨first, one⟩ := writeAll_writes (sound xs) "" []
  obtain ⟨second, two⟩ := writeAll_writes (sound ys) "" []
  have both : writeAll ((xs ++ ys).map ofNode) ⟨[""], []⟩ = ⟨[""], second ++ (first ++ [])⟩ := by
    rw [← two, ← one, List.map_append, writeAll, List.foldl_append]
    rfl
  simp only [fingerprint_script, both, one, two, Page.lines]
  simp

/-- Scripts whose statements look the same have one fingerprint. -/
theorem fingerprint_script_of_seen {v v' : Sight} (position position' : Position)
    (same : xs.map (seen v) = ys.map (seen v')) :
    (mk position (.script xs)).fingerprint = (mk position' (.script ys)).fingerprint := by
  have written := congrArg (List.map ofNode) same
  simp only [List.map_map, Function.comp_def, ofNode_seen] at written
  rw [fingerprint_script, fingerprint_script]
  exact congrArg (fun found => (writeAll found {}).lines) written

end Node

end VimScript
