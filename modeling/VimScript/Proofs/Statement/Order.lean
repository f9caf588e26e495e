import VimScript.Proofs.Blocks.Order
import VimScript.Proofs.Expr.WellFormed
import VimScript.Proofs.Statement.Heads

/-!
The order in which a statement hands its nodes over. They come in the order of the source, from where the statement
starts up to where it ends; the comment after a heredoc's marker alone is handed over before the assignment it follows.
-/

set_option autoImplicit false

namespace VimScript

/-- The cursor after the last one that a statement before the given cursor can have; at the end of the buffer a
statement without characters may stand. -/
def Source.beyond (s : Source) (j : Nat) : Nat :=
  if j < s.size then j else j + 1

theorem Source.le_beyond (s : Source) (j : Nat) : j ≤ s.beyond j := by
  unfold beyond
  split <;> omega

theorem Source.beyond_of_lt {s : Source} {j : Nat} (h : j < s.size) : s.beyond j = j :=
  if_pos h

namespace Statement

open Overlap Scan
open Blocks (Rises)

variable {s : Source} {setting : Setting} {blocks : Blocks} {inv : Invocation} {edits : List Edit} {i j k : Nat}

/-! ### Comments -/

/-- No statement, or a comment between two cursors. -/
def Commented (i : Nat) (ns : List Node) (j : Nat) : Prop :=
  ns = [] ∨ ∃ c, ns = [c] ∧ c.type = .comment ∧ i ≤ c.position.cursor ∧ c.position.cursor < j

theorem Commented.inOrder {ns : List Node} (h : Commented i ns j) (bound : i ≤ j) : InOrder i ns j := by
  rcases h with rfl | ⟨c, rfl, -, later, before⟩
  · exact .nil bound
  · exact (InOrder.single later).mono (Nat.le_refl i) before

theorem Commented.headed {ns : List Node} (h : Commented i ns j) : ∀ n ∈ ns, n.label.Headed := by
  rcases h with rfl | ⟨c, rfl, comment, -, -⟩
  · simp
  · intro n place inv known
    obtain rfl := List.mem_singleton.mp place
    obtain ⟨position, kind⟩ := n
    cases kind <;> simp [Node.type, Kind.nodeType] at comment
    simp [Node.label, Node.invocation?, Kind.invocation?] at known

theorem Commented.from {ns : List Node} (h : Commented j ns k) (later : i ≤ j) : Commented i ns k :=
  h.imp_right fun ⟨c, same, comment, after, before⟩ => ⟨c, same, comment, Nat.le_trans later after, before⟩

theorem comment_gives (more : i < s.size) :
    comment.Gives s i fun edits j => ∃ c, edits = [.add c] ∧ c.type = .comment ∧ c.position.cursor = i ∧ i < j := by
  refine .after (here_apply s i) (.after (skip_apply 1 s i) (.onward more fun text j later _ => ?_))
  exact .pure ⟨_, rfl, rfl, rfl, later⟩

theorem trail_gives (bound : i ≤ s.size) :
    trail.Gives s i fun edits j => ∃ ns, edits = ns.map .add ∧ Commented i ns j ∧ i ≤ j ∧ j ≤ s.size ∧
      (i < s.size → i < j) := by
  have commented : trail.Gives s i fun edits j => ∃ ns, edits = ns.map .add ∧ Commented i ns j := by
    refine .onward bound fun _ k later _ => .step fun c l peeked => ?_
    obtain ⟨rfl, rfl⟩ := Reply.ok.inj peeked
    split
    · exact .pure ⟨[], rfl, .inl rfl⟩
    · exact .step fun _ _ _ => .pure ⟨[], rfl, .inl rfl⟩
    · exact .step fun _ _ _ => .pure ⟨[], rfl, .inl rfl⟩
    · rename_i quote
      have more : k < s.size := (Array.getElem?_eq_some_iff.mp quote).1
      refine (comment_gives more).bind ?_
      rintro edits l ⟨c, rfl, comment, place, before⟩
      refine (next_onward s l).bind fun _ m later' => ?_
      exact .pure ⟨[c], rfl, .inr ⟨c, rfl, comment, by omega, by omega⟩⟩
    · exact .failHere
  intro edits j run
  obtain ⟨ns, same, kept⟩ := commented edits j run
  obtain ⟨-, -, -, within, later, moved⟩ := (trail_follows (inside_whole bound)).of_whole run
  have length : (whole s).text.length = s.size := length_whole s
  exact ⟨ns, same, kept, later, by omega, fun more => moved (by omega)⟩

/-! ### What a command makes -/

/-- The edits of a command: its own, or that of a heredoc behind the comment that was read with it, if there was one. -/
inductive Made (inv : Invocation) (i : Nat) : List Edit → Nat → Prop where
  | single {edits : List Edit} {j : Nat} (heads : Heads inv edits) : Made inv i edits j
  | heredoc {ns : List Node} {n : Node} {j : Nat} (comment : Commented i ns j) (assigns : n.AssignsHeredoc)
      (position : n.position = inv.commandPos) (known : n.invocation? = some inv) :
      Made inv i (ns.map .add ++ [.add n]) j

theorem Made.mono (h : Made inv j edits k) (later : i ≤ j) : Made inv i edits k := by
  cases h with
  | single heads => exact .single heads
  | heredoc comment assigns position known => exact .heredoc (comment.from later) assigns position known

theorem heredoc_gives (bound : i ≤ s.size) :
    (heredoc inv).Gives s i fun found j => found.1.type = .heredoc ∧
      ∃ ns, found.2 = ns.map .add ∧ Commented i ns j := by
  refine .onward bound fun head k later within => .ite (fun _ => ?_) fun _ => ?_
  · exact .stop .failHere
  · refine (trail_gives within).bind ?_
    rintro edits l ⟨ns, rfl, commented, later', within', -⟩
    have length : (whole s).text.length = s.size := length_whole s
    have marked := markedLines_follows (w := whole s) (p := l) head.2 (by omega) (.inl ⟨rfl, id⟩)
    refine (Gives.of_kept marked).bind ?_
    rintro lines m ⟨later'', -⟩
    refine .pure ⟨rfl, ns, rfl, ?_⟩
    rcases commented with rfl | ⟨c, rfl, comment, after, before⟩
    · exact .inl rfl
    · exact .inr ⟨c, rfl, comment, by omega, by omega⟩

theorem letCommand_made (bound : i ≤ s.size) : (letCommand inv).Gives s i (Made inv i) := by
  -- Apart from a heredoc no value comes with a comment.
  have plain {x : Scan (List Edit)} (h : Headed inv x) (k : Nat) : x.Gives s k (Made inv i) :=
    fun edits j run => .single (h.of_ok run)
  have listed (k l : Nat) : Gives (do Scan.seek k; raw inv) s l (Made inv i) := plain (.past fun _ => raw_headed) l
  have value (n k : Nat) (op : String) (left : Targets Node) : Gives (do
      let _ ← Scan.take n
      let value ← Expr.read
      return [assignment .letVar inv op left value]) s k (Made inv i) := by
    refine .step fun _ l _ => (Expr.read_wellFormed s l).bind fun value _ formed => ?_
    refine .pure (.single ⟨_, rfl, rfl, rfl, ?_⟩)
    rintro ⟨_, _, _, _, _, _, ⟨⟩, heredoc⟩
    exact formed.type.2.2 heredoc
  refine .after (tell_apply s i) (.onward bound fun _ k₁ later₁ within₁ => .step fun c _ peeked => ?_)
  obtain ⟨-, rfl⟩ := Reply.ok.inj peeked
  refine .ite (fun _ => listed i k₁) fun _ => ?_
  have left := targets_follows (fun _ => target_follows) (inside_whole within₁)
  refine (Gives.of_kept left).bind ?_
  rintro left k₂ ⟨later₂, within₂⟩
  refine .onward within₂ fun _ k₃ later₃ within₃ => .onward within₃ fun short k₄ later₄ within₄ => ?_
  refine .onward within₄ fun long k₅ later₅ within₅ => .ite (fun _ => value long.length k₅ long left) fun _ => ?_
  refine .ite (fun _ => ?_) fun _ => .ite (fun _ => value 1 k₅ short left) fun _ => listed i k₅
  refine .onward within₅ fun _ k₆ later₆ within₆ => .onward within₆ fun _ k₇ later₇ within₇ => ?_
  refine (heredoc_gives within₇).bind ?_
  rintro ⟨value, _⟩ k₈ ⟨type, ns, rfl, commented⟩
  have heredoc : Node.AssignsHeredoc
      (.mk inv.commandPos (.assign .letVar inv long left.single left.items left.rest value)) :=
    ⟨_, _, _, _, _, _, rfl, type⟩
  exact .pure (.heredoc (commented.from (by omega)) heredoc rfl rfl)

theorem body_made (bound : i ≤ s.size) (form : CommandForm) : (body blocks inv form).Gives s i (Made inv i) := by
  by_cases same : form = .assign .letVar
  · subst same
    exact letCommand_made bound
  · exact fun edits j run => .single ((body_headed same).of_ok run)

/-! ### Where a command ends -/

section

variable {α : Type} {post : α → Nat → Prop}

theorem readLine_gives (bound : i ≤ s.size) : Scan.readLine.Gives s i fun _ j => lineEnd s i ≤ j ∧ j ≤ s.size := by
  intro line j run
  have length : (whole s).text.length = s.size := length_whole s
  obtain ⟨-, -, -, within, -, -⟩ := (readLine_follows (inside_whole bound)).of_whole run
  obtain ⟨text, taken⟩ := takeLine_eq s i
  have ends : Scan.readLine.Gives s i fun _ j => lineEnd s i ≤ j :=
    .after taken ((next_onward s _).bind fun _ _ later => .pure later)
  exact ⟨ends line j run, by omega⟩

/-- From the start of the line on, at least the line is read. -/
theorem fromLine_gives {f : String → Scan α} {l : Nat} (start : l ≤ s.size)
    (second : ∀ first k, lineEnd s l ≤ k → k ≤ s.size → (f first).Gives s k post) :
    Gives (do Scan.seek l; f (← Scan.readLine)) s i post := by
  refine .after (seek_apply l s i) ((readLine_gives start).bind ?_)
  rintro first k ⟨later, within⟩
  exact second first k later within

end

theorem linesUpTo_gives (bound : i ≤ s.size) (marker : String) (lines : List String) :
    (linesUpTo marker lines).Gives s i fun _ j => i ≤ j ∧ j ≤ s.size :=
  .of_kept (linesUpTo_follows marker lines (inside_whole bound).le (.inl ⟨rfl, rfl⟩))

/-- A command that reads its line again ends after it. -/
theorem body_gives_of_rereads {form : CommandForm} (rereads : form.rereads = true)
    (start : inv.linePos.cursor ≤ s.size) :
    (body blocks inv form).Gives s i fun _ j => lineEnd s inv.linePos.cursor ≤ j ∧ j ≤ s.size := by
  have upTo (i : Nat) (marker : String) : Gives (do
      Scan.seek inv.linePos.cursor
      let first ← Scan.readLine
      return commandLines inv (← linesUpTo marker [first])) s i fun _ j =>
        lineEnd s inv.linePos.cursor ≤ j ∧ j ≤ s.size := by
    refine fromLine_gives start fun first k later within => (linesUpTo_gives within marker [first]).bind ?_
    rintro lines j ⟨later', within'⟩
    exact .pure ⟨by omega, within'⟩
  -- These forms go back to the start of the line; the others read on from their arguments.
  cases form <;> try contradiction
  case append => exact upTo i "."
  case insert => exact upTo i "."
  case loadKeymap =>
    refine fromLine_gives start fun first k later within => ?_
    refine Gives.bind (q := fun _ j => lineEnd s inv.linePos.cursor ≤ j ∧ j ≤ s.size) ?_ fun lines j kept => .pure kept
    refine .loop (fun _ j => lineEnd s inv.linePos.cursor ≤ j ∧ j ≤ s.size) ⟨later, within⟩ ?_
    rintro lines m ⟨later, within⟩
    refine .step fun c _ peeked => ?_
    obtain ⟨-, rfl⟩ := Reply.ok.inj peeked
    refine .ite (fun _ => .pure ⟨later, within⟩) fun _ => (readLine_gives within).bind ?_
    rintro line j ⟨later', within'⟩
    have on := le_lineEnd s m
    exact .pure ⟨by omega, within'⟩
  case foreign language =>
    refine .step fun _ _ _ => .step fun ahead k _ => .ite (fun _ => ?_) fun _ => ?_
    · exact .step fun _ _ _ => .step fun _ _ _ => .step fun word l _ => upTo l _
    · refine .after (seek_apply inv.linePos.cursor s k) ?_
      intro edits j run
      obtain ⟨text, taken⟩ := takeLine_eq s inv.linePos.cursor
      have within := (Steady.moves start taken).2
      rw [bind_of_ok taken] at run
      obtain ⟨-, rfl⟩ := Reply.ok.inj run
      exact ⟨Nat.le_refl _, within⟩

theorem paired_whole (s : Source) (inv : Invocation) :
    (whole s).Paired inv.linePos.cursor inv.argumentPos.cursor inv inv where
  placed := rfl
  leftLine := (Nat.zero_add _).symm
  rightLine := (Nat.zero_add _).symm
  leftArgument := (Nat.zero_add _).symm
  rightArgument := (Nat.zero_add _).symm

/-- A command ends no earlier than a place of its line that its argument is after. -/
theorem body_gives (form : CommandForm) (bound : k ≤ s.size) (later : i ≤ k) (start : inv.linePos.cursor ≤ s.size)
    (line : i ≤ lineEnd s inv.linePos.cursor) : (body blocks inv form).Gives s k fun _ j => i ≤ j ∧ j ≤ s.size := by
  cases rereads : form.rereads with
  | true =>
    refine (body_gives_of_rereads rereads start).mono ?_
    rintro _ j ⟨more, within⟩
    exact ⟨Nat.le_trans line more, within⟩
  | false =>
    have follows := body_kept (b := blocks) (c := blocks) (.inl (.inl ⟨rfl, rfl⟩)) rereads rfl (paired_whole s inv)
      (inside_whole bound)
    refine (Gives.of_kept follows).mono ?_
    rintro _ j ⟨more, within⟩
    exact ⟨Nat.le_trans later more, within⟩

theorem invoked_gives (command : Command) (bound : i ≤ s.size) (start : inv.linePos.cursor ≤ s.size)
    (line : i ≤ lineEnd s inv.linePos.cursor) :
    (invoked blocks inv command).Gives s i fun edits j => i ≤ j ∧ j ≤ s.size ∧ ∃ inv', Made inv' i edits j ∧ inv'.command = some command ∧
      inv'.linePos = inv.linePos ∧ inv'.commandPos = inv.commandPos ∧ i ≤ inv'.argumentPos.cursor := by
  -- What an option does to the invocation leaves its head, and the cursor goes on.
  have opened {x : Scan Invocation} {v : Invocation} {k : Nat} {r : Invocation → Invocation → Prop}
      (head : x.Delivers (fun u => u.head = v.head) fun _ => True)
      (follows : (whole s).Follows k x x ((whole s).Kept k r)) :
      x.Gives s k fun u m => u.head = v.head ∧ k ≤ m ∧ m ≤ s.size :=
    fun u m run => ⟨head.of_ok run, Gives.of_kept follows u m run⟩
  have rest (bang : Bool) (k : Nat) (later : i ≤ k) (within : k ≤ s.size) : Gives (do
      let position ← Scan.here
      let inv := { inv with bang, argumentPos := position, command := some command }
      let inv ← (do if command.has .argopt then fileOptions inv else return inv)
      let inv ← leadIn inv
      let inv ← (do if command.has .editcmd && !inv.filter then startCommand inv else return inv)
      body blocks inv command.form) s k fun edits j => i ≤ j ∧ j ≤ s.size ∧ ∃ inv', Made inv' i edits j ∧ inv'.command = some command ∧
        inv'.linePos = inv.linePos ∧ inv'.commandPos = inv.commandPos ∧ i ≤ inv'.argumentPos.cursor := by
    refine .after (here_apply s k) (Gives.bind (q := fun u m =>
      u.head = (inv.linePos, inv.commandPos, s.position k, some command) ∧ k ≤ m ∧ m ≤ s.size) ?_ ?_)
    · refine .ite (fun _ => ?_) fun _ => .pure ⟨rfl, Nat.le_refl k, within⟩
      exact opened fileOptions_keeps (fileOptions_follows (paired_whole s _) (inside_whole within))
    rintro u k₁ ⟨head, later₁, within₁⟩
    refine (opened leadIn_keeps (leadIn_follows (paired_whole s u) (inside_whole within₁))).bind ?_
    rintro u' k₂ ⟨head', later₂, within₂⟩
    refine Gives.bind (q := fun u m => u.head = u'.head ∧ k₂ ≤ m ∧ m ≤ s.size) ?_ ?_
    · refine .ite (fun _ => ?_) fun _ => .pure ⟨rfl, Nat.le_refl k₂, within₂⟩
      exact opened startCommand_keeps (startCommand_follows (paired_whole s u') (inside_whole within₂))
    rintro v k₃ ⟨head'', later₃, within₃⟩
    have same := head''.trans (head'.trans head)
    simp only [Invocation.head, Prod.mk.injEq] at same
    obtain ⟨linePos, commandPos, argumentPos, named⟩ := same
    intro edits j run
    rw [← linePos] at start line
    obtain ⟨more, ends⟩ := body_gives command.form within₃ (by omega) start line edits j run
    have made := (body_made within₃ command.form edits j run).mono (by omega : i ≤ k₃)
    exact ⟨more, ends, v, made, named, linePos, commandPos, by rw [argumentPos]; exact later⟩
  refine (Gives.of_kept (bang_follows (w := whole s) command rfl (inside_whole bound))).bind ?_
  rintro bang k ⟨later, within⟩
  refine .ite (fun _ => ?_) fun _ => rest bang k later within
  exact .onward within fun _ k' later' within' => rest bang k' (by omega) within'

/-! ### The line -/

theorem Made.headed (h : Made inv i edits j) (start : inv.linePos.cursor ≤ inv.commandPos.cursor)
    (argument : inv.commandPos.cursor ≤ inv.argumentPos.cursor) : ∀ e ∈ edits, e.node.label.Headed := by
  have own {n : Node} (position : n.position = inv.commandPos) (known : n.invocation? = some inv) : n.label.Headed := by
    intro inv' known'
    obtain rfl : inv = inv' := Option.some.inj (known.symm.trans known')
    exact ⟨position, start, fun _ => argument⟩
  cases h with
  | single heads =>
    obtain ⟨e, rfl, position, known, -⟩ := heads
    simpa using own position known
  | heredoc comment assigns position known =>
    simpa [or_imp, forall_and] using ⟨comment.headed, own position known⟩

theorem Made.rises (h : Made inv i edits j) (later : k ≤ inv.commandPos.cursor) (named : inv.commandPos.cursor < i)
    (bound : i ≤ j) : Rises k edits j := by
  cases h with
  | single heads =>
    obtain ⟨e, rfl, position, -⟩ := heads
    rw [← position] at later named
    exact .edit later (.adds (.nil (by omega)))
  | heredoc comment assigns position known =>
    rw [← position] at later named
    rcases comment with rfl | ⟨c, rfl, comment, after, before⟩
    · exact .adds (.cons later (.nil (by omega)))
    · exact .adds (.heredoc comment assigns (by omega) later (.nil (by omega)))

/-- What the command of a line comes to: edits in order, or a bare line, whose node may stand where it ends. -/
structure Stepped (s : Source) (i : Nat) (edits : List Edit) (j : Nat) : Prop where
  later : i ≤ j
  bound : j ≤ s.size
  headed : ∀ e ∈ edits, e.node.label.Headed
  order : Rises i edits j ∨ ∃ n, edits = [.add n] ∧ n.IsBare ∧ i ≤ n.position.cursor ∧ n.position.cursor ≤ j

theorem commandPart_gives (bound : i ≤ s.size) (later : inv.linePos.cursor ≤ i)
    (line : i ≤ lineEnd s inv.linePos.cursor) (unnamed : inv.command = none) :
    (commandPart setting inv).Gives s i fun effect j => Stepped s i effect.edits j := by
  refine .step fun _ k skipped => .after (here_apply s k) (.step fun c l peeked => ?_)
  obtain ⟨after, within⟩ := Steady.stays bound skipped
  obtain ⟨-, inside⟩ := Steady.moves bound skipped
  obtain ⟨char, rfl⟩ := Reply.ok.inj peeked
  have onLine := lineEnd_eq_of_le later line
  refine .ite (fun _ => ?_) fun named => ?_
  -- Without a command the node of a bare line stands where the command would.
  · refine .ite (fun _ => ?_) fun _ => ?_
    · exact .pure ⟨after, inside, by simp, .inl (.adds (.nil after))⟩
    refine .step fun edits m run => ?_
    obtain ⟨text, _, read, same⟩ := bind_ok.mp run
    obtain ⟨-, rfl⟩ := Reply.ok.inj read
    obtain ⟨rfl, rfl⟩ := Reply.ok.inj same
    refine .pure ⟨after, inside, ?_, .inr ⟨_, rfl, ⟨_, _, rfl, unnamed⟩, after, Nat.le_refl k⟩⟩
    intro e place inv' known
    obtain rfl := List.mem_singleton.mp place
    obtain rfl := Option.some.inj known
    exact ⟨rfl, Nat.le_trans later after, by simp [unnamed]⟩
  · refine .step fun found m run => ?_
    obtain ⟨-, -, -, -, -, moved⟩ := (command_follows setting.neovim setting.known (inside_whole inside)).of_whole run
    obtain ⟨-, within'⟩ := Steady.stays inside run
    obtain ⟨-, inside'⟩ := Steady.moves inside run
    obtain ⟨_ | command, names⟩ := found
    · exact .step fun _ _ _ => .step fun _ _ _ => .fail
    have more : k < m := moved (by simp)
    let placed : Invocation := { inv with commandPos := s.position k }
    have start : placed.linePos.cursor ≤ s.size := Nat.le_trans later bound
    have onLine' : m ≤ lineEnd s placed.linePos.cursor := by
      rw [← onLine, ← lineEnd_eq_of_le after within]
      exact within'
    refine .step fun edits j run' => ?_
    obtain ⟨later', ends, inv', made, -, linePos, commandPos, argument⟩ :=
      invoked_gives command inside' start onLine' edits j run'
    have place : inv'.commandPos.cursor = k := congrArg Position.cursor commandPos
    refine .pure ⟨by omega, ends, made.headed ?_ (by omega), .inl (made.rises (by omega) (by omega) later')⟩
    rw [linePos, place]
    exact Nat.le_trans later after

/-- With what follows it a line comes to edits in order. -/
theorem Stepped.rises {ns : List Node} {m : Nat} (h : Stepped s i edits j) (comment : Commented j ns m) (later : j ≤ m)
    (moved : j < s.size → j < m) : Rises i (edits ++ ns.map .add) (s.beyond m) := by
  have beyond := s.le_beyond m
  -- The node of a bare line may stand at the end of the buffer, where no comment follows it.
  rcases h.order with rises | ⟨n, rfl, bare, after, before⟩
  · exact rises.append ((comment.inOrder later).mono (Nat.le_refl j) beyond)
  · rcases comment with rfl | ⟨c, rfl, comment, place, less⟩
    · have last : n.position.cursor + 1 ≤ s.beyond m := by
        unfold Source.beyond
        split <;> omega
      exact .adds ((InOrder.single after).mono (Nat.le_refl i) last)
    · exact .adds (.bare bare comment after (by omega) (.nil (by omega)))

theorem commandLine_gives (bound : i ≤ s.size) :
    (commandLine setting).Gives s i fun effect j =>
      Rises i effect.edits (s.beyond j) ∧ ∀ e ∈ effect.edits, e.node.label.Headed := by
  refine .after (here_apply s i) (.step fun modifiers k run => .step fun range l run' => ?_)
  obtain ⟨later, within⟩ := Steady.stays bound run
  obtain ⟨-, inside⟩ := Steady.moves bound run
  obtain ⟨later', within'⟩ := Steady.stays inside run'
  obtain ⟨-, inside'⟩ := Steady.moves inside run'
  have onLine : l ≤ lineEnd s i := by
    rw [← lineEnd_eq_of_le later within]
    exact within'
  refine (commandPart_gives inside' (Nat.le_trans later later') onLine rfl).bind ?_
  rintro effect m stepped
  refine (trail_gives stepped.bound).bind ?_
  rintro _ j ⟨ns, rfl, comment, later'', -, moved⟩
  refine .pure ⟨?_, ?_⟩
  · exact (stepped.rises comment later'' moved).from (Nat.le_trans later later')
  · intro e place
    rcases List.mem_append.mp place with own | other
    · exact stepped.headed e own
    · obtain ⟨n, inside, rfl⟩ := List.mem_map.mp other
      exact comment.headed n inside

theorem read_gives (bound : i ≤ s.size) :
    (read setting).Gives s i fun effect j =>
      Rises i effect.edits (s.beyond j) ∧ ∀ e ∈ effect.edits, e.node.label.Headed := by
  have nothing {k j : Nat} (later : k ≤ j) :
      Rises k [] (s.beyond j) ∧ ∀ e ∈ ([] : List Edit), e.node.label.Headed :=
    ⟨.adds (.nil (Nat.le_trans later (s.le_beyond j))), by simp⟩
  refine .step fun two k peeked => ?_
  obtain ⟨first, within⟩ := Steady.moves bound peeked
  refine .ite (fun _ => .step fun line j run => ?_) fun _ => .step fun _ l skipped => .step fun c m peeked' => ?_
  · obtain ⟨-, -, -, -, later, -⟩ := (readLine_follows (inside_whole within)).of_whole run
    exact .pure (nothing (Nat.le_trans first later))
  obtain ⟨later, within'⟩ := Steady.moves within skipped
  obtain ⟨rfl, rfl⟩ := Reply.ok.inj peeked'
  have after : i ≤ l := Nat.le_trans first later
  split
  · refine (next_onward s l).bind fun _ j later' => .pure (nothing (Nat.le_trans after later'))
  · rename_i quote
    have more : l < s.size := by
      obtain ⟨char, -⟩ := Option.filter_eq_some_iff.mp quote
      exact (Array.getElem?_eq_some_iff.mp char).1
    refine (comment_gives more).bind ?_
    rintro edits j ⟨c, rfl, comment, place, less⟩
    refine (next_onward s j).bind fun _ j' later' => .pure ⟨?_, ?_⟩
    · have beyond := s.le_beyond j'
      exact .adds ((InOrder.single (place ▸ after)).mono (Nat.le_refl i) (by omega))
    · have commented : Commented l [c] j := .inr ⟨c, rfl, comment, Nat.le_of_eq place.symm, by omega⟩
      intro e only
      obtain rfl := List.mem_singleton.mp only
      exact commented.headed c (List.mem_singleton.mpr rfl)
  · exact (commandLine_gives within').mono fun effect j kept => ⟨kept.1.from after, kept.2⟩

end Statement

end VimScript
