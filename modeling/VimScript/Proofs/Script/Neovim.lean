import VimScript.Proofs.Scan.Text
import VimScript.Proofs.Script.Initials
import VimScript.Script

/-!
The two editors. They share one command table; Neovim adds a few commands to it and takes a few away. Where a script
names none of these it is read alike for both. `Print` is an exception that makes no difference: it is a name for
users in both editors, in Vim because scripts may define it anew and in Neovim because it is gone.
-/

set_option autoImplicit false

namespace VimScript

/-! ### One name -/

namespace Command

variable {typed : List Char}

/-- A name that no command accepts which only one of the editors has, `Print` apart. -/
def IsShared (typed : List Char) : Prop :=
  ∀ command ∈ neovimAdded ++ neovimRemoved, command.name ≠ "Print" → command.accepts typed = false

instance (typed : List Char) : Decidable (IsShared typed) :=
  inferInstanceAs (Decidable (∀ command ∈ neovimAdded ++ neovimRemoved, command.name ≠ "Print" →
    command.accepts typed = false))

/-- The entry of `Print` among the commands that Neovim does not have. -/
def printCommand : Command :=
  ⟨"Print", 1, [.range, .wholefold, .count, .exflags, .trlbar, .cmdwin], .common⟩

/-- Neovim does not know the name, and Vim leaves it to users. -/
theorem isUserName_of_print (neovim : Bool) (print : printCommand.accepts typed = true) :
    isUserName neovim typed = true := by
  obtain ⟨front, least⟩ := Bool.and_eq_true_iff.mp print
  have front : typed <+: "Print".toList := List.isPrefixOf_iff_prefix.mp front
  have some : 1 ≤ typed.length := of_decide_eq_true least
  have capital : ∀ n ≤ 5, 1 ≤ n → ("Print".toList.take n).head?.any Char.isUpper = true := by decide
  have table : ∀ n ≤ 5, 1 ≤ n → (lookup false ("Print".toList.take n)).all (·.name == "Print") = true := by
    rw [lookup_eq_byInitial]
    decide +kernel
  have upper := capital _ front.length_le some
  have vim := table _ front.length_le some
  rw [← List.prefix_iff_eq_take.mp front] at upper vim
  cases neovim with
  | false => rw [isUserName, upper, vim, Bool.and_self]
  | true =>
    have removed : neovimRemoved.any (·.accepts typed) = true :=
      List.any_eq_true.mpr ⟨printCommand, by decide, print⟩
    simp [isUserName, upper, lookup, removed]

theorem lookup_of_isShared (shared : IsShared typed) (other : printCommand.accepts typed = false) :
    lookup true typed = lookup false typed := by
  have only : ∀ command ∈ neovimAdded ++ neovimRemoved, command.name = "Print" → command = printCommand := by decide
  have none (command : Command) (place : command ∈ neovimAdded ++ neovimRemoved) : ¬command.accepts typed = true := by
    rw [Bool.not_eq_true]
    by_cases print : command.name = "Print"
    · rw [only command place print]
      exact other
    · exact shared command place print
  have removed : ¬neovimRemoved.any (·.accepts typed) = true := by
    rw [List.any_eq_true]
    rintro ⟨command, place, accepted⟩
    exact none command (List.mem_append_right _ place) accepted
  have added : neovimAdded.find? (·.accepts typed) = Option.none :=
    List.find?_eq_none.mpr fun command place => none command (List.mem_append_left _ place)
  simp [lookup, removed, added]

end Command

/-! ### One statement -/

namespace Statement

variable {s : Source} {i : Nat}

/-- The name that is looked up at the cursor, past a range, if there is one. -/
def lookedUpHere : Scan (Option String) := do
  Scan.skipWhiteAndColons
  let c ← Scan.peekInLine
  if c.isNone || c == some '"' then
    return none
  else
    let typed ← typedName
    return if typed.isEmpty then none else some typed

/-- The name that is looked up for the statement at the cursor, if there is one. -/
def lookedUp : Scan (Option String) := do
  if (← Scan.peekRun 2) == "#!" then
    return none
  else
    Scan.skipWhiteAndColons
    match ← Scan.peekInLine with
    | none | some '"' => return none
    | _ =>
      let _ ← modifiers
      let _ ← range
      lookedUpHere

theorem command_neovim (known : UserNames)
    (shared : ∀ typed j, typedName s i = .ok typed j → typed.isEmpty = false → Command.IsShared typed.toList) :
    command true known s i = command false known s i := by
  rw [command, command]
  apply Scan.bind_congr
  intro typed j named
  by_cases empty : typed.isEmpty = true
  · rw [if_pos empty, if_pos empty]
  rw [if_neg empty, if_neg empty]
  -- `Print` goes another way in each editor, but comes out as a name for users either way.
  by_cases print : Command.printCommand.accepts typed.toList = true
  · have user (neovim : Bool) := Command.isUserName_of_print neovim print
    rw [if_pos (user true), if_pos (user false)]
  · have same : Command.lookup true typed.toList = Command.lookup false typed.toList :=
      Command.lookup_of_isShared (shared typed j named (by simpa using empty)) (by simpa using print)
    rw [Command.isUserName, Command.isUserName, same]

theorem commandPart_neovim (known : UserNames) (blocks : Blocks) (inv : Invocation)
    (shared : ∀ typed j, lookedUpHere s i = .ok (some typed) j → Command.IsShared typed.toList) :
    commandPart ⟨true, known, blocks⟩ inv s i = commandPart ⟨false, known, blocks⟩ inv s i := by
  rw [lookedUpHere] at shared
  rw [commandPart, commandPart]
  apply Scan.bind_congr
  intro _ j skipped
  apply Scan.bind_congr
  rintro position _ ⟨⟩
  apply Scan.bind_congr
  intro c k peeked
  rw [Scan.bind_of_ok skipped, Scan.bind_of_ok peeked] at shared
  by_cases blank : (c.isNone || c == some '"') = true
  · rw [if_pos blank, if_pos blank]
  rw [if_neg blank, if_neg blank]
  rw [if_neg blank] at shared
  have same : command true known s k = command false known s k := by
    apply command_neovim
    intro typed l named given
    apply shared typed l
    rw [Scan.bind_of_ok named, given]
    rfl
  rw [Scan.bind_apply, Scan.bind_apply, same]

theorem read_neovim (known : UserNames) (blocks : Blocks)
    (shared : ∀ typed j, lookedUp s i = .ok (some typed) j → Command.IsShared typed.toList) :
    read ⟨true, known, blocks⟩ s i = read ⟨false, known, blocks⟩ s i := by
  rw [lookedUp] at shared
  rw [read, read]
  apply Scan.bind_congr
  intro two j peeked
  rw [Scan.bind_of_ok peeked] at shared
  by_cases mark : (two == "#!") = true
  · rw [if_pos mark, if_pos mark]
  rw [if_neg mark, if_neg mark]
  rw [if_neg mark] at shared
  apply Scan.bind_congr
  intro _ k skipped
  apply Scan.bind_congr
  intro c l first
  rw [Scan.bind_of_ok skipped, Scan.bind_of_ok first] at shared
  cases c with
  | none => rfl
  | some c =>
    by_cases comment : c = '"'
    · subst comment
      rfl
    simp only [Option.some.injEq, comment, imp_self, commandLine] at shared ⊢
    apply Scan.bind_congr
    rintro position _ ⟨⟩
    apply Scan.bind_congr
    intro modifiers m listed
    apply Scan.bind_congr
    intro range n ranged
    rw [Scan.bind_of_ok listed, Scan.bind_of_ok ranged] at shared
    rw [Scan.bind_apply, Scan.bind_apply, commandPart_neovim known blocks _ shared]

end Statement

/-! ### Scripts -/

namespace Script

open Statement (UserNames)

variable {s : Source}

/-- The names that are looked up while statements are read, in turn. -/
def lookupsFrom (neovim : Bool) (s : Source) : Nat → UserNames → Blocks → Nat → List String
  | 0, _, _, _ => []
  | n + 1, known, blocks, i =>
    if s.size ≤ i then []
    else
      let here :=
        match Statement.lookedUp s i with
        | .ok (some typed) _ => [typed]
        | _ => []
      match Statement.read ⟨neovim, known, blocks⟩ s i with
      | .ok effect j => here ++ lookupsFrom neovim s n effect.known (blocks.editAll effect.edits) j
      | _ => here

/-- The names that are looked up while a script is read. -/
def lookups (neovim : Bool) (known : UserNames) (s : Source) : List String :=
  lookupsFrom neovim s (s.size + 2) known (.start (s.position 0)) 0

/-- A name that is looked up is named at a place of the script. -/
theorem exists_lookedUp_of_mem {neovim : Bool} {n i : Nat} {known : UserNames} {blocks : Blocks} {typed : String}
    (place : typed ∈ lookupsFrom neovim s n known blocks i) :
    ∃ j < s.size, ∃ k, Statement.lookedUp s j = .ok (some typed) k := by
  induction n generalizing known blocks i with
  | zero => simp [lookupsFrom] at place
  | succ n ih =>
    rw [lookupsFrom] at place
    by_cases last : s.size ≤ i
    · simp [last] at place
    rw [if_neg last] at place
    have here (inside : typed ∈ (match Statement.lookedUp s i with
        | .ok (some typed) _ => [typed]
        | _ => [] : List String)) : ∃ j < s.size, ∃ k, Statement.lookedUp s j = .ok (some typed) k := by
      split at inside
      · next other k found =>
        obtain rfl := List.mem_singleton.mp inside
        exact ⟨i, by omega, k, found⟩
      · cases inside
    cases read : Statement.read ⟨neovim, known, blocks⟩ s i with
    | ok effect j =>
      simp only [read, List.mem_append] at place
      exact place.elim here ih
    | fail e j =>
      simp only [read] at place
      exact here place
    | spent =>
      simp only [read] at place
      exact here place

theorem statements_neovim (n : Nat) (known : UserNames) (blocks : Blocks) (i : Nat)
    (shared : ∀ typed ∈ lookupsFrom false s n known blocks i, Command.IsShared typed.toList) :
    statements true s n known blocks i = statements false s n known blocks i := by
  -- Before each statement both runs stand at the same cursor, with the same record and the same open blocks.
  induction n generalizing known blocks i with
  | zero => rfl
  | succ n ih =>
    rw [lookupsFrom] at shared
    rw [statements, statements]
    by_cases last : s.size ≤ i
    · rw [if_pos last, if_pos last]
    rw [if_neg last, if_neg last]
    rw [if_neg last] at shared
    have same : Statement.read ⟨true, known, blocks⟩ s i = Statement.read ⟨false, known, blocks⟩ s i := by
      apply Statement.read_neovim
      intro typed j found
      rw [found] at shared
      apply shared typed
      cases Statement.read ⟨false, known, blocks⟩ s i <;> simp
    rw [same]
    cases read : Statement.read ⟨false, known, blocks⟩ s i with
    | ok effect j =>
      rw [read] at shared
      exact ih _ _ _ fun typed place => shared typed (List.mem_append_right _ place)
    | fail e j => rfl
    | spent => rfl

/-- A script is read alike for both editors, unless a name that is looked up in it for Vim stands for a command only
one of them has. -/
theorem readWith_neovim (known : UserNames) (s : Source)
    (shared : ∀ typed ∈ lookups false known s, Command.IsShared typed.toList) :
    readWith true known s = readWith false known s :=
  statements_neovim _ _ _ _ shared

/-- `Print` is a name for users, and the block is not closed. -/
theorem readWith_neovim_print :
    let s := Source.ofLines ["Print x", "if 1|P y"]
    (∀ typed ∈ lookups false [] s, Command.IsShared typed.toList) ∧ readWith true [] s = readWith false [] s := by
  intro s
  have table : ∀ i < s.size, (match Statement.lookedUp s i with
      | .ok (some typed) _ => decide (Command.IsShared typed.toList)
      | _ => true) = true := by decide +kernel
  have shared : ∀ typed ∈ lookups false [] s, Command.IsShared typed.toList := by
    intro typed place
    obtain ⟨i, inside, k, found⟩ := exists_lookedUp_of_mem place
    have checked := table i inside
    rw [found] at checked
    exact of_decide_eq_true checked
  exact ⟨shared, readWith_neovim [] s shared⟩

end Script
end VimScript
