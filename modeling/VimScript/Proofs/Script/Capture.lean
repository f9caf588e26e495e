import VimScript.Proofs.Script.Bars
import VimScript.Proofs.Script.Concatenation
import VimScript.Proofs.Script.Initials
import VimScript.Proofs.Statement.Capture

/-!
Scripts whose first command takes the lines after its own. Such a command is one statement with its lines as they stand,
and what comes after them is read as a script of its own.
-/

set_option autoImplicit false

namespace VimScript.Script

open Overlap
open Source (joined)

variable {neovim : Bool} {command : Command} {first terminator : String} {b tail rest : List String}

/-- A command with the lines that it takes, its own included. -/
def taking (command : Command) (lines : List String) : Node :=
  .command { command := some command } ("\n".intercalate lines)

theorem taking_seen {inv : Invocation} (placed : inv.placed (fun _ => .unset) = { command := some command })
    (lines : List String) :
    (Node.command inv ("\n".intercalate lines)).seen .unplaced = (taking command lines).seen .unplaced := by
  have invocation : Sight.unplaced.invocation inv = Sight.unplaced.invocation { command := some command } := placed
  simp only [taking, Node.command, Node.seen_mk, Kind.map, Kind.mapInvocation, invocation]
  rfl

theorem taking_reaches (takes : TakesUpTo neovim command first terminator) (whole : ∀ l ∈ b, '\n' ∉ l.toList)
    (others : terminator ∉ b) (plain : ∀ l ∈ b ++ tail, opensAsContinuation l.toList = false)
    (cut : ∀ l ∈ rest.head?, opensAsContinuation l.toList = false)
    (ends : tail = [terminator] ∨ tail = [] ∧ rest = []) :
    ∃ edits c,
      Reaches neovim (.ofChars ((first :: (b ++ tail)).map String.toList ++ rest.map String.toList)) [] edits [] c
        (joined ((first :: (b ++ tail)).map String.toList)).length ∧
      ∀ position, (Blocks.start position).seenOver .unplaced [taking command (first :: (b ++ tail))] =
        c.seenOver .unplaced [] := by
  let lines := (first :: (b ++ tail)).map String.toList
  have text : joined lines = Source.layout lines := by
    refine Source.joined_of_plain _ fun y place => ?_
    obtain ⟨l, below, rfl⟩ := List.mem_map.mp place
    exact plain l below
  have cutChars : ∀ y ∈ (rest.map String.toList).head?, opensAsContinuation y = false := by simpa using cut
  let s : Source := .ofChars (lines ++ rest.map String.toList)
  have chars : s.chars.toList = Source.layout lines ++ joined (rest.map String.toList) := by
    rw [Source.chars_ofChars, Source.joined_append cutChars, text]
  have ahead : s.ahead 0 = Source.layout lines ++ joined (rest.map String.toList) := chars
  have tails : tail = [terminator] ∨ tail = [] ∧ joined (rest.map String.toList) = [] :=
    ends.imp_right fun none => ⟨none.1, by rw [none.2]; rfl⟩
  obtain ⟨inv, placed, read⟩ := Statement.read_of_takes takes whole others ahead tails [] (.start (s.position 0))
  rw [Nat.zero_add, ← text] at read
  have more : 0 < s.size := by
    have length := Source.length_le_layout lines
    rw [Source.size, ← Array.length_toList, chars, List.length_append]
    exact Nat.lt_of_lt_of_le (by simp [lines]) (Nat.le_trans length (Nat.le_add_right ..))
  refine ⟨_, _, .step .start more read, fun position => ?_⟩
  have seen := taking_seen placed (first :: (b ++ tail))
  have added := Blocks.add_seenOver .unplaced [] (.command inv ("\n".intercalate (first :: (b ++ tail))))
    (.start (s.position 0))
  rw [seen] at added
  exact Eq.symm added

/-- Some lines are read just if the others are, and then as a statement with the others' statements after it, up to
positions. -/
def Prepends (neovim : Bool) (statement : Node) (lines rest : List String) : Prop :=
  ((∃ root i, ofLines neovim lines = .ok root i) ↔ ∃ second j, ofLines neovim rest = .ok second j) ∧
    ∀ root i second j, ofLines neovim lines = .ok root i → ofLines neovim rest = .ok second j →
      root.seen .unplaced = (Node.mk .origin (.script (statement :: second.children))).seen .unplaced

theorem prepends_of_takes (takes : TakesUpTo neovim command first terminator) (whole : ∀ l ∈ b, '\n' ∉ l.toList)
    (others : terminator ∉ b) (plain : ∀ l ∈ b ++ tail, opensAsContinuation l.toList = false)
    (cut : ∀ l ∈ rest.head?, opensAsContinuation l.toList = false)
    (ends : tail = [terminator] ∨ tail = [] ∧ rest = []) :
    Prepends neovim (taking command (first :: (b ++ tail))) (first :: (b ++ tail) ++ rest) rest := by
  have cutChars : ∀ y ∈ (rest.map String.toList).head?, opensAsContinuation y = false := by simpa using cut
  let w := (Source.closing ((first :: (b ++ tail)).map String.toList) (rest.map String.toList) cutChars).unplaced
  obtain ⟨edits, c, reached, alike⟩ := taking_reaches takes whole others plain cut ends
  -- From here on the run is that over the other lines, over blocks with one statement more.
  have concur := reached.concurs (w := w) ⟨rfl, rfl⟩ ⟨rfl, rfl⟩ rfl rfl (alike _) (.inl rfl)
  have texts : ofLines neovim (first :: (b ++ tail) ++ rest) =
      (readWith neovim [] (.ofChars ((first :: (b ++ tail)).map String.toList ++ rest.map String.toList))).1 := by
    rw [ofLines, read, Source.ofLines, List.map_append]
  rw [← texts] at concur
  change Concurs _ _ (ofLines neovim rest) _ at concur
  refine ⟨concur.ok_iff.symm, fun root i second j run run' => ?_⟩
  rw [run, run'] at concur
  obtain ⟨body, rfl⟩ := script_of_read run
  obtain ⟨body', rfl⟩ := script_of_read run'
  have kinds : (Kind.script body).seenOver .unplaced [] =
      (Kind.script body').seenOver .unplaced [taking command (first :: (b ++ tail))] := Eq.symm concur
  rw [Node.seen_mk, Node.seen_mk]
  exact congrArg (Node.mk .unset) kinds

/-- A command takes its lines as they stand, up to the line that ends them or else up to the end of the script, where
none of the lines continues the one before it. -/
theorem ofLines_taking (takes : TakesUpTo neovim command first terminator) (whole : ∀ l ∈ b, '\n' ∉ l.toList)
    (plain : ∀ l ∈ b, opensAsContinuation l.toList = false) (others : terminator ∉ b) :
    (∀ rest, (∀ l ∈ terminator :: rest, opensAsContinuation l.toList = false) →
      Prepends neovim (taking command (first :: b ++ [terminator])) (first :: b ++ terminator :: rest) rest) ∧
      ∃ root i, ofLines neovim (first :: b) = .ok root i ∧
        root.seen .unplaced = (Node.mk .origin (.script [taking command (first :: b)])).seen .unplaced := by
  constructor
  · intro rest plainRest
    have plainAll : ∀ l ∈ b ++ [terminator], opensAsContinuation l.toList = false :=
      List.forall_mem_append.mpr ⟨plain, List.forall_mem_singleton.mpr (plainRest terminator List.mem_cons_self)⟩
    have cut : ∀ l ∈ rest.head?, opensAsContinuation l.toList = false :=
      fun l front => plainRest l (List.mem_cons_of_mem _ (List.mem_of_head? front))
    simpa using prepends_of_takes takes whole others plainAll cut (.inl rfl)
  · have prepends : Prepends neovim (taking command (first :: (b ++ []))) (first :: (b ++ []) ++ []) [] :=
      prepends_of_takes takes whole others (by simpa using plain) (by simp) (.inr ⟨rfl, rfl⟩)
    obtain ⟨root, i, ok⟩ := prepends.1.mpr ⟨_, _, rfl⟩
    refine ⟨root, i, by simpa using ok, ?_⟩
    have seen := prepends.2 root i _ _ ok rfl
    rw [List.append_nil] at seen
    exact seen

theorem ofLines_taking_lua :
    ∃ command, TakesUpTo false command "lua << EOF" "EOF" ∧ (∀ l ∈ ["if (", "endwhile"], '\n' ∉ l.toList) ∧
      (∀ l ∈ ["if (", "endwhile"], opensAsContinuation l.toList = false) ∧ "EOF" ∉ ["if (", "endwhile"] ∧
      (∀ l ∈ ["EOF", "echo 1"], opensAsContinuation l.toList = false) ∧
      ∃ root i second j, ofLines false ["lua << EOF", "if (", "endwhile", "EOF", "echo 1"] = .ok root i ∧
        ofLines false ["echo 1"] = .ok second j ∧
        root.seen .unplaced = (Node.mk .origin (.script
          (taking command ["lua << EOF", "if (", "endwhile", "EOF"] :: second.children))).seen .unplaced := by
  let command : Command := ⟨"lua", 3, [.range, .extra, .needarg, .cmdwin], .foreign .lua⟩
  have found : Command.lookup false "lua".toList = some command := by
    rw [Command.lookup_eq_byInitial]
    decide +kernel
  have line : "lua << EOF" = "lua" ++ " << " ++ "EOF" := by decide
  have takes : TakesUpTo false command "lua << EOF" "EOF" := by
    rw [line]
    exact .marked found rfl (by decide) (by decide) (by decide)
  have whole : ∀ l ∈ ["if (", "endwhile"], '\n' ∉ l.toList := by decide
  have plain : ∀ l ∈ ["if (", "endwhile"], opensAsContinuation l.toList = false := by decide
  have others : "EOF" ∉ ["if (", "endwhile"] := by decide
  have plainRest : ∀ l ∈ ["EOF", "echo 1"], opensAsContinuation l.toList = false := by decide
  have prepends := (ofLines_taking takes whole plain others).1 ["echo 1"] plainRest
  have taken : (ofLines false ["echo 1"]).passes (fun _ => true) = true := by
    rw [ofLines_eq_byInitial]
    decide +kernel
  obtain ⟨second, j, read, -⟩ := Reply.exists_of_passes _ taken
  obtain ⟨root, i, ok⟩ := prepends.1.mpr ⟨second, j, read⟩
  have seen := prepends.2 root i second j ok read
  exact ⟨command, takes, whole, plain, others, plainRest, root, i, second, j, ok, read, seen⟩

end VimScript.Script
