import VimScript.Proofs.Script.Concatenation
import VimScript.Proofs.Script.Initials
import VimScript.Proofs.Statement.ArgumentEnd
import VimScript.Proofs.Statement.Lines

/-!
What stands behind a `:finish` outside of all blocks. The statements before it are read as the script that they are without
it, wherever that script goes on; the `:finish` itself leaves the cursor at the end of the buffer. So the rest is never
looked at, and the tree is the same whatever it is.
-/

set_option autoImplicit false

namespace VimScript

/-! ### The places of the first lines -/

namespace PhysicalLine

variable {l : PhysicalLine} {ms ns : List PhysicalLine}

theorem slotsAfter_append (cut : ∀ n ∈ ns.head?, n.isContinuation = false) :
    l.slotsAfter (ms ++ ns) = l.slotsAfter ms ++ bufferSlots ns := by
  induction ms generalizing l with
  | nil =>
    cases ns with
    | nil => rfl
    | cons n ns => simp [slotsAfter, cut n rfl, bufferSlots]
  | cons m ms ih =>
    rw [List.cons_append, slotsAfter, slotsAfter, ih]
    split <;> simp

theorem bufferSlots_append (cut : ∀ n ∈ ns.head?, n.isContinuation = false) :
    bufferSlots (ms ++ ns) = bufferSlots ms ++ bufferSlots ns := by
  cases ms with
  | nil => rfl
  | cons m ms => rw [List.cons_append, bufferSlots, bufferSlots, slotsAfter_append cut, List.append_assoc]

end PhysicalLine

namespace Source

open PhysicalLine

variable {xs ys : List (List Char)} {k : Nat}

/-- What is added behind the lines of a script changes no position in it. -/
theorem position_append (cut : ∀ y ∈ ys.head?, opensAsContinuation y = false) (inside : k < (joined xs).length) :
    (ofChars (xs ++ ys)).position k = (ofChars xs).position k := by
  have whole : ∀ n ∈ (ofTexts (1 + xs.length) (0 + textLength xs) ys).head?, n.isContinuation = false := by
    cases ys with
    | nil => simp [ofTexts]
    | cons y ys =>
      rintro _ ⟨⟩
      exact cut y rfl
  have slots : bufferSlots (ofTexts 1 0 (xs ++ ys)) =
      bufferSlots (ofTexts 1 0 xs) ++ bufferSlots (ofTexts (1 + xs.length) (0 + textLength xs) ys) := by
    rw [ofTexts_append, bufferSlots_append whole]
  have length : ((bufferSlots (ofTexts 1 0 xs)).map Prod.snd).length = (joined xs).length := by
    rw [← chars_ofChars, List.length_map]
    simp [ofChars]
  rw [position, position, place, place]
  simp only [ofChars, slots, List.map_append, List.getElem?_toArray]
  rw [List.getElem?_append_left (length ▸ inside), List.getElem?_eq_getElem (length ▸ inside)]
  rfl

/-- The first lines of a script that goes on, with all that is seen of positions. -/
def sameOpening (xs ys : List (List Char)) (some : xs ≠ []) (cut : ∀ y ∈ ys.head?, opensAsContinuation y = false)
    (more : joined ys ≠ []) : Overlap (ofChars xs) (ofChars (xs ++ ys)) :=
  (opening xs ys some cut).seen ⟨id, id⟩ ⟨id, id⟩
    (fun p inside => by
      rcases inside with less | ⟨complete, -⟩
      · simpa [opening] using (position_append cut less).symm
      · exact absurd complete.2 more)
    fun _ _ same => same

end Source

theorem Blocks.seenOver_id (b : Blocks) : b.seenOver ⟨id, id⟩ [] = b := by
  obtain ⟨stack⟩ := b
  have same (n : Node) : n.seenOver ⟨id, id⟩ [] = n := by
    obtain ⟨position, kind⟩ := n
    have seen := (Node.mk position kind).seen_id
    rw [Node.seen_mk] at seen
    rw [Node.seenOver_mk, Kind.seenOver, Kind.onto_nil]
    exact seen
  exact congrArg Blocks.mk (List.map_id'' same stack)

/-! ### The statement -/

namespace Statement

open Scan

variable {s : Source} {blocks : Blocks} {known : UserNames} {rest : List Char} {neovim : Bool} {i : Nat}

theorem isPlainCommand_finish : IsPlainCommand finishCommand where
  noShell := by decide
  noOptions := by decide
  noStart := by decide
  noLeadIn := by decide

/-- The node of a `:finish` without argument. -/
def finishNode (s : Source) (i : Nat) : Node :=
  .command (plainInvocation s i (i + 6) finishCommand) "finish"

theorem argumentEnd_finish (ends : s.char? (i + 6) = some '\n') :
    argumentEnd (plainInvocation s i (i + 6) finishCommand) s (i + 6) = .ok (i + 6) (i + 6) := by
  have step : argumentStep (plainInvocation s i (i + 6) finishCommand) ⟨none, i + 6⟩ s (i + 6) =
      .ok (.done (i + 6, i + 6)) (i + 6) := by
    rw [argumentStep, bind_of_ok (tell_apply s (i + 6)), bind_of_ok (a := s.char? (i + 6)) rfl, ends]
    rfl
  have noGrep : ["vimgrep", "vimgrepadd", "lvimgrep", "lvimgrepadd"].contains
      (plainInvocation s i (i + 6) finishCommand).name = false := by
    change ["vimgrep", "vimgrepadd", "lvimgrep", "lvimgrepadd"].contains "finish" = false
    decide
  simp only [argumentEnd, noGrep, Bool.false_eq_true, if_false, bind_of_ok (tell_apply s (i + 6)),
    bind_of_ok (loop_of_done step)]
  rfl

theorem raw_finish (h : s.ahead i = "finish".toList ++ '\n' :: rest) :
    raw (plainInvocation s i (i + 6) finishCommand) s (i + 6) = .ok [.add (finishNode s i)] (i + 6) := by
  have letters : "finish".toList.length = 6 := rfl
  have behind := Source.ahead_of_append h
  have text := Source.text_of_append h
  rw [letters] at behind text
  rw [String.ofList_toList] at text
  have barred : ((plainInvocation s i (i + 6) finishCommand).has .trlbar &&
      !(plainInvocation s i (i + 6) finishCommand).filter) = true := rfl
  have optional : (plainInvocation s i (i + 6) finishCommand).has .needarg = false := rfl
  simp only [raw_eq, barred, if_true, bind_of_ok (argumentEnd_finish (Source.char?_of_cons behind)), recordUpTo, optional,
    Bool.false_eq_true, if_false, commandUpTo, finishNode, ← text]
  rfl

/-- A `:finish` outside of all blocks leaves nothing to be read. -/
theorem read_finish (outside : blocks.innermost = .script) (h : s.ahead i = "finish".toList ++ '\n' :: rest) :
    read ⟨neovim, known, blocks⟩ s i = .ok ⟨[.add (finishNode s i)], known⟩ s.size := by
  -- There are no blanks between the name and the end of the line.
  have line : s.ahead i = "finish".toList ++ ([] ++ '\n' :: rest) := h
  have run := read_of_name ⟨neovim, known, blocks⟩ names_finish.isName isPlainCommand_finish (names_finish.lookup neovim) []
    (by simp) rfl rfl (by simp) line
  have edits : body blocks (plainInvocation s i (i + 6) finishCommand) .finish s (i + 6) =
      .ok [.add (finishNode s i)] s.size := by
    rw [body, finish, bind_of_ok (raw_finish h), outside]
    rfl
  have ended : s.ahead s.size = [] := by
    rw [← List.length_eq_zero_iff, Source.length_ahead, Nat.sub_self]
  exact run.trans ((bind_of_ok edits).trans (bind_of_ok (trail_of_end ended)))

end Statement

/-! ### The run -/

namespace Source

variable {ys : List (List Char)}

/-- The characters from a line of its own on. -/
theorem ahead_line (xs : List (List Char)) {line : List Char} (whole : opensAsContinuation line = false)
    (cut : ∀ y ∈ ys.head?, opensAsContinuation y = false) :
    (ofChars (xs ++ line :: ys)).ahead (joined xs).length = line ++ '\n' :: joined ys := by
  have first : ∀ y ∈ (line :: ys).head?, opensAsContinuation y = false := by simpa using whole
  have closed : joinedAfter ([] ++ ys) = '\n' :: joined ys := joinedAfter_append cut
  rw [List.nil_append] at closed
  rw [ahead, chars_ofChars, joined_append first, List.drop_left, joined, closed]

end Source

namespace Script

open Source (joined)
open Statement (UserNames finishNode)

variable {neovim : Bool} {s : Source} {known names : UserNames} {edits : List Edit} {blocks : Blocks} {first : Node}
  {position : Position} {body : List Node} {rest : List Char} {xs ys : List (List Char)} {i : Nat}

/-- A run that comes to a `:finish` with no open block succeeds there. -/
theorem Reaches.finishes (h : Reaches neovim s known edits names blocks i)
    (stack : blocks.stack = [.mk position (.script body)]) (ahead : s.ahead i = "finish".toList ++ '\n' :: rest) :
    (readWith neovim known s).1 = .ok (.mk .origin (.script (body ++ [finishNode s i]))) s.size := by
  obtain ⟨_⟩ := blocks
  obtain rfl := stack
  have read : Statement.read ⟨neovim, names, ⟨[.mk position (.script body)]⟩⟩ s i =
      .ok ⟨[.add (finishNode s i)], names⟩ s.size := Statement.read_finish rfl ahead
  -- The turn behind it finds the end of the buffer, and closes a script with no open block.
  obtain ⟨n, enough, goes⟩ := (h.step (Source.lt_size_of_cons ahead) read).readWith_eq
  obtain ⟨n, rfl⟩ : ∃ m, n = m + 1 := ⟨n - 1, by omega⟩
  rw [goes, statements, if_pos (Nat.le_refl s.size), finish_eq]
  rfl

/-- The run over a script that goes on stands behind its first lines with the statements of these, where it has met no
command that reads on past them. -/
theorem reaches_append (cut : ∀ y ∈ ys.head?, opensAsContinuation y = false) (more : joined ys ≠ [])
    (ok : read neovim (.ofChars xs) = .ok first i) (bounded : LineBound first) :
    ∃ edits names blocks position, blocks.stack = [.mk position (.script first.children)] ∧
      Reaches neovim (.ofChars (xs ++ ys)) [] edits names blocks (joined xs).length := by
  by_cases none : xs = []
  · subst none
    obtain ⟨rfl, -⟩ := Reply.ok.inj ok
    exact ⟨[], [], _, _, rfl, .start⟩
  let w := Source.sameOpening xs ys none cut more
  have begins : 0 < (joined xs).length := by
    obtain ⟨front, closed⟩ := Source.joined_closed none
    simp [closed]
  have start : w.AlikeBlocks [] (.start ((Source.ofChars xs).position 0))
      (.start ((Source.ofChars (xs ++ ys)).position 0)) := by
    rw [Source.position_append cut begins]
    rfl
  obtain ⟨blocks, n, edits, names, c, stack, type, rfl, reached, alike⟩ :=
    bounded.follows (w := w) rfl rfl rfl ⟨rfl, id⟩ start ok
  -- With all that is seen of positions, alike means the same.
  have same : blocks.seenOver ⟨id, id⟩ [] = c.seenOver ⟨id, id⟩ [] := alike
  rw [Blocks.seenOver_id, Blocks.seenOver_id] at same
  obtain ⟨position, kind⟩ := n
  cases kind <;> simp [Node.type, Kind.nodeType] at type
  exact ⟨edits, names, c, position, same ▸ stack, Source.size_ofChars xs ▸ reached⟩

theorem finishNode_append (cut : ∀ y ∈ ys.head?, opensAsContinuation y = false) :
    finishNode (.ofChars (xs ++ "finish".toList :: ys)) (joined xs).length =
      finishNode (.ofChars (xs ++ ["finish".toList])) (joined xs).length := by
  have whole : ∀ y ∈ ["finish".toList].head?, opensAsContinuation y = false := by decide
  have length : (joined (xs ++ ["finish".toList])).length = (joined xs).length + 7 := by
    rw [Source.joined_append whole, List.length_append]
    rfl
  have same {k : Nat} (inside : k < (joined xs).length + 7) :
      (Source.ofChars (xs ++ "finish".toList :: ys)).position k =
        (Source.ofChars (xs ++ ["finish".toList])).position k := by
    have added : (Source.ofChars (xs ++ ["finish".toList] ++ ys)).position k = _ :=
      Source.position_append cut (length ▸ inside)
    rwa [List.append_assoc] at added
  rw [finishNode, finishNode, Statement.plainInvocation, Statement.plainInvocation, same (by omega), same (by omega)]

/-- Behind a `:finish` outside of all blocks anything may stand, whether it can be read or not: there is one tree, with the
statements before the `:finish` and the `:finish` itself, all where they stand. -/
theorem ofLines_finish (neovim : Bool) (lines : List String) (ok : ofLines neovim lines = .ok first i)
    (bounded : LineBound first) :
    ∃ last : Node, last.form? = some .finish ∧ ∀ rest : List String,
      (∀ y ∈ rest.head?, opensAsContinuation y.toList = false) →
        ∃ j, ofLines neovim (lines ++ "finish" :: rest) = .ok (.mk .origin (.script (first.children ++ [last]))) j := by
  let xs := lines.map String.toList
  refine ⟨finishNode (.ofChars (xs ++ ["finish".toList])) (joined xs).length, rfl, fun rest cut => ?_⟩
  have cut' : ∀ y ∈ (rest.map String.toList).head?, opensAsContinuation y = false := by simpa using cut
  have plain : opensAsContinuation "finish".toList = false := by decide
  have opens : ∀ y ∈ ("finish".toList :: rest.map String.toList).head?, opensAsContinuation y = false := by
    simpa using plain
  have more : joined ("finish".toList :: rest.map String.toList) ≠ [] := by simp [joined]
  -- Only the positions in the node of the `:finish` might still depend on the rest.
  obtain ⟨edits, names, blocks, position, stack, reached⟩ := reaches_append opens more ok bounded
  have whole := reached.finishes stack (Source.ahead_line xs plain cut')
  rw [finishNode_append cut'] at whole
  have texts : ofLines neovim (lines ++ "finish" :: rest) =
      read neovim (.ofChars (xs ++ "finish".toList :: rest.map String.toList)) := by
    rw [ofLines, Source.ofLines, List.map_append]
    rfl
  exact ⟨_, texts.trans whole⟩

/-- A function with a heredoc before the `:finish`, and behind it lines that cannot be read. -/
theorem ofLines_finish_unreadable :
    ∃ first i last, ofLines false ["function F()", "  let x =<< END", "if", "END", "endfunction"] = .ok first i ∧
      LineBound first ∧ Node.form? last = some .finish ∧
      (∀ y ∈ ["endif", "echo (", "function"].head?, opensAsContinuation y.toList = false) ∧
      ∃ j, ofLines false (["function F()", "  let x =<< END", "if", "END", "endfunction"] ++
        "finish" :: ["endif", "echo (", "function"]) = .ok (.mk .origin (.script (first.children ++ [last]))) j := by
  have left : (ofLines false ["function F()", "  let x =<< END", "if", "END", "endfunction"]).passes
      (fun root => decide (LineBound root)) = true := by
    rw [ofLines_eq_byInitial]
    decide +kernel
  obtain ⟨first, i, ok, bound⟩ := Reply.exists_of_passes _ left
  have bounded : LineBound first := of_decide_eq_true bound
  have cut : ∀ y ∈ ["endif", "echo (", "function"].head?, opensAsContinuation y.toList = false := by decide +kernel
  obtain ⟨last, form, all⟩ := ofLines_finish false _ ok bounded
  exact ⟨first, i, last, ok, bounded, form, cut, all _ cut⟩

end Script

end VimScript
