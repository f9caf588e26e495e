import Mathlib.Data.List.Basic
import VimScript.Proofs.LineDiff.Patch

/-!
A diff is a patch that leads from the expected text to the actual one. The rows of a hunk are read back as the lines
that were printed, whatever stands in them and however they end, and its header as the ranges of its lines.
-/

set_option autoImplicit false

namespace VimScript.LineDiff

open Patch

variable {a a' b b' m n : Nat} {cs xs row : List Char} {rs more : List (List Char)} {line : String}
  {old new : List String} {h : Hunk} {hs : List Hunk}

/-! ### Rows -/

/-- A text that is made of whole rows. -/
def IsRows (text : List Char) (rows : List (List Char)) : Prop :=
  ∀ cs, (text ++ cs).splitOn '\n' = rows ++ cs.splitOn '\n'

theorem IsRows.nil : IsRows [] [] :=
  fun _ => rfl

theorem IsRows.single (row : List Char) (line : '\n' ∉ row) : IsRows (row ++ ['\n']) [row] := by
  intro cs
  have inside : ∀ c ∈ row, (c == '\n') = false := fun c place => beq_eq_false_iff_ne.mpr fun same => line (same ▸ place)
  rw [List.append_assoc]
  exact List.splitOnP_append_cons_of_forall_mem inside '\n' (by decide) cs

theorem IsRows.append (first : IsRows xs rs) (second : IsRows cs more) : IsRows (xs ++ cs) (rs ++ more) := by
  intro rest
  rw [List.append_assoc, first, second, List.append_assoc]

/-- A line has a newline at its end or none. -/
def IsLine (line : String) : Prop :=
  '\n' ∉ line.toList.dropLast

namespace Patch.Change

/-- The sign before a line. -/
def sign (c : Change) : Char :=
  match c.action with
  | .keep => ' '
  | .drop => '-'
  | .add => '+'

def text (c : Change) : String :=
  Hunk.lineText (String.singleton c.sign) c.line

/-- A line under its sign, and the remark if it is to be made. -/
def rows (c : Change) : List (List Char) :=
  if c.line.toList.getLast? = some '\n' then [c.sign :: c.line.toList.dropLast]
  else [c.sign :: c.line.toList, remark.toList]

theorem isRows (c : Change) (line : IsLine c.line) : IsRows c.text.toList c.rows := by
  have plain : '\n' ≠ c.sign := by
    unfold sign
    split <;> decide
  simp only [text, Hunk.lineText, rows, beq_iff_eq]
  split
  · rename_i broken
    have whole := List.dropLast_append_getLast? '\n' broken
    have row := IsRows.single (c.sign :: c.line.toList.dropLast) (by simpa [plain, IsLine] using line)
    rw [List.cons_append, whole] at row
    simpa using row
  · rename_i solid
    have none : '\n' ∉ c.line.toList := by
      intro inside
      obtain ⟨body, x, whole⟩ := (List.eq_nil_or_concat' _).resolve_left (List.ne_nil_of_mem inside)
      rw [IsLine, whole, List.dropLast_concat] at line
      rw [whole] at inside solid
      rcases List.mem_append.mp inside with before | ends
      · exact line before
      · exact solid (by rw [List.getLast?_concat, List.mem_singleton.mp ends])
    have row := IsRows.single (c.sign :: c.line.toList) (by simpa [plain] using none)
    have marked := row.append (IsRows.single remark.toList (by decide))
    simpa [remark] using marked

/-- The rows of a line are read as it. -/
theorem read (c : Change) {r : Reading} (rest : Reading.ofRows rs = some r) (whole : r.unbroken = false) :
    Reading.ofRows (c.rows ++ rs) = some { r with changes := c :: r.changes } := by
  have signed (line : List Char) (r : Reading) : Reading.before (c.sign :: line) r = some (r.put c.action line) := by
    obtain ⟨action, _⟩ := c
    cases action <;> rfl
  unfold rows
  split
  · rename_i broken
    have line := List.dropLast_append_getLast? '\n' broken
    simp [Reading.ofRows, rest, signed, Reading.put, whole, line]
  · have marked : Reading.before remark.toList r = some { r with unbroken := true } := by
      simp [Reading.before, remark, whole]
    simp [Reading.ofRows, rest, signed, marked, Reading.put, whole]

/-- So are the rows of lines one after another. -/
theorem isRows_join {changes : List Change} (all : ∀ c ∈ changes, IsLine c.line) :
    IsRows (String.join (changes.map text)).toList (changes.flatMap rows) := by
  induction changes with
  | nil => exact .nil
  | cons c changes ih =>
    obtain ⟨first, rest⟩ := List.forall_mem_cons.mp all
    simpa [String.toList_join] using (c.isRows first).append (ih rest)

theorem read_all {r : Reading} (changes : List Change) (rest : Reading.ofRows rs = some r)
    (whole : r.unbroken = false) :
    Reading.ofRows (changes.flatMap rows ++ rs) = some { r with changes := changes ++ r.changes } := by
  induction changes with
  | nil => simpa using rest
  | cons c changes ih => simpa using c.read ih whole

end Patch.Change

/-! ### Hunks -/

/-- The lines of a stretch with what becomes of them. -/
def Stretch.changes (old new : List String) (s : Stretch) : List Change :=
  if s.isKept then ((old.drop s.old).take s.oldCount).map (⟨.keep, ·⟩)
  else ((old.drop s.old).take s.oldCount).map (⟨.drop, ·⟩) ++ ((new.drop s.new).take s.newCount).map (⟨.add, ·⟩)

theorem Stretch.text_eq (old new : List String) (s : Stretch) :
    Hunk.stretchText old new s = String.join ((s.changes old new).map Change.text) := by
  have signed (action : Action) (sign : String) (lines : List String) (start count : Nat)
      (same : ∀ line, Change.text ⟨action, line⟩ = Hunk.lineText sign line) :
      Hunk.linesText sign lines start count =
        String.join ((((lines.drop start).take count).map (Change.mk action)).map Change.text) := by
    simp [Hunk.linesText, List.map_map, Function.comp_def, same]
  unfold Hunk.stretchText changes
  split
  · exact signed .keep " " old s.old s.oldCount fun _ => rfl
  · rw [signed .drop "-" old s.old s.oldCount fun _ => rfl, signed .add "+" new s.new s.newCount fun _ => rfl,
      List.map_append, String.join_append]

namespace Hunk

def changes (old new : List String) (h : Hunk) : List Change :=
  h.flatMap (Stretch.changes old new)

/-- The header of a hunk says that it reaches from some lines of both texts up to others. -/
def Names (h : Hunk) (a a' b b' : Nat) : Prop :=
  ∃ first last, h.head? = some first ∧ h.getLast? = some last ∧ first.old = a ∧ first.new = b ∧
    last.old + last.oldCount = a' ∧ last.new + last.newCount = b'

theorem text_eq (names : h.Names a a' b b') :
    (text old new h).toList = headerRow a a' b b' ++ ['\n'] ++
      (String.join ((h.changes old new).map Change.text)).toList := by
  obtain ⟨first, last, head, stop, rfl, rfl, rfl, rfl⟩ := names
  have joined : String.join (h.map (stretchText old new)) = String.join ((h.changes old new).map Change.text) := by
    rw [← String.toList_inj]
    simp [String.toList_join, changes, List.flatMap_map, List.map_flatMap, List.flatMap_assoc, Stretch.text_eq]
  simp [text, header, head, stop, joined, headerRow]

def rows (old new : List String) (a a' b b' : Nat) (h : Hunk) : List (List Char) :=
  headerRow a a' b b' :: (h.changes old new).flatMap Change.rows

theorem isRows (names : h.Names a a' b b') (all : ∀ c ∈ h.changes old new, IsLine c.line) :
    IsRows (text old new h).toList (h.rows old new a a' b b') := by
  rw [text_eq names]
  exact (IsRows.single _ (newline_notMem_headerRow a a' b b')).append (Change.isRows_join all)

/-- The rows of a hunk are read as one passage. -/
theorem read {ps : List Passage} (rest : Reading.ofRows rs = some { passages := ps }) :
    Reading.ofRows (h.rows old new a a' b b' ++ rs) =
      some { passages := ⟨⟨a, a' - a⟩, ⟨b, b' - b⟩, h.changes old new⟩ :: ps } := by
  rw [rows, List.cons_append, Reading.ofRows, Change.read_all _ rest rfl, Option.bind_some,
    before_headerRow _ _ _ _ rfl, List.append_nil]

end Hunk

/-! ### Hunks that lead from one text to another -/

section

variable (old new : List String)

/-- Stretches from some lines of both texts up to others. Kept lines are the same in both, and where there are lines to
show the place recorded for them is right. -/
inductive Runs : Nat → Nat → List Stretch → Nat → Nat → Prop where
  | nil {a b : Nat} (inOld : a ≤ old.length) (inNew : b ≤ new.length) : Runs a b [] a b
  | kept {a b n new' a' b' : Nat} {rest : List Stretch} (same : (old.drop a).take n = (new.drop b).take n)
      (further : Runs (a + n) (b + n) rest a' b') : Runs a b (⟨true, a, new', n, n⟩ :: rest) a' b'
  | changed {a b n m old' new' a' b' : Nat} {rest : List Stretch} (dropped : 0 < n → old' = a)
      (added : 0 < m → new' = b) (further : Runs (a + n) (b + m) rest a' b') :
      Runs a b (⟨false, old', new', n, m⟩ :: rest) a' b'

/-- Hunks that lead from the old lines to the new ones, from some lines of both on: what stands between them is the
same in both, each one is a run of stretches, and its header names the lines of that run. -/
inductive Covers : Nat → Nat → List Hunk → Prop where
  | last {a b : Nat} (same : old.drop a = new.drop b) : Covers a b []
  | hunk {a b n a' b' : Nat} {h : Hunk} {rest : List Hunk} (same : (old.drop a).take n = (new.drop b).take n)
      (runs : Runs old new (a + n) (b + n) h a' b') (names : h.Names (a + n) a' (b + n) b')
      (further : Covers a' b' rest) : Covers a b (h :: rest)

end

theorem Runs.bounds (runs : Runs old new a b h a' b') :
    a ≤ a' ∧ b ≤ b' ∧ a' ≤ old.length ∧ b' ≤ new.length := by
  induction runs with
  | nil inOld inNew => exact ⟨Nat.le_refl _, Nat.le_refl _, inOld, inNew⟩
  | kept same further ih => omega
  | changed dropped added further ih => omega

theorem take_drop_append {α : Type} (xs : List α) (n : Nat) {a b : Nat} (later : a + n ≤ b) :
    (xs.drop a).take n ++ (xs.drop (a + n)).take (b - (a + n)) = (xs.drop a).take (b - a) := by
  rw [show b - a = n + (b - (a + n)) by omega, List.take_add, List.drop_drop]

/-- A stretch shows the lines behind some others wherever its place for them is right. -/
theorem take_of_place {α : Type} {xs : List α} (place : 0 < n → m = a) : (xs.drop m).take n = (xs.drop a).take n := by
  cases n with
  | zero => simp
  | succ n => rw [place (Nat.succ_pos n)]

/-- Without the lines that are added a run has the old lines, and without those that are dropped the new ones. -/
theorem Runs.lines (runs : Runs old new a b h a' b') :
    oldLines (h.changes old new) = (old.drop a).take (a' - a) ∧
      newLines (h.changes old new) = (new.drop b).take (b' - b) := by
  induction runs with
  | nil => simp [Hunk.changes, oldLines, newLines]
  | kept same further ih =>
    obtain ⟨left, right, -, -⟩ := further.bounds
    rw [← take_drop_append old _ left, ← take_drop_append new _ right, ← ih.1, ← ih.2, ← same, Hunk.changes,
      List.flatMap_cons, ← Hunk.changes, oldLines_append, newLines_append, Stretch.changes, if_pos rfl, oldLines_map,
      newLines_map]
    exact ⟨rfl, rfl⟩
  | changed dropped added further ih =>
    obtain ⟨left, right, -, -⟩ := further.bounds
    rw [← take_drop_append old _ left, ← take_drop_append new _ right, ← ih.1, ← ih.2, ← take_of_place dropped,
      ← take_of_place added, Hunk.changes, List.flatMap_cons, ← Hunk.changes, oldLines_append, newLines_append,
      Stretch.changes, if_neg Bool.false_ne_true, oldLines_append, newLines_append, oldLines_map, oldLines_map,
      newLines_map, newLines_map]
    simp

/-- Every line of a change stands in one of the texts. -/
theorem Hunk.mem_of_mem_changes {c : Change} (place : c ∈ h.changes old new) : c.line ∈ old ∨ c.line ∈ new := by
  have shown {lines : List String} {start count : Nat} {action : Action}
      (place : c ∈ ((lines.drop start).take count).map (⟨action, ·⟩)) : c.line ∈ lines := by
    obtain ⟨line, inside, rfl⟩ := List.mem_map.mp place
    exact List.mem_of_mem_drop (List.mem_of_mem_take inside)
  obtain ⟨s, -, inside⟩ := List.mem_flatMap.mp place
  unfold Stretch.changes at inside
  split at inside
  · exact .inl (shown inside)
  · exact (List.mem_append.mp inside).imp shown shown

/-- The hunks are read back as passages that make the new lines out of the old ones. -/
theorem Covers.reads (covers : Covers old new a b hs) (all : ∀ line, line ∈ old ∨ line ∈ new → IsLine line) :
    ∃ rows passages, IsRows (String.join (hs.map (Hunk.text old new))).toList rows ∧
      Reading.ofRows rows = some { passages } ∧ apply old a b passages = some (new.drop b) := by
  induction covers with
  | last same => exact ⟨[], [], .nil, rfl, congrArg some same⟩
  | @hunk a b n a' b' h rest same runs names further ih =>
    obtain ⟨rows, passages, isRows, read, applied⟩ := ih
    obtain ⟨left, right, inOld, inNew⟩ := runs.bounds
    obtain ⟨dropped, added⟩ := runs.lines
    have lines : ∀ c ∈ h.changes old new, IsLine c.line := fun c place => all _ (Hunk.mem_of_mem_changes place)
    refine ⟨h.rows old new (a + n) a' (b + n) b' ++ rows, _, ?_, Hunk.read read, ?_⟩
    · simpa [String.toList_join] using (Hunk.isRows names lines).append isRows
    · have oldCount : (oldLines (h.changes old new)).length = a' - (a + n) := by
        rw [dropped, List.length_take, List.length_drop]
        omega
      have newCount : (newLines (h.changes old new)).length = b' - (b + n) := by
        rw [added, List.length_take, List.length_drop]
        omega
      have inPlace : Passage.InPlace old a b ⟨⟨a + n, a' - (a + n)⟩, ⟨b + n, b' - (b + n)⟩, h.changes old new⟩ :=
        ⟨Nat.le_add_right a n, congrArg (b + ·) (Nat.add_sub_cancel_left a n).symm, oldCount, newCount, dropped.symm⟩
      rw [apply, if_pos inPlace]
      simp only [Nat.add_sub_of_le left, Nat.add_sub_of_le right, applied, Option.map_some, Nat.add_sub_cancel_left,
        added, same]
      have rest : new.drop b' = (new.drop b).drop (b' - b) := by
        rw [List.drop_drop, Nat.add_sub_of_le (by omega)]
      rw [take_drop_append new n right, rest, List.take_append_drop]

end VimScript.LineDiff
