import VimScript.Script

/-!
The command table by initials. A typed name can only stand for a command with its own initial, and the table lists
these in a few runs, so that a lookup need not go through the whole table. The names in the tables are ASCII, so that
their characters are their bytes. Scripts are read alike either way, which makes the reading of a given script a small
computation.
-/

set_option autoImplicit false

namespace VimScript

/-! ### The characters of a text -/

/-- The characters of a text, where it is ASCII read off its bytes. -/
def charsOf (s : String) : List Char :=
  let bytes := s.toByteArray.data.toList
  if bytes.all (·.toNat < 128) then bytes.map fun b => Char.ofNat b.toNat else s.toList

theorem utf8EncodeChar_of_byte {b : UInt8} (small : b.toNat < 128) :
    String.utf8EncodeChar (Char.ofNat b.toNat) = [b] := by
  have valid : b.toNat.isValidChar := .inl (by omega)
  have same : (Char.ofNat b.toNat).val.toNat = b.toNat := by
    rw [Char.ofNat, dif_pos valid]
    rfl
  rw [String.utf8EncodeChar, same, if_pos (by omega), UInt8.ofNat_toNat]

theorem flatMap_utf8EncodeChar (bytes : List UInt8) (ascii : ∀ b ∈ bytes, b.toNat < 128) :
    (bytes.map fun b => Char.ofNat b.toNat).flatMap String.utf8EncodeChar = bytes := by
  induction bytes with
  | nil => rfl
  | cons b bytes ih =>
    rw [List.forall_mem_cons] at ascii
    rw [List.map_cons, List.flatMap_cons, utf8EncodeChar_of_byte ascii.1, ih ascii.2, List.singleton_append]

theorem charsOf_eq_toList : charsOf = String.toList := by
  funext s
  rw [charsOf]
  split
  next ascii =>
    have small : ∀ b ∈ s.toByteArray.data.toList, b.toNat < 128 :=
      fun b place => of_decide_eq_true (List.all_eq_true.mp ascii b place)
    -- A text is known by its bytes, so what is read off them need only encode to them again.
    have same : String.ofList (s.toByteArray.data.toList.map fun b => Char.ofNat b.toNat) = s := by
      rw [← String.toByteArray_inj, String.toByteArray_ofList, List.utf8Encode, flatMap_utf8EncodeChar _ small,
        ByteArray.ext_iff, List.data_toByteArray, Array.toArray_toList]
    exact String.toList_ofList.symm.trans (congrArg String.toList same)
  next => rfl

theorem Source.ofLines_eq_ofChars : Source.ofLines = fun lines => .ofChars (lines.map charsOf) := by
  rw [charsOf_eq_toList]
  rfl

/-! ### Tables of names -/

section Table

variable {α : Type} {initial : Char}

/-- The entries of the runs with one initial, where the runs say how many entries in a row have which initial. -/
def ofInitial (initial : Char) : List (Char × Nat) → List α → List α
  | [], _ => []
  | (c, n) :: runs, entries =>
    if c = initial then entries.take n ++ ofInitial initial runs (entries.drop n)
    else ofInitial initial runs (entries.drop n)

/-- The entries that typed letters can stand for. -/
def candidates (runs : List (Char × Nat)) (entries : List α) : List Char → List α
  | [] => entries
  | initial :: _ => ofInitial initial runs entries

variable {name : α → String} {runs : List (Char × Nat)} {entries : List α}

/-- The entries of a run are all or none of them those with an initial. -/
theorem filter_of_run {c : Char} (run : ∀ entry ∈ entries, (name entry).toList.head? = some c) :
    entries.filter (fun entry => (name entry).toList.head? == some initial) = if c = initial then entries else [] := by
  split
  next same => exact List.filter_eq_self.mpr fun entry place => by simp [run entry place, same]
  next other => exact List.filter_eq_nil_iff.mpr fun entry place => by simp [run entry place, other]

theorem ofInitial_eq_filter
    (initials : entries.map (fun entry => (name entry).toList.head?) =
      runs.flatMap fun run => .replicate run.2 (some run.1)) :
    ofInitial initial runs entries = entries.filter fun entry => (name entry).toList.head? == some initial := by
  -- The first run takes its entries off the front of the table, and the other runs tell of what is left.
  induction runs generalizing entries with
  | nil =>
    rw [List.map_eq_nil_iff.mp initials]
    rfl
  | cons run runs ih =>
    obtain ⟨c, n⟩ := run
    rw [List.flatMap_cons] at initials
    have first : (entries.take n).map (fun entry => (name entry).toList.head?) = List.replicate n (some c) := by
      rw [List.map_take, initials, List.take_left' List.length_replicate]
    have rest : (entries.drop n).map (fun entry => (name entry).toList.head?) =
        runs.flatMap fun run => .replicate run.2 (some run.1) := by
      rw [List.map_drop, initials, List.drop_left' List.length_replicate]
    have all : ∀ entry ∈ entries.take n, (name entry).toList.head? = some c := fun entry place =>
      List.eq_of_mem_replicate (first ▸ List.mem_map_of_mem place)
    rw [ofInitial, ih rest, ← List.take_append_drop n entries, List.filter_append, filter_of_run all,
      List.take_append_drop]
    split <;> rfl

/-- Letters that are typed for a name start with its initial. -/
theorem find?_candidates (enough : α → Bool)
    (initials : entries.map (fun entry => (name entry).toList.head?) =
      runs.flatMap fun run => .replicate run.2 (some run.1))
    (typed : List Char) :
    (candidates runs entries typed).find? (fun entry => typed.isPrefixOf (name entry).toList && enough entry) =
      entries.find? fun entry => typed.isPrefixOf (name entry).toList && enough entry := by
  cases typed with
  | nil => rfl
  | cons initial rest =>
    rw [candidates, ofInitial_eq_filter initials, List.find?_filter]
    congr 1
    funext entry
    -- An entry with another initial fails on the first letter, so leaving it out changes nothing.
    cases (name entry).toList with
    | nil => rfl
    | cons c name =>
      rw [List.head?_cons, List.isPrefixOf_cons_cons, Option.some_beq_some, BEq.comm (a := c)]
      cases initial == c with
      | true => simp only [Bool.true_and, true_and, Bool.decide_eq_true]
      | false => rfl

end Table

/-! ### Commands -/

namespace Command

/-- The initials of the shared commands, each with the number of commands in a row that have it. -/
def runs : List (Char × Nat) :=
  [('a', 19), ('b', 23), ('c', 56), ('d', 22), ('e', 21), ('f', 15), ('g', 6), ('h', 8), ('i', 18), ('j', 2),
    ('k', 5), ('l', 17), ('c', 1), ('l', 37), ('m', 18), ('n', 19), ('o', 12), ('p', 33), ('q', 3), ('r', 19),
    ('s', 67), ('t', 35), ('u', 11), ('v', 18), ('w', 15), ('x', 9), ('y', 1), ('z', 1), ('!', 1), ('#', 1),
    ('&', 1), ('*', 1), ('<', 1), ('=', 1), ('>', 1), ('@', 1), ('N', 1), ('P', 1), ('X', 1), ('~', 1), ('c', 5),
    ('f', 1), ('h', 1), ('l', 4), ('n', 1), ('p', 2), ('s', 1), ('p', 4), ('t', 5), ('c', 4), ('l', 4), ('r', 1),
    ('s', 1), ('t', 5), ('x', 1), ('d', 2), ('e', 2), ('i', 1), ('s', 1), ('v', 1)]

theorem builtin_initials :
    builtin.map (·.name.toList.head?) = runs.flatMap fun run => .replicate run.2 (some run.1) := by
  rw [← charsOf_eq_toList]
  decide +kernel

/-- Whether the typed letters are enough of the name, by its bytes. -/
def spelledBy (command : Command) (typed : List Char) : Bool :=
  typed.isPrefixOf (charsOf command.name) && command.least ≤ typed.length

theorem accepts_eq_spelledBy : accepts = spelledBy := by
  funext command typed
  rw [accepts, spelledBy, charsOf_eq_toList]

/-- A lookup among the candidates only. -/
def lookupByInitial (neovim : Bool) (typed : List Char) : Option Command :=
  let shared := (candidates runs builtin typed).find? (·.spelledBy typed)
  if neovim then
    if neovimRemoved.any (·.spelledBy typed) then none
    else (neovimAdded.find? (·.spelledBy typed)).or shared
  else shared

theorem lookup_eq_byInitial : lookup = lookupByInitial := by
  funext neovim typed
  have shared : (candidates runs builtin typed).find? (·.accepts typed) = builtin.find? (·.accepts typed) :=
    find?_candidates (fun command : Command => command.least ≤ typed.length) builtin_initials typed
  rw [lookup, lookupByInitial, ← accepts_eq_spelledBy, shared]

end Command

/-! ### Statements -/

namespace Statement

/-- The initials of the modifiers, each with the number of modifiers in a row that have it. -/
def modifierRuns : List (Char × Nat) :=
  [('a', 1), ('b', 3), ('c', 1), ('k', 4), ('h', 1), ('l', 2), ('n', 2), ('r', 1), ('s', 2), ('t', 2), ('u', 1),
    ('v', 2)]

theorem modifierNames_initials :
    modifierNames.map (·.1.toList.head?) = modifierRuns.flatMap fun run => .replicate run.2 (some run.1) := by
  rw [← charsOf_eq_toList]
  decide +kernel

/-- The modifier that is typed, looked up among the candidates only. -/
def modifierByInitial? (typed : String) : Option String :=
  let letters := charsOf typed
  ((candidates modifierRuns modifierNames letters).find? fun entry =>
    letters.isPrefixOf (charsOf entry.1) && entry.2 ≤ letters.length).map Prod.fst

theorem modifierName?_eq_byInitial : modifierName? = modifierByInitial? := by
  funext typed
  have found := find?_candidates (fun entry => entry.2 ≤ typed.length) modifierNames_initials typed.toList
  simp only [modifierName?, modifierByInitial?, charsOf_eq_toList, String.length_toList, found]

/-- No modifier has a name without letters. -/
theorem modifierName?_empty : modifierName? "" = none := by
  decide +kernel

variable (find : List Char → Option Command) (modifier? : String → Option String)

/-- The modifiers at the cursor, read with a lookup of their names. -/
def modifiersBy : Scan (List Modifier) :=
  Scan.loop [] fun found => do
    let start ← Scan.tell
    let digits ← (do
      if CharClass.digit.hasOpt (← Scan.peekInLine) then
        let digits ← Scan.takeClass .digit
        Scan.skipWhite
        return digits
      else
        return "")
    let typed ← Scan.takeClass .alpha
    let after ← Scan.peekInLine
    Scan.skipWhite
    match modifier? typed with
    | none =>
      Scan.seek start
      return .done found
    | some name =>
      if name == "hide" && endsCommand after then
        Scan.seek start
        return .done found
      else
        let modifier ← modifierOf name digits after
        return .again (found ++ [modifier])

/-- The command named at the cursor, among those a lookup finds. -/
def commandBy (known : UserNames) : Scan (Option Command × UserNames) := do
  let typed ← typedName
  if typed.isEmpty then
    return (none, known)
  else if typed.toList.head?.any Char.isUpper && (find typed.toList).all (·.name == "Print") then
    if known.contains typed then
      return (some (.user typed), known)
    else
      let digits ← Scan.takeClass .alnum
      let name := typed ++ digits
      return (some (.user name), if known.contains name then known else name :: known)
  else
    return (find typed.toList, known)

/-- The command at the cursor, read with a lookup of its name. -/
def commandPartBy (setting : Setting) (inv : Invocation) : Scan Effect := do
  Scan.skipWhiteAndColons
  let position ← Scan.here
  let inv := { inv with commandPos := position }
  let c ← Scan.peekInLine
  if c.isNone || c == some '"' then
    if inv.modifiers.isEmpty && inv.range.isEmpty then
      return ⟨[], setting.known⟩
    else
      return ⟨← commandUpTo inv position.cursor, setting.known⟩
  else
    match ← commandBy find setting.known with
    | (none, _) =>
      Scan.seek position.cursor
      Scan.fail (.unknownCommand (← Scan.peekLine)) position
    | (some command, known) => return ⟨← invoked setting.blocks inv command, known⟩

/-- A line from its first command on, read with lookups of all names. -/
def commandLineBy (setting : Setting) : Scan Effect := do
  let position ← Scan.here
  let modifiers ← modifiersBy modifier?
  let range ← range
  let effect ← commandPartBy find setting { linePos := position, modifiers, range }
  let edits ← trail
  return { effect with edits := effect.edits ++ edits }

/-- One statement, read with lookups of all names. -/
def readBy (setting : Setting) : Scan Effect := do
  if (← Scan.peekRun 2) == "#!" then
    let _ ← Scan.readLine
    return ⟨[], setting.known⟩
  else
    Scan.skipWhiteAndColons
    match ← Scan.peekInLine with
    | none =>
      let _ ← Scan.next
      return ⟨[], setting.known⟩
    | some '"' =>
      let edits ← comment
      let _ ← Scan.next
      return ⟨edits, setting.known⟩
    | _ => commandLineBy find modifier? setting

theorem read_eq_by (setting : Setting) : read setting = readBy (Command.lookup setting.neovim) modifierName? setting :=
  rfl

/-- One statement read with lookups by initials and bytes. -/
def readByInitial (setting : Setting) : Scan Effect :=
  readBy (Command.lookupByInitial setting.neovim) modifierByInitial? setting

theorem read_eq_byInitial : read = readByInitial := by
  funext setting
  rw [read_eq_by, readByInitial, Command.lookup_eq_byInitial, modifierName?_eq_byInitial]

end Statement

/-! ### Scripts -/

namespace Script

open Statement (UserNames)

/-- Reads statements to the end of the buffer, with lookups by initials and bytes. -/
def statementsByInitial (neovim : Bool) (s : Source) : Nat → UserNames → Blocks → Nat → Reply Node × UserNames
  | 0, known, _, _ => (.spent, known)
  | n + 1, known, blocks, i =>
    if s.size ≤ i then (finish blocks s i, known)
    else
      match Statement.readByInitial ⟨neovim, known, blocks⟩ s i with
      | .ok effect j => statementsByInitial neovim s n effect.known (blocks.editAll effect.edits) j
      | .fail fault j => (.fail fault j, known)
      | .spent => (.spent, known)

theorem statements_eq_byInitial (neovim : Bool) (s : Source) (n : Nat) (known : UserNames) (blocks : Blocks) (i : Nat) :
    statements neovim s n known blocks i = statementsByInitial neovim s n known blocks i := by
  induction n generalizing known blocks i with
  | zero => rfl
  | succ n ih =>
    rw [statements, statementsByInitial]
    by_cases last : s.size ≤ i
    · rw [if_pos last, if_pos last]
    rw [if_neg last, if_neg last, Statement.read_eq_byInitial]
    cases Statement.readByInitial ⟨neovim, known, blocks⟩ s i with
    | ok effect j => exact ih ..
    | fail fault j => rfl
    | spent => rfl

/-- A script read with lookups by initials and bytes. -/
def readByInitial (neovim : Bool) (known : UserNames) (s : Source) : Reply Node × UserNames :=
  statementsByInitial neovim s (s.size + 2) known (.start (s.position 0)) 0

theorem readWith_eq_byInitial : readWith = readByInitial := by
  funext neovim known s
  exact statements_eq_byInitial ..

theorem read_eq_byInitial : read = fun neovim s => (readByInitial neovim [] s).1 := by
  funext neovim s
  rw [read, readWith_eq_byInitial]

theorem ofLines_eq (neovim : Bool) (lines : List String) :
    ofLines neovim lines = (readWith neovim [] (.ofLines lines)).1 :=
  rfl

/-- The lines of a script read with lookups by initials and bytes. -/
def ofLinesByInitial (neovim : Bool) (lines : List String) : Reply Node :=
  (readByInitial neovim [] (.ofChars (lines.map charsOf))).1

theorem ofLines_eq_byInitial : ofLines = ofLinesByInitial := by
  funext neovim lines
  rw [ofLines_eq, readWith_eq_byInitial, ofLinesByInitial, Source.ofLines_eq_ofChars]

end Script
end VimScript
