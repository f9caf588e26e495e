import VimScript.LineDiff.Edit

/-!
Tidying a list of edits. Every dropped or added stretch is moved as far up as it goes and then as far down as
it goes, and joined with stretches of its kind that it meets. An added stretch changes places with kept lines
that are the same as its own, so that the edits still lead from the old text to the new one.
-/

set_option autoImplicit false

namespace VimScript.LineDiff

/-- A list of edits seen from one of them; those before it stand nearest first. -/
structure Focus where
  before : List Edit
  edit : Edit
  after : List Edit

namespace Edit

def isEmpty (e : Edit) : Bool :=
  e.count == 0

def moveUp (e : Edit) (n : Nat) : Edit :=
  { e with old := e.old - n, new := e.new - n }

def moveDown (e : Edit) (n : Nat) : Edit :=
  { e with old := e.old + n, new := e.new + n }

def grow (e : Edit) (n : Nat) : Edit :=
  { e with count := e.count + n }

def shrink (e : Edit) (n : Nat) : Edit :=
  { e with count := e.count - n }

/-- What is left of an edit put in front of a list, if anything is. -/
def consLeft (e : Edit) (es : List Edit) : List Edit :=
  if e.isEmpty then es else e :: es

/-- A number of kept lines put in front of a list of edits, at the given places if the list does not start
with kept lines. -/
def keepBefore (old new n : Nat) : List Edit → List Edit
  | ⟨.keep, o, w, count⟩ :: rest => ⟨.keep, o - n, w - n, count + n⟩ :: rest
  | rest => ⟨.keep, old, new, n⟩ :: rest

/-- A number of kept lines put after a list of edits, of which the last one stands first. -/
def keepAfter (old new n : Nat) : List Edit → List Edit
  | ⟨.keep, o, w, count⟩ :: rest => ⟨.keep, o, w, count + n⟩ :: rest
  | rest => ⟨.keep, old, new, n⟩ :: rest

end Edit

/-- The lines of the old text that an edit keeps. -/
def keptLines (old : List String) (e : Edit) : List String :=
  (old.drop e.old).take e.count

/-- The lines of the new text that an edit adds. -/
def addedLines (new : List String) (e : Edit) : List String :=
  match e.action with
  | .add => (new.drop e.new).take e.count
  | _ => []

/-- How much is left to pass on one side. -/
def weight : List Edit → Nat
  | [] => 0
  | e :: es => e.count + 1 + weight es

theorem commonSuffix_keptLines_le (old : List String) (e : Edit) (xs : List String) :
    commonSuffix (keptLines old e) xs ≤ e.count :=
  Nat.le_trans (commonSuffix_le_left _ _) (List.length_take_le _ _)

theorem commonPrefix_keptLines_le (old : List String) (e : Edit) (xs : List String) :
    commonPrefix (keptLines old e) xs ≤ e.count :=
  Nat.le_trans (commonPrefix_le_left _ _) (List.length_take_le _ _)

theorem weight_consLeft_lt {e left : Edit} {rest : List Edit} {n : Nat} (positive : n ≠ 0)
    (fits : n ≤ e.count) (shrunk : left.count = e.count - n) :
    weight (left.consLeft rest) < weight (e :: rest) := by
  unfold Edit.consLeft
  split <;> simp only [weight] <;> omega

/-- Moves the edit in focus up. -/
def raise (old new : List String) (f : Focus) : Focus :=
  match _ : f.before with
  | [] => f
  | above :: rest =>
    if above.action = .keep then
      let n := commonSuffix (keptLines old above) (addedLines new f.edit)
      if n = 0 then f
      else
        let left := above.shrink n
        let after := Edit.keepBefore (above.old + above.count - n) (f.edit.new + f.edit.count - n) n f.after
        raise old new ⟨left.consLeft rest, f.edit.moveUp n, after⟩
    else if above.action = f.edit.action then
      raise old new ⟨rest, above.grow f.edit.count, f.after⟩
    else
      raise old new ⟨rest, f.edit, above :: f.after⟩
termination_by weight f.before
decreasing_by
  all_goals simp only [*]
  · exact weight_consLeft_lt ‹_› (commonSuffix_keptLines_le old above _) rfl
  all_goals simp only [weight]; omega

/-- Moves the edit in focus down. -/
def sink (old new : List String) (f : Focus) : Focus :=
  match _ : f.after with
  | [] => f
  | below :: rest =>
    if below.action = .keep then
      let n := commonPrefix (keptLines old below) (addedLines new f.edit)
      if n = 0 then f
      else
        let left := (below.moveDown n).shrink n
        let before := Edit.keepAfter below.old f.edit.new n f.before
        sink old new ⟨before, f.edit.moveDown n, left.consLeft rest⟩
    else if below.action = f.edit.action then
      sink old new ⟨f.before, f.edit.grow below.count, rest⟩
    else
      sink old new ⟨below :: f.before, f.edit, rest⟩
termination_by weight f.after
decreasing_by
  all_goals simp only [*]
  · exact weight_consLeft_lt ‹_› (commonPrefix_keptLines_le old below _) rfl
  all_goals simp only [weight]; omega

/-! Neither way are there more edits of its kind after the one in focus. -/

def ofAction (a : Action) (es : List Edit) : Nat :=
  es.countP (·.action = a)

theorem ofAction_cons (a : Action) (e : Edit) (es : List Edit) :
    ofAction a (e :: es) = ofAction a es + if e.action = a then 1 else 0 := by
  simp [ofAction, List.countP_cons]

theorem ofAction_keepBefore {a : Action} (h : a ≠ .keep) (old new n : Nat) (es : List Edit) :
    ofAction a (Edit.keepBefore old new n es) = ofAction a es := by
  unfold Edit.keepBefore
  split <;> simp [ofAction_cons, h.symm]

theorem ofAction_consLeft_le (a : Action) {e left : Edit} (same : left.action = e.action) (es : List Edit) :
    ofAction a (left.consLeft es) ≤ ofAction a (e :: es) := by
  unfold Edit.consLeft
  split <;> simp only [ofAction_cons, same] <;> omega

theorem raise_edit_action (old new : List String) (f : Focus) :
    (raise old new f).edit.action = f.edit.action := by
  fun_induction raise old new f <;> simp_all [Edit.moveUp, Edit.grow]

theorem sink_edit_action (old new : List String) (f : Focus) :
    (sink old new f).edit.action = f.edit.action := by
  fun_induction sink old new f <;> simp_all [Edit.moveDown, Edit.grow]

theorem ofAction_raise_after {a : Action} (h : a ≠ .keep) (old new : List String) (f : Focus)
    (same : f.edit.action = a) : ofAction a (raise old new f).after = ofAction a f.after := by
  fun_induction raise old new f with
  | case1 => rfl
  | case2 => rfl
  | case3 f above rest found kept n some left after ih =>
    rw [ih (by simpa [Edit.moveUp] using same)]
    exact ofAction_keepBefore h _ _ _ _
  | case4 f above rest found notKept joined ih => exact ih (by simp [Edit.grow, joined, same])
  | case5 f above rest found notKept other ih =>
    rw [ih same, ofAction_cons, if_neg (by rw [← same]; exact other)]
    rfl

theorem ofAction_sink_after_le {a : Action} (old new : List String) (f : Focus) :
    ofAction a (sink old new f).after ≤ ofAction a f.after := by
  fun_induction sink old new f with
  | case1 => exact Nat.le_refl _
  | case2 => exact Nat.le_refl _
  | case3 f below rest found kept n some left before ih =>
    refine Nat.le_trans ih ?_
    rw [found]
    exact ofAction_consLeft_le _ rfl _
  | case4 f below rest found notKept joined ih =>
    refine Nat.le_trans ih ?_
    rw [found, ofAction_cons]
    exact Nat.le_add_right _ _
  | case5 f below rest found notKept other ih =>
    refine Nat.le_trans ih ?_
    rw [found, ofAction_cons]
    exact Nat.le_add_right _ _

/-- Lets all edits of one kind find their places, from the first one on; those before stand nearest first. -/
def settle (old new : List String) (a : Action) (changes : a ≠ .keep) (before after : List Edit) :
    List Edit :=
  match after with
  | [] => before.reverse
  | e :: rest =>
    if e.action = a then
      let f := sink old new (raise old new ⟨before, e, rest⟩)
      settle old new a changes (f.edit :: f.before) f.after
    else settle old new a changes (e :: before) rest
termination_by (ofAction a after, after.length)
decreasing_by
  · rename_i same
    apply Prod.Lex.left
    refine Nat.lt_of_le_of_lt (ofAction_sink_after_le old new _) ?_
    rw [ofAction_raise_after changes old new _ same, ofAction_cons, if_pos same]
    exact Nat.lt_succ_self _
  · rename_i different
    rw [ofAction_cons, if_neg different]
    exact Prod.Lex.right _ (Nat.lt_succ_self _)

/-- Settles what is dropped first, then what is added. -/
def tidy (old new : List String) (es : List Edit) : List Edit :=
  settle old new .add (by decide) [] (settle old new .drop (by decide) [] es)

end VimScript.LineDiff
