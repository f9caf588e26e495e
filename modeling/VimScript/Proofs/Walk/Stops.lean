import Mathlib.Data.List.TakeWhile
import VimScript.Proofs.Walk.Tour

/-!
Walks that do not see the whole tree. Below a node that is skipped there are no events; all others come as in the full
walk. A type that is missing from the lookup ends the walk where a node of it would be entered, and nothing is told of
the nodes that are still open there.
-/

set_option autoImplicit false

namespace VimScript

theorem Node.along_induction {motive : Node → Prop}
    (step : ∀ n : Node, (∀ c ∈ n.along n.type.fields, motive c) → motive n) (n : Node) : motive n :=
  step n fun c _ => along_induction step c
termination_by sizeOf n
decreasing_by exact sizeOf_lt_of_mem_along (by assumption)

namespace Walk

/-! ### Skipped nodes -/

/-- The events that are not inside a node of the given types, when `depth` such nodes are open. Entering and leaving a node
is not inside of it. -/
def outside (skips : NodeType → Bool) : Nat → List Event → List Event
  | _, [] => []
  | depth, e :: es =>
    let inner := (skips e.node.type).toNat
    match e.phase with
    | .enter => (if depth = 0 then [e] else []) ++ outside skips (depth + inner) es
    | .leave => (if depth - inner = 0 then [e] else []) ++ outside skips (depth - inner) es

/-- The events of a walk that does not go below the nodes of the given types. -/
def visits (skips : NodeType → Bool) (n : Node) : List Event :=
  let below := (n.along n.type.fields).attach.flatMap fun c => visits skips c.1
  ⟨.enter, n⟩ :: (if skips n.type then [] else below) ++ [⟨.leave, n⟩]
termination_by sizeOf n
decreasing_by exact Node.sizeOf_lt_of_mem_along c.2

variable {skips : NodeType → Bool}

theorem visits_eq (n : Node) :
    visits skips n =
      ⟨.enter, n⟩ :: (if skips n.type then [] else (n.along n.type.fields).flatMap (visits skips)) ++ [⟨.leave, n⟩] := by
  rw [visits, List.flatMap_subtype (g := visits skips) (fun _ _ => rfl), List.unattach_attach]

/-- The first events close every node they open, and the second are what is outside of them. -/
def ShownAs (skips : NodeType → Bool) (events shown : List Event) : Prop :=
  ∀ depth rest,
    outside skips depth (events ++ rest) = (if depth = 0 then shown else []) ++ outside skips depth rest

theorem ShownAs.flatMap {cs : List Node} {events shown : Node → List Event}
    (each : ∀ c ∈ cs, ShownAs skips (events c) (shown c)) : ShownAs skips (cs.flatMap events) (cs.flatMap shown) := by
  intro depth rest
  induction cs with
  | nil => simp
  | cons c cs ih =>
    have tail := ih fun d place => each d (by simp [place])
    rw [List.flatMap_cons, List.append_assoc, each c (by simp), tail]
    split <;> simp

theorem shownAs_tour (n : Node) : ShownAs skips (tour n) (visits skips n) := by
  induction n using Node.along_induction with
  | step n ih =>
    have below := ShownAs.flatMap ih
    intro depth rest
    rw [tour_eq, visits_eq]
    simp only [List.cons_append, List.append_assoc, outside]
    cases skip : skips n.type with
    | false =>
      rw [Bool.toNat_false, Nat.add_zero, below]
      simp only [outside, skip, Bool.toNat_false, Nat.sub_zero]
      split <;> simp
    | true =>
      -- Below `n` one node more is open than beside it.
      rw [Bool.toNat_true, below]
      simp only [outside, skip, Bool.toNat_true, Nat.add_sub_cancel]
      split <;> simp

theorem outside_tour (n : Node) : outside skips 0 (tour n) = visits skips n := by
  have shown : ShownAs skips (tour n) (visits skips n) := shownAs_tour n
  simpa [outside] using shown 0 []

/-! ### Types that are not found -/

/-- All fields of all types but the denied ones. -/
def fieldsBut (denied : NodeType → Bool) : Lookup :=
  fun t => if denied t then none else some t.fields

/-- Whether a node of a denied type would be entered. -/
def Event.meets (denied : NodeType → Bool) (e : Event) : Bool :=
  e.phase == .enter && denied e.node.type

variable {σ : Type} {denied : NodeType → Bool} {enter leave : Node → σ → σ}

/-- A visitor that keeps the walk from going below the nodes of the given types. -/
def Visitor.skipping (skips : NodeType → Bool) (enter leave : Node → σ → σ) : Visitor σ where
  enter n state := (if skips n.type then .skip else .descend, enter n state)
  leave := leave

/-- Tells of events one after the other, until one of them meets a denied type. -/
def told (denied : NodeType → Bool) (enter leave : Node → σ → σ) : List Event → σ → Outcome σ
  | [], state => { state }
  | e :: es, state =>
    if e.meets denied then { unknown := some e.node.type, state }
    else told denied enter leave es (e.notify enter leave state)

/-- Goes on from the state of a walk, if the walk met no unknown type. -/
def Outcome.andThen (found : Outcome σ) (next : σ → Outcome σ) : Outcome σ :=
  match found.unknown with
  | none => next found.state
  | some _ => found

theorem told_append (xs ys : List Event) (state : σ) :
    told denied enter leave (xs ++ ys) state =
      (told denied enter leave xs state).andThen (told denied enter leave ys) := by
  induction xs generalizing state with
  | nil => rfl
  | cons e es ih =>
    cases stops : e.meets denied with
    | true => simp [told, stops, Outcome.andThen]
    | false => simp [told, stops, ih]

theorem run_andThen (look : Lookup) (v : Visitor σ) (n : Node) (state : σ) :
    run look v n state =
      match look n.type with
      | none => { unknown := some n.type, state }
      | some fields =>
        match v.enter n state with
        | (.skip, state) => { state := v.leave n state }
        | (.descend, state) =>
          let below := (n.along fields).foldl (fun found c => found.andThen (run look v c)) ({ state } : Outcome σ)
          below.andThen fun state => { state := v.leave n state } :=
  run_eq look v n state

theorem run_skipping (n : Node) (state : σ) :
    run (fieldsBut denied) (.skipping skips enter leave) n state =
      told denied enter leave (visits skips n) state := by
  induction n using Node.along_induction generalizing state with
  | step n ih =>
    -- Once a node was not found, the walk passes by all that come after it, as nothing behind it is told of.
    have below (cs : List Node) (inside : ∀ c ∈ cs, c ∈ n.along n.type.fields) (found : Outcome σ) :
        cs.foldl (fun found c => found.andThen (run (fieldsBut denied) (.skipping skips enter leave) c)) found =
          found.andThen (told denied enter leave (cs.flatMap (visits skips))) := by
      induction cs generalizing found with
      | nil => rcases found with ⟨_ | _, _⟩ <;> rfl
      | cons c cs tail =>
        rw [List.foldl_cons, tail fun d place => inside d (by simp [place])]
        cases found with
        | mk unknown state =>
          cases unknown with
          | none => simp [Outcome.andThen, ih c (inside c (by simp)), told_append]
          | some _ => rfl
    rw [run_andThen, visits_eq]
    cases missing : denied n.type with
    | true => simp [fieldsBut, told, Event.meets, missing]
    | false =>
      cases skip : skips n.type with
      | true => simp [fieldsBut, told, Event.meets, Event.notify, Visitor.skipping, missing, skip]
      | false =>
        have inner := below (n.along n.type.fields) (fun _ => id) { state := enter n state }
        simp only [fieldsBut, missing, Visitor.skipping, skip, Bool.false_eq_true, if_false] at inner ⊢
        rw [inner]
        simp [told, told_append, Event.meets, Event.notify, missing, Outcome.andThen]

theorem told_eq (es : List Event) (state : σ) :
    told denied enter leave es state =
      { unknown := (es.find? (Event.meets denied)).map fun e => e.node.type
        state := (es.takeWhile fun e => !e.meets denied).foldl (Event.notify enter leave) state } := by
  induction es generalizing state with
  | nil => rfl
  | cons e es ih =>
    cases stops : e.meets denied <;> simp [told, stops, ih]

/-- With all fields at hand, skipping removes the events inside the skipped nodes and no other ones. Without those of some
types, the events are the same up to the first entering of such a type, which is the type that is reported. -/
theorem events_fieldsBut (skips denied : NodeType → Bool) (n : Node) :
    let shown := outside skips 0 (events allFields (fun _ => false) n).1
    events allFields skips n = (shown, none) ∧
      events (fieldsBut denied) skips n =
        (shown.takeWhile fun e => !e.meets denied,
          (shown.find? (Event.meets denied)).map fun e => e.node.type) := by
  intro shown
  have plain : shown = visits skips n := by
    rw [← outside_tour]
    simp only [shown, events_allFields]
  have restricted (denied : NodeType → Bool) :
      events (fieldsBut denied) skips n =
        (shown.takeWhile fun e => !e.meets denied, (shown.find? (Event.meets denied)).map fun e => e.node.type) := by
    let enter (n : Node) (log : List Event) : List Event := ⟨.enter, n⟩ :: log
    let leave (n : Node) (log : List Event) : List Event := ⟨.leave, n⟩ :: log
    have walked : run (fieldsBut denied) (.skipping skips enter leave) n [] =
        told denied enter leave (visits skips n) [] := run_skipping n []
    rw [told_eq, foldl_notify_recorder, ← plain] at walked
    rw [events, show recorder skips = .skipping skips enter leave from rfl, walked]
    simp
  refine ⟨?_, restricted denied⟩
  have all : allFields = fieldsBut fun _ => false := rfl
  have never : Event.meets (fun _ => false) = fun _ => false := funext fun e => Bool.and_false _
  rw [all, restricted, never, List.takeWhile_eq_self_iff.mpr (by simp)]
  simp

end Walk

end VimScript
